import SsaPrune.Proofs.Text.Additions

/-!
# What the construction of a function leaves behind

The construction goes over the source tree four times: parameters, blocks, instructions, operands.
What each pass leaves is described by the names of the entities that it adds; since names stay, the
later passes do not disturb it.

The main statement is `Source.Function.spells_of_resolve`: the function that comes out *spells* its
source tree. It has the parameters, the blocks and the instructions of the tree, in the same order,
and every entity that an instruction names bears the name that the tree gives there.
-/

namespace SsaPrune

/-! ## Spelling -/

namespace Function

variable (f : Function)

/-- The operand is what is written: a value of that name, or that number. -/
def Bears : Source.Operand → Operand → Prop
  | .name n, .value v => f.valueName? v = some n
  | .imm n, .imm k => n = k
  | _, _ => False

/-- The block has that label. -/
def Labelled (label : String) (b : BlockId) : Prop := f.blockLabel? b = some label

/-- The instruction is the written one, its operands apart. -/
structure Outlines (written : Source.Inst) (i : InstId) (d : Instruction) : Prop where
  inst : f.inst? i = some d
  opcode : d.opcode.name = written.opcode
  callee : d.callee = written.callee
  successors : List.Forall₂ f.Labelled written.arguments.successors d.successors
  phiBlocks : List.Forall₂ f.Labelled written.arguments.incomingLabels d.phiBlocks
  result : written.result = none ∧ f.result? i = none ∨
    ∃ n v, written.result = some n ∧ f.result? i = some v ∧ f.valueName? v = some n

/-- The instruction is the written one. -/
def SpellsInst (written : Source.Inst) (i : InstId) : Prop :=
  ∃ d, f.Outlines written i d ∧ List.Forall₂ f.Bears written.arguments.operands d.operands

/-- The block is the written one. -/
def SpellsBlock (block : Source.Block) (b : BlockId) : Prop :=
  f.Labelled block.label b ∧ List.Forall₂ f.SpellsInst block.insts (f.instsOf b)

/-- The function is the written one. -/
structure Spells (source : Source.Function) : Prop where
  name : f.name = source.name
  params : List.Forall₂ (fun n v => f.valueName? v = some n) source.params f.params
  blocks : List.Forall₂ f.SpellsBlock source.blocks f.layout

variable {f} {g : Function}

theorem Outlines.mono {written : Source.Inst} {i : InstId} {d : Instruction}
    (h : f.Outlines written i d) (hn : f.NamesKept g) {operands : List Operand}
    (hi : g.inst? i = some { d with operands }) (hr : g.result? i = f.result? i) :
    g.Outlines written i { d with operands } where
  inst := hi
  opcode := h.opcode
  callee := h.callee
  successors := h.successors.imp fun l b => hn.label b l
  phiBlocks := h.phiBlocks.imp fun l b => hn.label b l
  result := by
    rw [hr]
    exact h.result.imp_right fun ⟨n, v, hres, hv, hname⟩ => ⟨n, v, hres, hv, hn.value v n hname⟩

theorem Bears.mono (hn : f.NamesKept g) {x : Source.Operand} {y : Operand} (h : f.Bears x y) :
    g.Bears x y := by
  cases x <;> cases y
  case name.value n v => exact hn.value v n h
  all_goals exact h

end Function

namespace Build

variable {s t : Scope} {start : List Char}

/-! ## Parameters -/

theorem addParam_eq_ok {name : String} {u : Unit} (hs : s.Sound)
    (h : addParam start name s = .ok (u, t)) :
    t.Sound ∧ s.function.NamesKept t.function ∧
      ∃ v, t.function.params = s.function.params ++ [v] ∧ t.function.valueName? v = some name ∧
        t.function.blocks = s.function.blocks ∧ t.function.layout = s.function.layout := by
  obtain ⟨-, g, hg, heq⟩ := addParam_eq_ok_iff.mp h
  obtain ⟨-, rfl⟩ := Prod.mk.inj heq
  obtain rfl := Request.run_eq_ok_iff.mp hg
  have hname := Function.valueName?_next (f := s.function)
    ⟨.param s.function.params.length, some name⟩
  refine ⟨?_, Function.namesKept_request hg, _, rfl, hname, rfl, rfl⟩
  exact (hs.request (.addParam (some name)) (by simp [Request.lookups]) (by simp) hg).declareValue hname

theorem addParams_eq_ok {names : List String} {u : Unit} (hs : s.Sound)
    (h : names.forM (addParam start) s = .ok (u, t)) :
    t.Sound ∧ s.function.NamesKept t.function ∧
      (∃ vs, t.function.params = s.function.params ++ vs ∧
        List.Forall₂ (fun n v => t.function.valueName? v = some n) names vs) ∧
      t.function.blocks = s.function.blocks ∧ t.function.layout = s.function.layout := by
  induction names generalizing s with
  | nil =>
    obtain ⟨-, rfl⟩ := Prod.mk.inj (pure_eq_ok.mp h)
    exact ⟨hs, .refl _, ⟨[], by simp, .nil⟩, rfl, rfl⟩
  | cons name names ih =>
    change (addParam start name >>= fun _ => names.forM (addParam start)) s = _ at h
    obtain ⟨_, s', hone, hrest⟩ := bind_eq_ok.mp h
    obtain ⟨hs', hn, v, hv, hname, hb, hl⟩ := addParam_eq_ok hs hone
    obtain ⟨ht, hn', ⟨vs, hvs, hnames⟩, hb', hl'⟩ := ih hs' hrest
    refine ⟨ht, hn.trans hn', ⟨v :: vs, by simp [hvs, hv], ?_⟩, hb'.trans hb, hl'.trans hl⟩
    exact .cons (hn'.value v name hname) hnames

/-! ## Blocks -/

theorem addBlock_eq_ok {block : Source.Block} {b : BlockId} (hs : s.Sound)
    (h : addBlock block s = .ok (b, t)) :
    t.Sound ∧ s.function.NamesKept t.function ∧ t.function.params = s.function.params ∧
      t.function.layout = s.function.layout ++ [b] ∧ t.function.Labelled block.label b ∧
      ∀ c, t.function.instsOf c = s.function.instsOf c := by
  obtain ⟨-, g, hg, heq⟩ := addBlock_eq_ok_iff.mp h
  obtain ⟨rfl, rfl⟩ := Prod.mk.inj heq
  obtain rfl := Request.run_eq_ok_iff.mp hg
  have hname := Function.blockLabel?_next (f := s.function) ⟨some block.label, []⟩
  have hs' := hs.request (.addBlock (some block.label)) (by simp [Request.lookups]) (by simp) hg
  refine ⟨hs'.declareBlock hname, Function.namesKept_request hg, rfl, rfl, hname, fun c => ?_⟩
  exact Function.instsOf_addBlock (some block.label) c

theorem addBlocks_eq_ok {blocks : List Source.Block} {bs : List (BlockId × Source.Block)}
    (hs : s.Sound)
    (h : (blocks.mapM fun block => return (← addBlock block, block)) s = .ok (bs, t)) :
    t.Sound ∧ s.function.NamesKept t.function ∧ t.function.params = s.function.params ∧
      t.function.layout = s.function.layout ++ bs.map (·.1) ∧ bs.map (·.2) = blocks ∧
      (∀ p ∈ bs, t.function.Labelled p.2.label p.1) ∧
      ∀ c, t.function.instsOf c = s.function.instsOf c := by
  induction blocks generalizing s bs with
  | nil =>
    obtain ⟨rfl, rfl⟩ := Prod.mk.inj (mapM_nil_eq_ok.mp h)
    exact ⟨hs, .refl _, rfl, by simp, rfl, by simp, fun _ => rfl⟩
  | cons block blocks ih =>
    obtain ⟨p, s', ps, u, hone, hrest, heq⟩ := mapM_cons_eq_ok.mp h
    obtain ⟨rfl, rfl⟩ := Prod.mk.inj heq
    obtain ⟨b, s'', hadd, hpure⟩ := bind_eq_ok.mp hone
    obtain ⟨rfl, rfl⟩ := Prod.mk.inj (pure_eq_ok.mp hpure)
    obtain ⟨hs', hn, hp, hl, hname, hi⟩ := addBlock_eq_ok hs hadd
    obtain ⟨ht, hn', hp', hl', hblocks, hnames, hi'⟩ := ih hs' hrest
    refine ⟨ht, hn.trans hn', hp'.trans hp, by simp [hl', hl], by simp [hblocks], ?_,
      fun c => (hi' c).trans (hi c)⟩
    intro q hq
    rcases List.mem_cons.mp hq with rfl | hq
    · exact hn'.label _ _ hname
    · exact hnames q hq

/-! ## Instructions -/

/-- What is added at the end of a block leaves the rest of the function as it was. -/
structure Extends (f g : Function) : Prop where
  names : f.NamesKept g
  params : g.params = f.params
  layout : g.layout = f.layout
  has : ∀ l, f.Has l → g.Has l
  insts : ∀ j, f.Has (.inst j) → g.inst? j = f.inst? j ∧ g.result? j = f.result? j

theorem Extends.refl (f : Function) : Extends f f :=
  ⟨.refl f, rfl, rfl, fun _ h => h, fun _ _ => ⟨rfl, rfl⟩⟩

theorem Extends.trans {f g h : Function} (hfg : Extends f g) (hgh : Extends g h) : Extends f h where
  names := hfg.names.trans hgh.names
  params := hgh.params.trans hfg.params
  layout := hgh.layout.trans hfg.layout
  has l hl := hgh.has l (hfg.has l hl)
  insts j hj := by
    obtain ⟨hi, hr⟩ := hfg.insts j hj
    obtain ⟨hi', hr'⟩ := hgh.insts j (hfg.has _ hj)
    exact ⟨hi'.trans hi, hr'.trans hr⟩

/-- An outline stays when more is added. -/
theorem Extends.outlines {f g : Function} (h : Extends f g) {written : Source.Inst} {i : InstId}
    {d : Instruction} (ho : f.Outlines written i d) : g.Outlines written i d := by
  obtain ⟨hi, hr⟩ := h.insts i (Function.has_inst_iff.mpr ⟨d, ho.inst⟩)
  exact ho.mono h.names (hi.trans ho.inst) hr

/-- `g` is `f` with a new instruction that no block holds yet; it may have a result. -/
structure Created (f g : Function) (i : InstId) (d : Instruction) : Prop where
  names : f.NamesKept g
  params : g.params = f.params
  layout : g.layout = f.layout
  has : ∀ l, f.Has l → g.Has l
  next : i = f.insts.next
  insts : g.insts = f.insts.push d
  blocks : g.blocks = f.blocks
  results : ∀ j, f.Has (.inst j) → g.result? j = f.result? j

theorem Created.inst? {f g : Function} {i : InstId} {d : Instruction} (h : Created f g i d) :
    g.inst? i = some d := by
  rw [Function.inst?, h.insts, h.next, Arena.get?_push, if_pos rfl]

theorem Created.ne {f g : Function} {i j : InstId} {d : Instruction} (h : Created f g i d)
    (hj : f.Has (.inst j)) : j ≠ i := fun he => by
  rw [he, h.next] at hj
  exact Nat.lt_irrefl _ (f.has_inst.mp hj)

theorem Created.inst?_of_has {f g : Function} {i j : InstId} {d : Instruction}
    (h : Created f g i d) (hj : f.Has (.inst j)) : g.inst? j = f.inst? j := by
  have hne := h.ne hj
  rw [h.next] at hne
  rw [Function.inst?, h.insts, Arena.get?_push, if_neg hne]
  rfl

theorem created_of_create {d : Instruction} {g : Function} (hs : s.Sound) (hd : d.operands = [])
    (hl : ∀ l ∈ d.lookups, s.function.Has l) (hg : (Request.create d).run s.function = .ok () g) :
    Scope.Sound { s with function := g } ∧ Created s.function g s.function.insts.next d ∧
      g.result? s.function.insts.next = none := by
  have hnames := Function.namesKept_request hg
  have hhas : ∀ l, s.function.Has l → g.Has l := fun _ => Function.Has.request hg
  have hs' := hs.request (.create d) hl (by simp) hg
  obtain ⟨-, rfl⟩ := Request.run_eq_ok_iff.mp hg
  rw [hd] at hnames hhas hs' ⊢
  exact ⟨hs', ⟨hnames, rfl, rfl, hhas, rfl, rfl, rfl, fun _ _ => rfl⟩,
    hs.composed.closed.result?_next hs.composed.built.coherent.definitions⟩

/-- The result of a new instruction is defined, if it has one. -/
theorem created_of_resultRequests {f : Function} {i : InstId} {d : Instruction} {result : Option String}
    {g : Function} (hs : s.Sound) (hc : Created f s.function i d) (hnone : s.function.result? i = none)
    (hg : (resultRequests i result).forM Request.run s.function = .ok () g) :
    (declared s result s.function.values.next g).Sound ∧ Created f g i d ∧
      (result = none ∧ g.result? i = none ∨
        ∃ n v, result = some n ∧ g.result? i = some v ∧ g.valueName? v = some n) := by
  cases result with
  | none =>
    obtain rfl := run_resultRequests_none.mp hg
    exact ⟨hs, hc, .inl ⟨rfl, hnone⟩⟩
  | some name =>
    have hrun := run_resultRequests_some.mp hg
    have hi : s.function.Has (.inst i) := Function.has_inst_iff.mpr ⟨d, hc.inst?⟩
    have hs' := hs.request (.defineResult i (some name)) (by simpa [Request.lookups] using hi) (by simp)
      hrun
    have hnames := hc.names.trans (Function.namesKept_request hrun)
    have hhas : ∀ l, f.Has l → g.Has l := fun l hl => (hc.has l hl).request hrun
    obtain ⟨-, rfl⟩ := Request.run_eq_ok_iff.mp hrun
    have hname := Function.valueName?_next (f := s.function) ⟨.result i, some name⟩
    refine ⟨hs'.declareValue hname, ?_, .inr ⟨name, _, rfl, SideTable.get_set_self _ _ _, hname⟩⟩
    refine ⟨hnames, hc.params, hc.layout, hhas, hc.next, hc.insts, hc.blocks, fun j hj => ?_⟩
    exact (SideTable.get_set_of_ne _ (Ne.symm (hc.ne hj)) _).trans (hc.results j hj)

theorem extends_of_append {f g : Function} {i : InstId} {b : BlockId} {d : Instruction}
    (hs : s.Sound) (hc : Created f s.function i d) (hb : f.Has (.block b))
    (hg : (Request.append b i).run s.function = .ok () g) :
    Scope.Sound { s with function := g } ∧ Extends f g ∧ s.function.NamesKept g ∧
      g.inst? i = some { d with parent := some b } ∧ g.result? i = s.function.result? i ∧
      ∀ c, g.instsOf c = if b = c then f.instsOf c ++ [i] else f.instsOf c := by
  obtain ⟨hi, -, hb', hgeq⟩ := Request.run_eq_ok_iff.mp hg
  have hnames := Function.namesKept_request hg
  have hhas : ∀ l, s.function.Has l → g.Has l := fun _ => Function.Has.request hg
  have hnamed : ∀ l ∈ (Request.append b i).lookups, s.function.Has l := by
    intro l hl
    rcases List.mem_pair.mp hl with rfl | rfl
    · exact hb'
    · exact hi
  have hs' := hs.request (.append b i) hnamed (by simp) hg
  have hblock : ∀ c, s.function.instsOf c = f.instsOf c := fun c => by
    rw [Function.instsOf, Function.block?, hc.blocks]
    rfl
  refine ⟨hs', ⟨hc.names.trans hnames, ?_, ?_, fun l hl => hhas l (hc.has l hl), fun j hj => ?_⟩,
    hnames, ?_, ?_, fun c => ?_⟩
  · rw [hgeq]
    exact hc.params
  · rw [hgeq]
    exact hc.layout
  · have hne := hc.ne hj
    rw [hgeq]
    refine ⟨?_, hc.results j hj⟩
    rw [Function.inst?_editBlock, Function.inst?_withParent, if_neg (Ne.symm hne),
      hc.inst?_of_has hj]
  · rw [hgeq, Function.inst?_editBlock, Function.inst?_withParent, if_pos rfl, hc.inst?]
    rfl
  · rw [hgeq]
    rfl
  · have hsize : (s.function.withParent i (some b)).blocks = f.blocks := hc.blocks
    have hinsts : (s.function.withParent i (some b)).instsOf c = f.instsOf c := hblock c
    rw [hgeq, Function.instsOf_editBlock, hsize, hinsts]
    by_cases hbc : b = c
    · subst hbc
      simp [f.has_block.mp hb]
    · simp [hbc]

theorem has_lookups_of_labelled {f : Function} {d : Instruction} (hd : d.operands = [])
    {labels labels' : List String} (hs : List.Forall₂ f.Labelled labels d.successors)
    (hp : List.Forall₂ f.Labelled labels' d.phiBlocks) : ∀ l ∈ d.lookups, f.Has l := by
  have hblock : ∀ label c, f.Labelled label c → f.Has (.block c) := fun _ _ h =>
    Function.has_block_of_label h
  intro l hl
  simp only [Instruction.lookups, Instruction.values, hd, List.filterMap_nil, List.map_nil,
    List.nil_append, List.mem_map, List.mem_append] at hl
  obtain ⟨c, hc, rfl⟩ := hl
  rcases hc with hc | hc
  · exact forall_of_forall₂ hblock hs c hc
  · exact forall_of_forall₂ hblock hp c hc

/-- What was added at the end of a block stands for the written instruction. -/
theorem addInst_eq_ok {b : BlockId} {written : Source.Inst} {i : InstId} (hs : s.Sound)
    (hb : s.function.Has (.block b)) (h : addInst b written s = .ok (i, t)) :
    t.Sound ∧ Extends s.function t.function ∧ (∃ d, t.function.Outlines written i d) ∧
      ∀ c, t.function.instsOf c =
        if b = c then s.function.instsOf c ++ [i] else s.function.instsOf c := by
  obtain ⟨d, g₁, g₂, g, hd, -, hg, rfl, rfl⟩ := addInst_eq_ok_iff.mp h
  have hsucc : List.Forall₂ s.function.Labelled _ d.successors := hd.successors.imp fun l c => hs.blocks l c
  have hphi : List.Forall₂ s.function.Labelled _ d.phiBlocks := hd.phiBlocks.imp fun l c => hs.blocks l c
  obtain ⟨hs₁, hc₁, hnone⟩ :=
    created_of_create hs hd.operands (has_lookups_of_labelled hd.operands hsucc hphi) hg.create
  obtain ⟨hs₂, hc₂, hresult⟩ :=
    created_of_resultRequests (s := { s with function := g₁ }) hs₁ hc₁ hnone hg.define
  obtain ⟨ht, hext, hn, hi, hr, hinsts⟩ := extends_of_append hs₂ hc₂ hb hg.append
  refine ⟨ht, hext, ⟨_, hi, Opcode.name_of_ofName? hd.opcode, hd.callee, ?_, ?_, ?_⟩, hinsts⟩
  · exact hsucc.imp fun l c => hext.names.label c l
  · exact hphi.imp fun l c => hext.names.label c l
  · exact hresult.imp (fun ⟨hw, hno⟩ => ⟨hw, hr.trans hno⟩)
      fun ⟨n, v, hw, hv, hname⟩ => ⟨n, v, hw, hr.trans hv, hn.value v n hname⟩

/-- The instructions that were added stand for the written ones they are paired with. -/
def Outlined (f : Function) (is : List (InstId × Source.Inst)) : Prop :=
  ∀ p ∈ is, ∃ d, f.Outlines p.2 p.1 d

theorem Outlined.mono {f g : Function} {is : List (InstId × Source.Inst)} (h : Outlined f is)
    (hfg : Extends f g) : Outlined g is := fun p hp => by
  obtain ⟨d, hd⟩ := h p hp
  exact ⟨d, hfg.outlines hd⟩

theorem addInsts_eq_ok {b : BlockId} {insts : List Source.Inst}
    {is : List (InstId × Source.Inst)} (hs : s.Sound) (hb : s.function.Has (.block b))
    (h : (insts.mapM fun inst => return (← addInst b inst, inst)) s = .ok (is, t)) :
    t.Sound ∧ Extends s.function t.function ∧ is.map (·.2) = insts ∧ Outlined t.function is ∧
      ∀ c, t.function.instsOf c =
        if b = c then s.function.instsOf c ++ is.map (·.1) else s.function.instsOf c := by
  induction insts generalizing s is with
  | nil =>
    obtain ⟨rfl, rfl⟩ := Prod.mk.inj (mapM_nil_eq_ok.mp h)
    exact ⟨hs, .refl _, rfl, by simp [Outlined], by simp⟩
  | cons inst insts ih =>
    obtain ⟨p, s', ps, u, hone, hrest, heq⟩ := mapM_cons_eq_ok.mp h
    obtain ⟨rfl, rfl⟩ := Prod.mk.inj heq
    obtain ⟨i, s'', hadd, hpure⟩ := bind_eq_ok.mp hone
    obtain ⟨rfl, rfl⟩ := Prod.mk.inj (pure_eq_ok.mp hpure)
    obtain ⟨hs', hext, hout, hinsts⟩ := addInst_eq_ok hs hb hadd
    obtain ⟨ht, hext', hmap, houts, hinsts'⟩ := ih hs' (hext.has _ hb) hrest
    refine ⟨ht, hext.trans hext', by simp [hmap], ?_, fun c => ?_⟩
    · refine List.forall_mem_cons.mpr ⟨?_, houts⟩
      obtain ⟨d, hd⟩ := hout
      exact ⟨d, hext'.outlines hd⟩
    · rw [hinsts', hinsts]
      split <;> simp

theorem addAllInsts_eq_ok {bs : List (BlockId × Source.Block)}
    {iss : List (List (InstId × Source.Inst))} (hs : s.Sound)
    (hb : ∀ p ∈ bs, s.function.Has (.block p.1)) (hn : (bs.map (·.1)).Nodup)
    (h : (bs.mapM fun (p : BlockId × Source.Block) => p.2.insts.mapM fun inst =>
      return (← addInst p.1 inst, inst) : Build _) s = .ok (iss, t)) :
    t.Sound ∧ Extends s.function t.function ∧ Outlined t.function iss.flatten ∧
      (∀ c ∉ bs.map (·.1), t.function.instsOf c = s.function.instsOf c) ∧
      List.Forall₂ (fun p is => is.map (·.2) = p.2.insts ∧
        t.function.instsOf p.1 = s.function.instsOf p.1 ++ is.map (·.1)) bs iss := by
  induction bs generalizing s iss with
  | nil =>
    obtain ⟨rfl, rfl⟩ := Prod.mk.inj (mapM_nil_eq_ok.mp h)
    exact ⟨hs, .refl _, by simp [Outlined], fun _ _ => rfl, .nil⟩
  | cons p bs ih =>
    obtain ⟨is, s', rest, u, hone, hrest, heq⟩ := mapM_cons_eq_ok.mp h
    obtain ⟨rfl, rfl⟩ := Prod.mk.inj heq
    obtain ⟨hp, hn⟩ := List.nodup_cons.mp hn
    obtain ⟨hs', hext, hmap, hout, hinsts⟩ := addInsts_eq_ok hs (hb p List.mem_cons_self) hone
    obtain ⟨ht, hext', houts, hother, hall⟩ := ih hs'
      (fun q hq => hext.has _ (hb q (List.mem_cons_of_mem _ hq))) hn hrest
    refine ⟨ht, hext.trans hext', ?_, fun c hc => ?_, .cons ⟨hmap, ?_⟩ ?_⟩
    · rw [List.flatten_cons]
      exact List.forall_mem_append.mpr ⟨hout.mono hext', houts⟩
    · simp only [List.map_cons, List.mem_cons, not_or] at hc
      rw [hother c hc.2, hinsts, if_neg (Ne.symm hc.1)]
    · rw [hother _ hp, hinsts, if_pos rfl]
    · -- the blocks that are left are not the one that was filled first
      have hne : ∀ q ∈ bs, p.1 ≠ q.1 := fun q hq he => hp (List.mem_map.mpr ⟨q, hq, he.symm⟩)
      refine ((List.forall₂_and_left _ _).mpr ⟨hne, hall⟩).imp fun q js hqj => ?_
      obtain ⟨hne, hjs, hlist⟩ := hqj
      exact ⟨hjs, by rw [hlist, hinsts, if_neg hne]⟩

/-! ## Operands -/

theorem bears_of_stands (hs : s.Sound) {x : Source.Operand} {y : Operand} (h : s.Stands x y) :
    s.function.Bears x y := by
  cases x <;> cases y
  case name.value n v => exact hs.values n v h
  all_goals exact h

/-- `g` is `f` with other operands for some instructions. -/
structure Fills (f g : Function) : Prop where
  names : f.NamesKept g
  params : g.params = f.params
  layout : g.layout = f.layout
  results : ∀ j, g.result? j = f.result? j
  instsOf : ∀ c, g.instsOf c = f.instsOf c

theorem Fills.refl (f : Function) : Fills f f :=
  ⟨.refl f, rfl, rfl, fun _ => rfl, fun _ => rfl⟩

theorem Fills.trans {f g h : Function} (hfg : Fills f g) (hgh : Fills g h) : Fills f h where
  names := hfg.names.trans hgh.names
  params := hgh.params.trans hfg.params
  layout := hgh.layout.trans hfg.layout
  results j := (hgh.results j).trans (hfg.results j)
  instsOf c := (hgh.instsOf c).trans (hfg.instsOf c)

theorem addOperands_eq_ok {i : InstId} {written : Source.Inst} {u : Unit} (hs : s.Sound)
    (h : addOperands i written s = .ok (u, t)) :
    t.Sound ∧ Fills s.function t.function ∧
      (∀ j ≠ i, t.function.inst? j = s.function.inst? j) ∧
      ∃ operands, List.Forall₂ t.function.Bears written.arguments.operands operands ∧
        t.function.inst? i = (s.function.inst? i).map ({ · with operands }) := by
  obtain ⟨operands, g, hops, hrun, heq⟩ := addOperands_eq_ok_iff.mp h
  obtain ⟨-, rfl⟩ := Prod.mk.inj heq
  have hops : List.Forall₂ s.function.Bears _ _ := hops.imp fun x y => bears_of_stands hs
  obtain ⟨hi, hgeq⟩ := Request.run_eq_ok_iff.mp hrun
  have hnames := Function.namesKept_request hrun
  have hnamed : ∀ l ∈ (Request.setOperands i operands).lookups, s.function.Has l := by
    intro l hl
    rcases List.mem_cons.mp hl with rfl | hl
    · exact hi
    · obtain ⟨v, hv, rfl⟩ := List.mem_map.mp hl
      obtain ⟨y, hy, hyv⟩ := List.mem_filterMap.mp hv
      have hbears := forall_of_forall₂ (P := fun y => ∀ v, y.value? = some v →
        s.function.Has (.value v)) (fun x y hxy v hv => by
          cases x <;> cases y <;> simp_all [Function.Bears, Operand.value?]
          exact (s.function.has_value).mp (Function.has_value_of_name hxy)) hops
      exact hbears y hy v hyv
  have hget : ∀ j, g.inst? j =
      if i = j then (s.function.inst? j).map ({ · with operands }) else s.function.inst? j := by
    intro j
    rw [hgeq]
    exact Arena.get?_modify ..
  refine ⟨hs.request (.setOperands i operands) hnamed (by simp) hrun, ⟨hnames, ?_, ?_, ?_, ?_⟩,
    fun j hj => ?_, operands, hops.imp fun x y => Function.Bears.mono hnames, ?_⟩
  · rw [hgeq]; rfl
  · rw [hgeq]; rfl
  · rw [hgeq]; exact fun _ => rfl
  · rw [hgeq]; exact fun _ => rfl
  · exact (hget j).trans (if_neg (Ne.symm hj))
  · exact (hget i).trans (if_pos rfl)

theorem addAllOperands_eq_ok {is : List (InstId × Source.Inst)} {u : Unit} (hs : s.Sound)
    (hn : (is.map (·.1)).Nodup) (ho : Outlined s.function is)
    (h : (is.forM fun (i, inst) => addOperands i inst) s = .ok (u, t)) :
    t.Sound ∧ Fills s.function t.function ∧
      (∀ j ∉ is.map (·.1), t.function.inst? j = s.function.inst? j) ∧
      ∀ p ∈ is, t.function.SpellsInst p.2 p.1 := by
  induction is generalizing s with
  | nil =>
    obtain ⟨-, rfl⟩ := Prod.mk.inj (pure_eq_ok.mp h)
    exact ⟨hs, .refl _, fun _ _ => rfl, by simp⟩
  | cons p is ih =>
    obtain ⟨i, written⟩ := p
    change (addOperands i written >>= fun _ => is.forM fun (i, inst) => addOperands i inst) s = _ at h
    obtain ⟨_, s', hone, hrest⟩ := bind_eq_ok.mp h
    obtain ⟨hi, hn⟩ := List.nodup_cons.mp hn
    obtain ⟨hs', hfill, hother, operands, hops, hset⟩ := addOperands_eq_ok hs hone
    have ho' : Outlined s'.function is := fun q hq => by
      obtain ⟨d, hd⟩ := ho q (List.mem_cons_of_mem _ hq)
      have hne : q.1 ≠ i := fun he => hi (List.mem_map.mpr ⟨q, hq, he⟩)
      exact ⟨d, hd.mono hfill.names ((hother _ hne).trans hd.inst) (hfill.results _)⟩
    obtain ⟨ht, hfill', hother', hall⟩ := ih hs' hn ho' hrest
    refine ⟨ht, hfill.trans hfill', fun j hj => ?_, List.forall_mem_cons.mpr ⟨?_, hall⟩⟩
    · simp only [List.map_cons, List.mem_cons, not_or] at hj
      rw [hother' j hj.2, hother j hj.1]
    · obtain ⟨d, hd⟩ := ho (i, written) List.mem_cons_self
      have hinst : t.function.inst? i = some { d with operands } := by
        rw [hother' i hi, hset, hd.inst]
        rfl
      exact ⟨_, hd.mono (hfill.trans hfill').names hinst ((hfill.trans hfill').results i),
        hops.imp fun x y => Function.Bears.mono hfill'.names⟩

end Build

/-! ## The whole construction -/

namespace Source

theorem flatMap_of_forall₂ {α β γ : Type} {R : α → List β → Prop} {g : α → List γ} {k : β → γ}
    (hR : ∀ a bs, R a bs → g a = bs.map k) {as : List α} {bss : List (List β)}
    (h : List.Forall₂ R as bss) : as.flatMap g = bss.flatten.map k := by
  induction h with
  | nil => rfl
  | cons h _ ih => rw [List.flatMap_cons, List.flatten_cons, List.map_append, hR _ _ h, ih]

/-- Before the last pass the instructions stand in the order in which they were added. -/
theorem attached_of_forall₂ {f : SsaPrune.Function} {bs : List (BlockId × Block)}
    {iss : List (List (InstId × Inst))} (hlayout : f.layout = bs.map (·.1))
    (hlists : List.Forall₂ (fun p is => f.instsOf p.1 = is.map (·.1)) bs iss) :
    f.attached = iss.flatten.map (·.1) := by
  rw [SsaPrune.Function.attached, hlayout, List.flatMap_map]
  exact flatMap_of_forall₂ (fun p is hp => hp) hlists

namespace Function

variable {source : Function} {f : SsaPrune.Function}

/-- The four passes over a source tree, with the scopes between them. -/
structure Passes (source : Function) (bs : List (BlockId × Block)) (iss : List (List (InstId × Inst)))
    (s₁ s₂ s₃ t : Scope) : Prop where
  params : source.params.forM (Build.addParam source.start) ⟨.empty source.name, [], []⟩ = .ok ((), s₁)
  blocks : (source.blocks.mapM fun block => return (← Build.addBlock block, block)) s₁ = .ok (bs, s₂)
  insts : (bs.mapM fun (p : BlockId × Block) => p.2.insts.mapM fun inst =>
    return (← Build.addInst p.1 inst, inst) : Build _) s₂ = .ok (iss, s₃)
  operands : (iss.flatten.forM fun (i, inst) => Build.addOperands i inst) s₃ = .ok ((), t)

theorem resolve_eq_ok_iff : source.resolve = .ok f ↔
    ∃ u t, Build.addFunction source ⟨.empty source.name, [], []⟩ = .ok (u, t) ∧ t.function = f := by
  unfold resolve
  cases hadd : Build.addFunction source ⟨.empty source.name, [], []⟩ with
  | error e =>
    simp only [reduceCtorEq, false_and, exists_false, iff_false]
    exact fun h => by cases h
  | ok r =>
    constructor
    · intro h
      exact ⟨r.1, r.2, rfl, Except.ok.inj h⟩
    · rintro ⟨u, t, ht, rfl⟩
      obtain rfl := Except.ok.inj ht
      rfl

theorem exists_passes (h : source.resolve = .ok f) :
    ∃ bs iss s₁ s₂ s₃ t, source.Passes bs iss s₁ s₂ s₃ t ∧ t.function = f := by
  obtain ⟨u, t, hadd, rfl⟩ := resolve_eq_ok_iff.mp h
  unfold Build.addFunction at hadd
  obtain ⟨_, s₁, hparams, h₁⟩ := Build.bind_eq_ok.mp hadd
  obtain ⟨bs, s₂, hblocks, h₂⟩ := Build.bind_eq_ok.mp h₁
  obtain ⟨iss, s₃, hinsts, h₃⟩ := Build.bind_eq_ok.mp h₂
  exact ⟨bs, iss, s₁, s₂, s₃, t, ⟨hparams, hblocks, hinsts, h₃⟩, rfl⟩

namespace Passes

variable {bs : List (BlockId × Block)} {iss : List (List (InstId × Inst))} {s₁ s₂ s₃ t : Scope}

/-- After the blocks were added, the layout is made of them, and they are empty. -/
theorem blocksAdded (h : source.Passes bs iss s₁ s₂ s₃ t) :
    s₂.Sound ∧ s₂.function.layout = bs.map (·.1) ∧ ∀ c, s₂.function.instsOf c = [] := by
  obtain ⟨hs₁, -, -, hb₁, hl₁⟩ := Build.addParams_eq_ok (Scope.sound_empty source.name) h.params
  obtain ⟨hs₂, -, -, hl₂, -, -, hi₂⟩ := Build.addBlocks_eq_ok hs₁ h.blocks
  refine ⟨hs₂, ?_, fun c => ?_⟩
  · rw [hl₂, hl₁]
    rfl
  · rw [hi₂, SsaPrune.Function.instsOf, SsaPrune.Function.block?, hb₁]
    rfl

/-- After the instructions were added, the blocks hold them in order. -/
theorem instsAdded (h : source.Passes bs iss s₁ s₂ s₃ t) :
    s₃.Sound ∧ Build.Extends s₂.function s₃.function ∧ Build.Outlined s₃.function iss.flatten ∧
      List.Forall₂ (fun p is => is.map (·.2) = p.2.insts ∧ s₃.function.instsOf p.1 = is.map (·.1))
        bs iss := by
  obtain ⟨hs₁, -⟩ := Build.addParams_eq_ok (Scope.sound_empty source.name) h.params
  obtain ⟨-, -, -, -, -, hlabels, -⟩ := Build.addBlocks_eq_ok hs₁ h.blocks
  obtain ⟨hs₂, hlayout, hempty⟩ := h.blocksAdded
  obtain ⟨hs₃, hext, hout, -, hlists⟩ := Build.addAllInsts_eq_ok hs₂
    (fun p hp => SsaPrune.Function.has_block_of_label (hlabels p hp))
    (hlayout ▸ hs₂.composed.built.coherent.places.nodup_layout) h.insts
  refine ⟨hs₃, hext, hout, hlists.imp fun p is hp => ⟨hp.1, ?_⟩⟩
  rw [hp.2, hempty, List.nil_append]

theorem attached (h : source.Passes bs iss s₁ s₂ s₃ t) :
    s₃.function.attached = iss.flatten.map (·.1) := by
  obtain ⟨-, hlayout, -⟩ := h.blocksAdded
  obtain ⟨-, hext, -, hlists⟩ := h.instsAdded
  exact attached_of_forall₂ (hext.layout.trans hlayout) (hlists.imp fun p is hp => hp.2)

theorem nodup (h : source.Passes bs iss s₁ s₂ s₃ t) : (iss.flatten.map (·.1)).Nodup := by
  obtain ⟨hs₃, -⟩ := h.instsAdded
  exact h.attached ▸ hs₃.composed.built.coherent.places.nodup_attached

theorem operandsAdded (h : source.Passes bs iss s₁ s₂ s₃ t) :
    t.Sound ∧ Build.Fills s₃.function t.function ∧
      ∀ p ∈ iss.flatten, t.function.SpellsInst p.2 p.1 := by
  obtain ⟨hs₃, -, hout, -⟩ := h.instsAdded
  obtain ⟨ht, hfill, -, hspells⟩ := Build.addAllOperands_eq_ok hs₃ h.nodup hout h.operands
  exact ⟨ht, hfill, hspells⟩

end Passes

/-- **A function that is put together spells its source tree**, and it is composed. -/
theorem spells_of_resolve (h : source.resolve = .ok f) : f.Composed ∧ f.Spells source := by
  obtain ⟨bs, iss, s₁, s₂, s₃, t, hpasses, rfl⟩ := exists_passes h
  obtain ⟨hs₁, hn₁, ⟨vs, hvs, hnames⟩, -, -⟩ :=
    Build.addParams_eq_ok (Scope.sound_empty source.name) hpasses.params
  obtain ⟨-, hn₂, hp₂, -, hmap, hlabels, -⟩ := Build.addBlocks_eq_ok hs₁ hpasses.blocks
  obtain ⟨-, hlayout, -⟩ := hpasses.blocksAdded
  obtain ⟨-, hext, -, hlists⟩ := hpasses.instsAdded
  obtain ⟨ht, hfill, hspells⟩ := hpasses.operandsAdded
  have hnames₃ := hext.names.trans hfill.names
  refine ⟨ht.composed, ⟨?_, ?_, ?_⟩⟩
  · exact (hn₁.trans (hn₂.trans hnames₃)).name
  · have hparams' : t.function.params = vs := by
      rw [hfill.params, hext.params, hp₂, hvs]
      rfl
    rw [hparams']
    exact hnames.imp fun n v => (hn₂.trans hnames₃).value v n
  · have hlayout' : t.function.layout = bs.map (·.1) := by
      rw [hfill.layout, hext.layout, hlayout]
    rw [hlayout', ← hmap, List.forall₂_map_left_iff, List.forall₂_map_right_iff,
      List.forall₂_same]
    intro p hp
    obtain ⟨is, his, hsnd, hlist⟩ := exists_mem_of_forall₂ hlists hp
    refine ⟨hnames₃.label _ _ (hlabels p hp), ?_⟩
    rw [hfill.instsOf, hlist, ← hsnd, List.forall₂_map_left_iff, List.forall₂_map_right_iff,
      List.forall₂_same]
    exact fun q hq => hspells q (List.mem_flatten.mpr ⟨is, his, hq⟩)

end Function

end Source

end SsaPrune
