import SsaPrune.Proofs.Function.UseOrder
import SsaPrune.Proofs.Text.Parts

/-!
# Names lead to what was declared under them

A text that keeps the grammar is read exactly when its names are in order: the functions have different
names and each is declared. `Resolves source f` says what the function that comes out has to do with its
source tree: there is one entity for each declaration, what is named somewhere is what was declared under
that name, and the lists of uses follow the text. The two are put together in `parseModule_exact`.

The order of the uses is the one thing that has to be followed through the passes. Before the last pass
nothing is used (`Function.Idle`), and the last one goes through the instructions as the text does.
-/

namespace SsaPrune

/-! ## Functions in which nothing is used -/

namespace Function

variable {f g : Function} {is : List InstId} {i : InstId} {v : ValueId}

/-- No instruction has operands, and no use is listed. -/
structure Idle (f : Function) : Prop where
  operands : ∀ i, f.operands i = []
  uses : f.UsesInOrder []

theorem idle_empty (name : String) : (empty name).Idle := ⟨fun _ => rfl, usesInOrder_empty name⟩

/-- A use is listed only of an instruction with operands. -/
theorem Idle.of_operands (h : f.UsesInOrder is) (ho : ∀ i, f.operands i = []) : f.Idle := by
  refine ⟨ho, fun v => ?_⟩
  rw [h v]
  refine List.flatMap_eq_nil_iff.mpr fun i _ => ?_
  rw [usesBy, ho]
  rfl

/-- Nothing is used until some instruction gets operands. -/
theorem Idle.request {r : Request} (h : f.Idle) (hg : r.run f = .ok () g)
    (hcreate : ∀ d, r = .create d → d.operands = []) (hset : ∀ i os, r ≠ .setOperands i os) :
    g.Idle := by
  refine .of_operands (h.uses.request hg) ?_
  have hl := Request.run_eq_ok_iff.mp hg
  cases r with
  | addParam name | addBlock label =>
    subst hl
    exact h.operands
  | create d =>
    obtain ⟨-, rfl⟩ := hl
    intro i
    refine (operands_push d).trans ?_
    rw [hcreate d rfl, h.operands, ite_self]
  | defineResult i name =>
    obtain ⟨-, rfl⟩ := hl
    exact h.operands
  | setOperands i os => exact absurd rfl (hset i os)
  | append b i =>
    obtain ⟨-, -, -, rfl⟩ := hl
    exact fun j => (operands_withParent _).trans (h.operands j)
  | insertBefore anchor i =>
    obtain ⟨-, -, b, -, -, rfl⟩ := hl
    exact fun j => (operands_withParent _).trans (h.operands j)
  | detach i =>
    obtain ⟨-, -, rfl⟩ | ⟨b, -, -, rfl⟩ := hl
    · exact h.operands
    · exact fun j => (operands_withParent _).trans (h.operands j)

end Function

/-! ## The passes before the last one -/

namespace Build

variable {α β : Type} {m : Build α} {s t : Scope} {start : List Char}

/-- The step uses nothing. -/
def KeepsIdle (m : Build α) : Prop :=
  ∀ s a t, s.function.Idle → m s = .ok (a, t) → t.function.Idle

theorem keepsIdle_pure (a : α) : KeepsIdle (pure a : Build α) := fun s b t hs h => by
  obtain ⟨-, rfl⟩ := Prod.mk.inj (pure_eq_ok.mp h)
  exact hs

theorem KeepsIdle.bind {k : α → Build β} (h : KeepsIdle m) (hk : ∀ a, KeepsIdle (k a)) :
    KeepsIdle (m >>= k) := fun s b u hs hb => by
  obtain ⟨a, t, ha, hka⟩ := bind_eq_ok.mp hb
  exact hk a t b u (h s a t hs ha) hka

theorem KeepsIdle.mapM {k : α → Build β} (hk : ∀ x, KeepsIdle (k x)) (xs : List α) :
    KeepsIdle (xs.mapM k) := by
  induction xs with
  | nil => exact keepsIdle_pure []
  | cons x xs ih =>
    rw [List.mapM_cons]
    exact (hk x).bind fun y => ih.bind fun ys => keepsIdle_pure _

theorem KeepsIdle.forM {k : α → Build PUnit} (hk : ∀ x, KeepsIdle (k x)) (xs : List α) :
    KeepsIdle (xs.forM k) := by
  induction xs with
  | nil => exact keepsIdle_pure _
  | cons x xs ih => exact (hk x).bind fun _ => ih

theorem keepsIdle_addParam (name : String) : KeepsIdle (addParam start name) := fun s u t hs h => by
  obtain ⟨-, g, hg, heq⟩ := addParam_eq_ok_iff.mp h
  obtain ⟨-, rfl⟩ := Prod.mk.inj heq
  exact hs.request hg (by simp) (by simp)

theorem keepsIdle_addBlock (block : Source.Block) : KeepsIdle (addBlock block) := fun s b t hs h => by
  obtain ⟨-, g, hg, heq⟩ := addBlock_eq_ok_iff.mp h
  obtain ⟨-, rfl⟩ := Prod.mk.inj heq
  exact hs.request hg (by simp) (by simp)

theorem keepsIdle_addInst (b : BlockId) (inst : Source.Inst) : KeepsIdle (addInst b inst) := by
  intro s i t hs h
  obtain ⟨d, g₁, g₂, g, hd, -, ⟨hcreate, hdefine, happend⟩, rfl, rfl⟩ := addInst_eq_ok_iff.mp h
  have h₁ : g₁.Idle := hs.request hcreate (by rintro d ⟨⟩; exact hd.operands) (by simp)
  have h₂ : g₂.Idle := by
    cases hname : inst.result with
    | none =>
      rw [hname] at hdefine
      exact run_resultRequests_none.mp hdefine ▸ h₁
    | some name =>
      rw [hname] at hdefine
      exact h₁.request (run_resultRequests_some.mp hdefine) (by simp) (by simp)
  exact h₂.request happend (by simp) (by simp)

/-! ## The last pass -/

/-- The last pass goes through the instructions in order. -/
theorem usesInOrder_addOperands {done : List InstId} {is : List (InstId × Source.Inst)} {u : Unit}
    (hs : s.function.UsesInOrder done) (hn : (done ++ is.map (·.1)).Nodup)
    (h : (is.forM fun (i, inst) => addOperands i inst) s = .ok (u, t)) :
    t.function.UsesInOrder (done ++ is.map (·.1)) := by
  induction is generalizing s done with
  | nil =>
    obtain ⟨-, rfl⟩ := Prod.mk.inj (pure_eq_ok.mp h)
    simpa using hs
  | cons p is ih =>
    obtain ⟨i, inst⟩ := p
    change (addOperands i inst >>= fun _ => is.forM fun (i, inst) => addOperands i inst) s = _ at h
    obtain ⟨_, s', hone, hrest⟩ := bind_eq_ok.mp h
    obtain ⟨operands, g, -, hg, heq⟩ := addOperands_eq_ok_iff.mp hone
    obtain ⟨-, rfl⟩ := Prod.mk.inj heq
    have hi : i ∉ done := fun hmem => (List.nodup_append.mp hn).2.2 i hmem i (by simp) rfl
    have hone : g.UsesInOrder (done ++ [i]) := by
      have hnote := hs.request hg
      have hkept : done.filter (· ≠ i) = done :=
        List.filter_eq_self.mpr fun j hj => by simpa using ne_of_mem_of_not_mem hj hi
      rw [Request.useCall?, if_pos (Request.run_eq_ok_iff.mp hg).1] at hnote
      rwa [Option.elim_some, UseCall.note, hkept] at hnote
    rw [List.map_cons, List.append_cons] at hn ⊢
    exact ih hone hn hrest

end Build

namespace Source

/-- **The uses in a function that is put together are listed in the order of its instructions.** -/
theorem Function.usesInOrder_of_resolve {source : Function} {f : SsaPrune.Function}
    (h : source.resolve = .ok f) : f.UsesInOrder f.attached := by
  obtain ⟨bs, iss, s₁, s₂, s₃, t, hpasses, rfl⟩ := exists_passes h
  have hidle₁ := Build.KeepsIdle.forM Build.keepsIdle_addParam _ _ _ _
    (SsaPrune.Function.idle_empty source.name) hpasses.params
  have hidle₂ := Build.KeepsIdle.mapM (fun block => (Build.keepsIdle_addBlock block).bind fun b =>
    Build.keepsIdle_pure (b, block)) _ _ _ _ hidle₁ hpasses.blocks
  have hidle₃ := Build.KeepsIdle.mapM (fun p : BlockId × Block => Build.KeepsIdle.mapM (fun inst =>
    (Build.keepsIdle_addInst p.1 inst).bind fun i => Build.keepsIdle_pure (i, inst)) p.2.insts)
    _ _ _ _ hidle₂ hpasses.insts
  obtain ⟨-, hfill, -⟩ := hpasses.operandsAdded
  have hsame : t.function.attached = s₃.function.attached := by
    rw [SsaPrune.Function.attached, hfill.layout]
    exact List.flatMap_congr fun b _ => hfill.instsOf b
  rw [hsame, hpasses.attached]
  exact Build.usesInOrder_addOperands hidle₃.uses (by simpa using hpasses.nodup) hpasses.operands

/-! ## What the tree says about a name -/

/-- Where an instruction has the name among its operands. -/
def Inst.positions (inst : Inst) (n : String) : List Nat :=
  (inst.arguments.operands.zipIdx.filter (·.1 = .name n)).map (·.2)

/-- The uses of a name in textual order; the instructions of the tree are those of `is`. -/
def Function.uses (source : Function) (is : List InstId) (n : String) : List Use :=
  (source.insts.zip is).flatMap fun p => (p.1.positions n).map (Use.mk p.2)

end Source

namespace Function

variable {f : Function} {source : Source.Function} {v : ValueId} {n : String}

/-- Operands that bear their written names have a value where its name is written. -/
theorem positions_eq (hinj : ∀ w m, f.valueName? w = some m → (m = n ↔ w = v))
    {xs : List Source.Operand} {ys : List Operand} (h : List.Forall₂ f.Bears xs ys) (k : Nat) :
    ((xs.zipIdx k).filter (·.1 = .name n)).map (·.2) =
      (((ys.zipIdx k).filterMap fun (y, m) => y.value?.map (·, m)).filter (·.1 = v)).map (·.2) := by
  induction h generalizing k with
  | nil => rfl
  | @cons x y xs ys hxy _ ih =>
    rw [List.zipIdx_cons, List.zipIdx_cons]
    cases x with
    | imm c =>
      cases y with
      | imm => simpa [Operand.value?] using ih (k + 1)
      | value w => exact hxy.elim
    | name m =>
      cases y with
      | imm => exact hxy.elim
      | value w =>
        have hiff := hinj w m hxy
        by_cases hw : w = v
        · simpa [Operand.value?, hw, hiff.mpr hw] using ih (k + 1)
        · simpa [Operand.value?, hw, mt hiff.mp hw] using ih (k + 1)

theorem SpellsInst.usesBy (hinj : ∀ w m, f.valueName? w = some m → (m = n ↔ w = v))
    {inst : Source.Inst} {i : InstId} (h : f.SpellsInst inst i) :
    f.usesBy i v = (inst.positions n).map (Use.mk i) := by
  obtain ⟨d, ho, hx⟩ := h
  rw [Source.Inst.positions, positions_eq hinj hx, Function.usesBy, operands_of_inst? ho.inst,
    positionedValues, List.map_map]
  rfl

theorem flatMap_eq_of_forall₂ {α β γ : Type} {R : α → β → Prop} {k : β → List γ}
    {l : α → β → List γ} (hR : ∀ a b, R a b → k b = l a b) {as : List α} {bs : List β}
    (h : List.Forall₂ R as bs) : bs.flatMap k = (as.zip bs).flatMap fun p => l p.1 p.2 := by
  induction h with
  | nil => rfl
  | cons hab _ ih => rw [List.flatMap_cons, List.zip_cons_cons, List.flatMap_cons, hR _ _ hab, ih]

/-! ## What a tree and its function have in common -/

/-- The function is what the text of the tree describes, name by name. -/
structure Resolves (source : Source.Function) (f : Function) : Prop where
  /-- Parameters, blocks and instructions are those of the tree in its order, and what they name bears
  the name that is written there. -/
  spells : f.Spells source
  /-- No two values and no two blocks share a name, and every instruction is in a block. -/
  named : f.Named
  /-- The value of a name is the one that was declared under it. -/
  value_iff : ∀ v n, f.valueName? v = some n ↔
    ∃ k : Nat, source.valueNames[k]? = some n ∧ f.declaredValues[k]? = some v
  /-- The block of a label is the one that was declared under it. -/
  label_iff : ∀ b l, f.blockLabel? b = some l ↔
    ∃ k : Nat, source.labels[k]? = some l ∧ f.layout[k]? = some b
  nodup_attached : f.attached.Nodup
  parent_iff : ∀ i b, f.parent? i = some b ↔ i ∈ f.instsOf b
  phiBlocks : ∀ i d, f.inst? i = some d →
    d.phiBlocks.length = if d.opcode.isPhi then d.operands.length else 0
  uses : ∀ v n, f.valueName? v = some n → f.usesOf v = source.uses f.attached n

/-- Two lists that a relation connects are connected position by position. -/
theorem exists_getElem?_of_forall₂ {α β : Type} {R : α → β → Prop} {as : List α} {bs : List β}
    (h : List.Forall₂ R as bs) {k : Nat} {b : β} (hb : bs[k]? = some b) :
    ∃ a, as[k]? = some a ∧ R a b := by
  induction h generalizing k with
  | nil => cases hb
  | cons hab _ ih =>
    cases k with
    | zero =>
      obtain rfl := Option.some.inj hb
      exact ⟨_, rfl, hab⟩
    | succ k => exact ih hb

/-- What has a name is what was declared under it, if all that has a name was declared. -/
theorem name_iff_of_forall₂ {α : Type} {name? : α → Option String} {names : List String}
    {declared : List α} (h : List.Forall₂ (fun n a => name? a = some n) names declared)
    (hall : ∀ a n, name? a = some n → a ∈ declared) (a : α) (n : String) :
    name? a = some n ↔ ∃ k : Nat, names[k]? = some n ∧ declared[k]? = some a := by
  constructor
  · intro hn
    obtain ⟨k, hk⟩ := List.mem_iff_getElem?.mp (hall a n hn)
    obtain ⟨m, hm, hname⟩ := exists_getElem?_of_forall₂ h hk
    obtain rfl := Option.some.inj (hn.symm.trans hname)
    exact ⟨k, hm, hk⟩
  · rintro ⟨k, hn, ha⟩
    obtain ⟨m, hm, hname⟩ := exists_getElem?_of_forall₂ h ha
    obtain rfl := Option.some.inj (hn.symm.trans hm)
    exact hname

theorem SpellsInst.length_phiBlocks {inst : Source.Inst} {i : InstId} {d : Instruction}
    (h : f.SpellsInst inst i) (hw : inst.WellFormed) (hd : f.inst? i = some d) :
    d.phiBlocks.length = if d.opcode.isPhi then d.operands.length else 0 := by
  obtain ⟨e, ho, hx⟩ := h
  obtain rfl := Option.some.inj (ho.inst.symm.trans hd)
  have hphi : e.opcode.isPhi = inst.arguments.isIncoming := by
    rw [hw.isIncoming, ← ho.opcode, Opcode.isPhi, decide_eq_decide, Opcode.name_inj]
  rw [← ho.phiBlocks.length_eq, ← hx.length_eq, hphi]
  cases inst.arguments with
  | plain operands successors => rfl
  | incoming pairs => simp [Source.Arguments.incomingLabels, Source.Arguments.operands,
      Source.Arguments.isIncoming]

/-- **A function that is put together is what the text of its tree describes.** -/
theorem resolves_of_resolve (hw : source.WellFormed) (h : source.resolve = .ok f) :
    Resolves source f := by
  obtain ⟨hcomposed, hspells⟩ := Source.Function.spells_of_resolve h
  have hcoherent := hcomposed.built.coherent
  have hp := hcoherent.places
  have hnamed := Source.Function.named_of_resolve h
  have hattached : ∀ i, f.Has (.inst i) → f.isAttached i = true := fun i hi =>
    hp.isAttached_iff.mpr (hnamed.placed i hi)
  refine ⟨hspells, hnamed, name_iff_of_forall₂ hspells.forall₂_valueNames fun v n hn => ?_,
    name_iff_of_forall₂ hspells.forall₂_labels fun b l hl => ?_, hp.nodup_attached, hp.parent_iff,
    fun i d hd => ?_, fun v n hn => ?_⟩
  · refine (mem_declaredValues_iff hcoherent).mpr ⟨has_value_of_name hn, ?_⟩
    exact isDangling_eq_false_iff.mpr fun i hi => hattached i (hcomposed.closed.definition v i hi)
  · exact hp.mem_layout_iff.mpr (has_block_of_label hl)
  · have hi := hnamed.placed i (has_inst_iff.mpr ⟨d, hd⟩)
    obtain ⟨inst, hinst, hone⟩ := exists_mem_of_forall₂ hspells.forall₂_insts.flip hi
    obtain ⟨block, hblock, hmem⟩ := List.mem_flatMap.mp hinst
    exact SpellsInst.length_phiBlocks hone ((hw.blocks block hblock).insts inst hmem) hd
  · have hinj : ∀ w m, f.valueName? w = some m → (m = n ↔ w = v) := by
      intro w m hm
      constructor
      · rintro rfl
        exact hnamed.value_inj w v m hm hn
      · rintro rfl
        exact Option.some.inj (hm.symm.trans hn)
    rw [Source.Function.usesInOrder_of_resolve h v]
    exact flatMap_eq_of_forall₂ (fun inst i hi => hi.usesBy hinj) hspells.forall₂_insts

end Function

/-- **Names are resolved exactly.**

A text that keeps the grammar is read just when its functions have different names and each of them is
declared: its values have different names and so have its blocks, every opcode is known, and each name
that is used is given somewhere in the function. Each function then is what its own text describes. -/
theorem parseModule_exact {text : String} {sources : List Source.Function} {rest : List Char}
    (h : Source.readModule text.toList = .ok sources rest) :
    ((∃ fs, parseModule text = .ok fs) ↔
      (sources.map (·.name)).Nodup ∧ ∀ source ∈ sources, source.Declared) ∧
    ∀ fs, parseModule text = .ok fs → List.Forall₂ Function.Resolves sources fs := by
  have hparse : ∀ fs, parseModule text = .ok fs ↔ Source.resolveAll [] sources = .ok fs := by
    intro fs
    simp [parseModule_eq_ok, h]
  refine ⟨?_, fun fs hfs => ?_⟩
  · simp only [hparse, Source.resolveAll_isOk_iff]
    simp
  · have hresolve := Source.forall₂_resolve_of_resolveAll ((hparse fs).mp hfs)
    have hw := Source.wellFormed_of_readModule h
    refine ((List.forall₂_and_left _ _).mpr ⟨hw, hresolve⟩).imp fun source f hf => ?_
    exact Function.resolves_of_resolve hf.1 hf.2

/-- Two functions with names in common, in which a value and a block are used before they are given and
a name stands for a value and for a block. -/
def forward : String :=
  "func @f(%n) \x7b\n ^a:\n br [^j]\n ^j:\n %i = phi [%n, ^a], [%j, ^j]\n" ++
    " %j = add %i, %n\n condbr %j [^j, ^c]\n ^c:\n ret %n\n\x7d\n" ++
    "func @g(%j) \x7b\n store %j, %j\n ret %j\n\x7d"

/-- It is read, and the parameter of each function is used where it is written. -/
theorem parseModule_exact_forward : ∃ sources rest fs,
    Source.readModule forward.toList = .ok sources rest ∧ parseModule forward = .ok fs ∧
    fs.map (fun f => f.params.map f.usesOf) =
      [[[⟨⟨1⟩, 0⟩, ⟨⟨2⟩, 1⟩, ⟨⟨4⟩, 0⟩]], [[⟨⟨0⟩, 0⟩, ⟨⟨0⟩, 1⟩, ⟨⟨1⟩, 0⟩]]] ∧
    ((∃ fs, parseModule forward = .ok fs) ↔
      (sources.map (·.name)).Nodup ∧ ∀ source ∈ sources, source.Declared) ∧
    ∀ fs, parseModule forward = .ok fs → List.Forall₂ Function.Resolves sources fs := by
  have hruns : (parseModule forward).toOption.any (fun fs => fs.map (fun f => f.params.map f.usesOf) =
      [[[⟨⟨1⟩, 0⟩, ⟨⟨2⟩, 1⟩, ⟨⟨4⟩, 0⟩]], [[⟨⟨0⟩, 0⟩, ⟨⟨0⟩, 1⟩, ⟨⟨1⟩, 0⟩]]]) = true := by
    decide +kernel
  obtain ⟨fs, hfs, huses⟩ := Run.exists_eq_ok_and hruns
  obtain ⟨sources, rest, hread, -⟩ := parseModule_eq_ok.mp hfs
  exact ⟨sources, rest, fs, hread, hfs, of_decide_eq_true huses, parseModule_exact hread⟩

end SsaPrune
