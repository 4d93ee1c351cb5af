import SsaPrune.Proofs.Text.Names

/-!
# When the steps of a construction succeed

The passes of a construction are of one kind. A step succeeds when some condition holds that no step
changes, and the names that it adds to a table are new (`Build.Declares`). Such steps compose, so a
pass over a list succeeds when the conditions of all steps hold and the names of all steps together are
distinct.
-/

namespace SsaPrune

/-! ## Steps that declare names -/

namespace Build

variable {α β : Type} {names : Scope → List String} {I : Scope → Prop} {m : Build α}
  {C C' : Prop} {ns ns' : List String}

/-- From a scope with `I` whose table has no name twice, the step succeeds exactly when `C` holds and
the names `ns` are new and distinct. It adds these names to the table, and keeps `I`. -/
structure Declares (names : Scope → List String) (I : Scope → Prop) (m : Build α) (C : Prop)
    (ns : List String) : Prop where
  isOk_iff : ∀ s, I s → (names s).Nodup → ((∃ r, m s = .ok r) ↔ C ∧ (ns ++ names s).Nodup)
  keeps : ∀ s a t, I s → m s = .ok (a, t) → I t ∧ (names t).Perm (ns ++ names s)

namespace Declares

theorem congr (h : Declares names I m C ns) (hC : C ↔ C') (hns : ns.Perm ns') :
    Declares names I m C' ns' where
  isOk_iff s hs hn := by
    rw [h.isOk_iff s hs hn, hC, (hns.append_right _).nodup_iff]
  keeps s a t hs ha := by
    obtain ⟨ht, hperm⟩ := h.keeps s a t hs ha
    exact ⟨ht, hperm.trans (hns.append_right _)⟩

theorem pure (a : α) : Declares names I (Pure.pure a : Build α) True [] where
  isOk_iff s _ hn := by
    simp only [List.nil_append, hn, and_self, iff_true]
    exact ⟨_, rfl⟩
  keeps s b t hs hb := by
    obtain ⟨-, rfl⟩ := Prod.mk.inj (pure_eq_ok.mp hb)
    exact ⟨hs, .refl _⟩

theorem bind {k : α → Build β} (h : Declares names I m C ns)
    (hk : ∀ a, Declares names I (k a) C' ns') :
    Declares names I (m >>= k) (C ∧ C') (ns ++ ns') where
  isOk_iff s hs hn := by
    have hmove : ∀ t : Scope, (names t).Perm (ns ++ names s) →
        (ns' ++ names t).Perm (ns ++ ns' ++ names s) := fun t ht => by
      refine (ht.append_left ns').trans ?_
      rw [← List.append_assoc]
      exact List.perm_append_comm.append_right _
    constructor
    · rintro ⟨⟨b, u⟩, hb⟩
      obtain ⟨a, t, ha, hka⟩ := bind_eq_ok.mp hb
      obtain ⟨hC, hfirst⟩ := (h.isOk_iff s hs hn).mp ⟨_, ha⟩
      obtain ⟨ht, hperm⟩ := h.keeps s a t hs ha
      obtain ⟨hC', hsecond⟩ := ((hk a).isOk_iff t ht (hperm.nodup_iff.mpr hfirst)).mp ⟨_, hka⟩
      exact ⟨⟨hC, hC'⟩, (hmove t hperm).nodup_iff.mp hsecond⟩
    · rintro ⟨⟨hC, hC'⟩, hall⟩
      have hfirst : (ns ++ names s).Nodup :=
        hall.sublist ((List.sublist_append_left ns ns').append_right _)
      obtain ⟨⟨a, t⟩, ha⟩ := (h.isOk_iff s hs hn).mpr ⟨hC, hfirst⟩
      obtain ⟨ht, hperm⟩ := h.keeps s a t hs ha
      obtain ⟨⟨b, u⟩, hb⟩ := ((hk a).isOk_iff t ht (hperm.nodup_iff.mpr hfirst)).mpr
        ⟨hC', (hmove t hperm).nodup_iff.mpr hall⟩
      exact ⟨_, bind_eq_ok.mpr ⟨a, t, ha, hb⟩⟩
  keeps s b u hs hb := by
    obtain ⟨a, t, ha, hka⟩ := bind_eq_ok.mp hb
    obtain ⟨ht, hperm⟩ := h.keeps s a t hs ha
    obtain ⟨hu, hperm'⟩ := (hk a).keeps t b u ht hka
    refine ⟨hu, hperm'.trans ((hperm.append_left ns').trans ?_)⟩
    rw [← List.append_assoc]
    exact List.perm_append_comm.append_right _

section Lists

variable {x : α} {xs : List α} {cond : α → Prop} {given : α → List String}

theorem mapM {k : α → Build β} (hk : ∀ x ∈ xs, Declares names I (k x) (cond x) (given x)) :
    Declares names I (xs.mapM k) (∀ x ∈ xs, cond x) (xs.flatMap given) := by
  induction xs with
  | nil =>
    rw [List.mapM_nil]
    exact (pure _).congr (by simp) (.refl _)
  | cons x xs ih =>
    obtain ⟨hx, hxs⟩ := List.forall_mem_cons.mp hk
    rw [List.mapM_cons]
    refine (hx.bind fun y => (ih hxs).bind fun ys => pure _).congr ?_ ?_
    · simp
    · simp

theorem forM {k : α → Build PUnit} (hk : ∀ x ∈ xs, Declares names I (k x) (cond x) (given x)) :
    Declares names I (xs.forM k) (∀ x ∈ xs, cond x) (xs.flatMap given) := by
  induction xs with
  | nil => exact (pure _).congr (by simp) (.refl _)
  | cons x xs ih =>
    obtain ⟨hx, hxs⟩ := List.forall_mem_cons.mp hk
    refine (hx.bind fun _ => ih hxs).congr ?_ ?_
    · simp
    · simp

end Lists

end Declares

/-! ## Parameters and blocks -/

variable {s t : Scope} {start : List Char}

/-- What the passes that declare values keep: the labels and the blocks stay. -/
structure ValuePass (labels : List String) (bs : List BlockId) (s : Scope) : Prop where
  sound : s.Sound
  complete : s.Complete
  labels : s.labels = labels
  has : ∀ b ∈ bs, s.function.Has (.block b)

theorem nodup_singleton_append {n : String} {ns : List String} (h : ns.Nodup) :
    ([n] ++ ns).Nodup ↔ n ∉ ns := by
  rw [List.singleton_append, List.nodup_cons]
  exact and_iff_left h

theorem declares_addParam (labels : List String) (bs : List BlockId) (name : String) :
    Declares Scope.valueNames (ValuePass labels bs) (addParam start name) True [name] where
  isOk_iff s _ hn := by
    rw [nodup_singleton_append hn, true_and]
    constructor
    · rintro ⟨r, hr⟩
      exact (addParam_eq_ok_iff.mp hr).1
    · exact fun hnew => ⟨_, addParam_eq_ok_iff.mpr ⟨hnew, _, rfl, rfl⟩⟩
  keeps s u t hs h := by
    obtain ⟨hnew, g, hg, heq⟩ := addParam_eq_ok_iff.mp h
    obtain ⟨-, rfl⟩ := Prod.mk.inj heq
    have hsound := (addParam_eq_ok hs.sound h).1
    have hname : g.valueName? s.function.values.next = some name := by
      obtain rfl := Request.run_eq_ok_iff.mp hg
      exact Function.valueName?_next (f := s.function) _
    refine ⟨⟨hsound, ⟨?_, ?_, fun i hi => ?_⟩, hs.labels, fun b hb => (hs.has b hb).request hg⟩,
      .refl _⟩
    · exact hs.complete.values.declare hg rfl hname (lookup_eq_none_iff_notMem.mpr hnew)
    · exact hs.complete.blocks.request hg (by simp [Request.adds])
    · rw [Function.isAttached_request hg]
      exact hs.complete.placed i ((Function.has_request hg hi).resolve_right (by simp [Request.adds]))

/-- What the pass that declares blocks keeps. -/
structure BlockPass (valueNames : List String) (s : Scope) : Prop where
  sound : s.Sound
  complete : s.Complete
  valueNames : s.valueNames = valueNames

theorem declares_addBlock (valueNames : List String) (block : Source.Block) :
    Declares Scope.labels (BlockPass valueNames) (addBlock block) True [block.label] where
  isOk_iff s _ hn := by
    rw [nodup_singleton_append hn, true_and]
    constructor
    · rintro ⟨r, hr⟩
      exact (addBlock_eq_ok_iff.mp hr).1
    · exact fun hnew => ⟨_, addBlock_eq_ok_iff.mpr ⟨hnew, _, rfl, rfl⟩⟩
  keeps s b t hs h := by
    obtain ⟨hnew, g, hg, heq⟩ := addBlock_eq_ok_iff.mp h
    obtain ⟨-, rfl⟩ := Prod.mk.inj heq
    have hsound := (addBlock_eq_ok hs.sound h).1
    have hname : g.blockLabel? s.function.blocks.next = some block.label := by
      obtain rfl := Request.run_eq_ok_iff.mp hg
      exact Function.blockLabel?_next (f := s.function) _
    refine ⟨⟨hsound, ⟨?_, ?_, fun i hi => ?_⟩, hs.valueNames⟩, .refl _⟩
    · exact hs.complete.values.request hg (by simp [Request.adds])
    · exact hs.complete.blocks.declare hg rfl hname (lookup_eq_none_iff_notMem.mpr hnew)
    · rw [Function.isAttached_request hg]
      exact hs.complete.placed i ((Function.has_request hg hi).resolve_right (by simp [Request.adds]))

/-! ## Lookups -/

theorem exists_forall₂_iff {R : α → β → Prop} {xs : List α} :
    (∃ ys, List.Forall₂ R xs ys) ↔ ∀ x ∈ xs, ∃ y, R x y := by
  induction xs with
  | nil => simp
  | cons x xs ih =>
    rw [List.forall_mem_cons, ← ih]
    constructor
    · rintro ⟨_, h⟩
      cases h with
      | cons hxy hxs => exact ⟨⟨_, hxy⟩, _, hxs⟩
    · rintro ⟨⟨y, hxy⟩, ys, hxs⟩
      exact ⟨y :: ys, .cons hxy hxs⟩

theorem exists_lookup_iff {k : Kind} {table : List (String × Entity k)} {n : String} :
    (∃ e, table.lookup n = some e) ↔ n ∈ table.map (·.1) := by
  rw [← Option.ne_none_iff_exists', ne_eq, lookup_eq_none_iff_notMem, not_not]

/-! ## Instructions -/

theorem exists_resultRequests {f : Function} {i : InstId} (h : f.result? i = none)
    (result : Option String) : ∃ g, (resultRequests i result).forM Request.run f = .ok () g ∧
      g.insts = f.insts ∧ g.blocks = f.blocks := by
  cases result with
  | none => exact ⟨f, rfl, rfl, rfl⟩
  | some n =>
    obtain ⟨g, hg⟩ : ∃ g, (Request.defineResult i (some n)).Leads f g := ⟨_, h, rfl⟩
    refine ⟨g, run_resultRequests_some.mpr (Request.run_eq_ok_iff.mpr hg), ?_, ?_⟩ <;>
      rw [hg.2]

/-- An instruction without a place can be added to a block that exists. -/
theorem exists_inserts {f : Function} (h : f.Composed) {b : BlockId} (hb : f.Has (.block b))
    {d : Instruction} (hd : d.parent = none) (result : Option String) :
    ∃ g₁ g₂ g, Inserts b result d f g₁ g₂ g := by
  obtain ⟨g₁, hg₁⟩ : ∃ g, (Request.create d).Leads f g := ⟨_, hd, rfl⟩
  have hnew : g₁.inst? f.insts.next = some d := by
    rw [hg₁.2]
    exact (Arena.get?_push ..).trans (if_pos rfl)
  have hnone : g₁.result? f.insts.next = none := by
    rw [hg₁.2]
    exact h.closed.result?_next h.built.coherent.definitions
  obtain ⟨g₂, hg₂, hinsts, hblocks⟩ := exists_resultRequests hnone result
  have hnew₂ : g₂.inst? f.insts.next = some d := by
    rw [Function.inst?, hinsts]
    exact hnew
  have hb₂ : g₂.Has (.block b) := by
    rw [Function.has_block, hblocks, ← Function.has_block]
    exact hb.request (Request.run_eq_ok_iff.mpr hg₁)
  obtain ⟨g, hg⟩ : ∃ g, (Request.append b f.insts.next).Leads g₂ g :=
    ⟨_, Function.has_inst_iff.mpr ⟨d, hnew₂⟩, by simp [Function.parent?, hnew₂, hd], hb₂, rfl⟩
  exact ⟨g₁, g₂, g, Request.run_eq_ok_iff.mpr hg₁, hg₂, Request.run_eq_ok_iff.mpr hg⟩

/-- The tables of a complete scope stay complete when a result is declared. -/
theorem complete_resultRequests {i : InstId} {result : Option String} {g : Function}
    (h : s.function.ValuesIn s.values ∧ s.function.BlocksIn s.blocks)
    (hnew : ∀ n ∈ result, n ∉ s.valueNames)
    (hg : (resultRequests i result).forM Request.run s.function = .ok () g) :
    g.ValuesIn (declared s result s.function.values.next g).values ∧ g.BlocksIn s.blocks ∧
      (∀ b, s.function.Has (.block b) → g.Has (.block b)) ∧
      (∀ j, g.Has (.inst j) → s.function.Has (.inst j)) ∧
      ∀ j, g.isAttached j = s.function.isAttached j := by
  cases result with
  | none =>
    obtain rfl := run_resultRequests_none.mp hg
    exact ⟨h.1, h.2, fun _ => id, fun _ => id, fun _ => rfl⟩
  | some n =>
    have hk := run_resultRequests_some.mp hg
    have hname : g.valueName? s.function.values.next = some n := by
      obtain ⟨-, rfl⟩ := Request.run_eq_ok_iff.mp hk
      exact Function.valueName?_next (f := s.function) _
    refine ⟨h.1.declare hk rfl hname (lookup_eq_none_iff_notMem.mpr (hnew n rfl)),
      h.2.request hk (by simp [Request.adds]), fun b hb => hb.request hk, fun j hj => ?_, fun j => ?_⟩
    · exact (Function.has_request hk hj).resolve_right (by simp [Request.adds])
    · rw [Function.isAttached_request hk]

/-- The opcode of the instruction is known, and its labels are given. -/
def Fits (labels : List String) (inst : Source.Inst) : Prop :=
  (Opcode.ofName? inst.opcode).isSome = true ∧
    ∀ l ∈ inst.arguments.successors ++ inst.arguments.incomingLabels, l ∈ labels

theorem nodup_toList_append {result : Option String} {ns : List String} (h : ns.Nodup) :
    (result.toList ++ ns).Nodup ↔ ∀ n ∈ result, n ∉ ns := by
  cases result <;> simp [h]

theorem declares_addInst {labels : List String} {bs : List BlockId} {b : BlockId} (hb : b ∈ bs)
    (inst : Source.Inst) : Declares Scope.valueNames (ValuePass labels bs) (addInst b inst)
      (Fits labels inst) inst.result.toList where
  isOk_iff s hs hn := by
    have hlabel : ∀ l, (∃ c, s.blocks.lookup l = some c) ↔ l ∈ labels := fun l => by
      rw [exists_lookup_iff, ← hs.labels]
      rfl
    rw [nodup_toList_append hn, Fits]
    constructor
    · rintro ⟨⟨i, t⟩, hr⟩
      obtain ⟨d, g₁, g₂, g, hd, hnew, -⟩ := addInst_eq_ok_iff.mp hr
      refine ⟨⟨by rw [hd.opcode]; rfl, fun l hl => ?_⟩, hnew⟩
      exact (hlabel l).mp (hd.exists_lookup hl)
    · rintro ⟨⟨hopcode, hlabels⟩, hnew⟩
      obtain ⟨hsucc, hphi⟩ := List.forall_mem_append.mp hlabels
      obtain ⟨opcode, hopcode⟩ := Option.isSome_iff_exists.mp hopcode
      obtain ⟨successors, hsucc⟩ := exists_forall₂_iff.mpr fun l hl => (hlabel l).mpr (hsucc l hl)
      obtain ⟨phiBlocks, hphi⟩ := exists_forall₂_iff.mpr fun l hl => (hlabel l).mpr (hphi l hl)
      have hd : s.Drafts inst { opcode, successors, phiBlocks, callee := inst.callee } :=
        ⟨hopcode, hsucc, hphi, rfl, rfl, rfl⟩
      obtain ⟨g₁, g₂, g, hg⟩ := exists_inserts hs.sound.composed (hs.has b hb) hd.parent inst.result
      exact ⟨_, addInst_eq_ok_iff.mpr ⟨_, g₁, g₂, g, hd, hnew, hg, rfl, rfl⟩⟩
  keeps s i t hs h := by
    have hsound := (addInst_eq_ok hs.sound (hs.has b hb) h).1
    obtain ⟨d, g₁, g₂, g, -, hnew, ⟨hcreate, hresult, happend⟩, rfl, rfl⟩ := addInst_eq_ok_iff.mp h
    have hvalues : g₁.ValuesIn s.values := hs.complete.values.request hcreate (by simp [Request.adds])
    have hblocks : g₁.BlocksIn s.blocks := hs.complete.blocks.request hcreate (by simp [Request.adds])
    obtain ⟨hvalues, hblocks, hkeep, hold, hplace⟩ :=
      complete_resultRequests (s := { s with function := g₁ }) ⟨hvalues, hblocks⟩ hnew hresult
    refine ⟨⟨hsound, ⟨?_, ?_, fun j hj => ?_⟩, hs.labels, fun c hc => ?_⟩, ?_⟩
    · exact hvalues.request happend (by simp [Request.adds])
    · exact hblocks.request happend (by simp [Request.adds])
    · have hj₂ := (Function.has_request happend hj).resolve_right (by simp [Request.adds])
      change g.isAttached j = true
      rw [Function.isAttached_request happend, hplace, Function.isAttached_request hcreate]
      rcases Function.has_request hcreate (hold j hj₂) with hj | hj
      · simp [hs.complete.placed j hj]
      · simp [Lookup.inst.inj (Option.some.inj hj)]
    · exact (hkeep c ((hs.has c hc).request hcreate)).request happend
    · refine .of_eq ?_
      simp [Scope.valueNames, declared, Function.comp_def]

/-! ## Operands -/

/-- What the last pass keeps. -/
structure OperandPass (valueNames : List String) (is : List InstId) (s : Scope) : Prop where
  sound : s.Sound
  complete : s.Complete
  valueNames : s.valueNames = valueNames
  has : ∀ i ∈ is, s.function.Has (.inst i)

/-- The names among the operands are given. -/
def Known (valueNames : List String) (inst : Source.Inst) : Prop :=
  ∀ n, .name n ∈ inst.arguments.operands → n ∈ valueNames

theorem exists_stands_iff {x : Source.Operand} :
    (∃ y, s.Stands x y) ↔ ∀ n, x = .name n → n ∈ s.valueNames := by
  cases x with
  | imm n => exact iff_of_true ⟨.imm n, rfl⟩ fun _ h => nomatch h
  | name name =>
    have hname : (∃ v, s.values.lookup name = some v) ↔ name ∈ s.valueNames := exists_lookup_iff
    simp only [Source.Operand.name.injEq, forall_eq', ← hname]
    constructor
    · rintro ⟨y, hy⟩
      cases y with
      | value v => exact ⟨v, hy⟩
      | imm n => exact hy.elim
    · rintro ⟨v, hv⟩
      exact ⟨.value v, hv⟩

theorem declares_addOperands {valueNames : List String} {is : List InstId} {i : InstId} (hi : i ∈ is)
    (inst : Source.Inst) : Declares (fun _ => []) (OperandPass valueNames is) (addOperands i inst)
      (Known valueNames inst) [] where
  isOk_iff s hs _ := by
    have hknown : (∃ operands, List.Forall₂ s.Stands inst.arguments.operands operands) ↔
        Known valueNames inst := by
      rw [exists_forall₂_iff, Known, ← hs.valueNames]
      simp only [exists_stands_iff]
      exact ⟨fun h n hn => h _ hn n rfl, fun h x hx n hn => h n (hn ▸ hx)⟩
    simp only [List.append_nil, List.nodup_nil, and_true, ← hknown]
    constructor
    · rintro ⟨r, hr⟩
      obtain ⟨operands, -, hops, -⟩ := addOperands_eq_ok_iff.mp hr
      exact ⟨operands, hops⟩
    · rintro ⟨operands, hops⟩
      obtain ⟨g, hg⟩ : ∃ g, (Request.setOperands i operands).Leads s.function g :=
        ⟨_, hs.has i hi, rfl⟩
      exact ⟨_, addOperands_eq_ok_iff.mpr ⟨operands, g, hops, Request.run_eq_ok_iff.mpr hg, rfl⟩⟩
  keeps s u t hs h := by
    have hsound := (addOperands_eq_ok hs.sound h).1
    obtain ⟨operands, g, -, hg, heq⟩ := addOperands_eq_ok_iff.mp h
    obtain ⟨-, rfl⟩ := Prod.mk.inj heq
    refine ⟨⟨hsound, ⟨?_, ?_, fun j hj => ?_⟩, hs.valueNames, fun j hj => (hs.has j hj).request hg⟩,
      .refl _⟩
    · exact hs.complete.values.request hg (by simp [Request.adds])
    · exact hs.complete.blocks.request hg (by simp [Request.adds])
    · rw [Function.isAttached_request hg]
      exact hs.complete.placed j ((Function.has_request hg hj).resolve_right (by simp [Request.adds]))

end Build

end SsaPrune
