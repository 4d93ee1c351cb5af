import SsaPrune.Elimination
import SsaPrune.Proofs.Function.Composed

/-!
# Taking instructions out

What is left of a function from which some instructions were taken out: the blocks list the others, in
the same order, and everything else is as it was, the instructions that were taken out included. They
only no longer name a block.

`detachAll_eq_ok` says that taking out instructions that exist succeeds, and leaves such a function.
-/

namespace SsaPrune

/-- Leaving out the one, then the other. -/
theorem filter_notMem_append {α β : Type} [DecidableEq β] (key : α → β) (as : List α)
    (bs cs : List β) :
    (as.filter (key · ∉ bs)).filter (key · ∉ cs) = as.filter (key · ∉ bs ++ cs) := by
  rw [List.filter_filter]
  refine List.filter_congr fun a _ => ?_
  simp [Bool.and_comm]

/-- The instruction without the block that holds it. -/
def Instruction.unplaced (d : Instruction) : Instruction := { d with parent := none }

namespace Function

/-- `g` is what is left of `f` when the instructions of `out` are taken out of their blocks. -/
structure Thinned (f g : Function) (out : List InstId) : Prop where
  name : g.name = f.name
  label : ∀ b, g.blockLabel? b = f.blockLabel? b
  layout : g.layout = f.layout
  params : g.params = f.params
  values : g.values = f.values
  results : g.results = f.results
  has : ∀ l, g.Has l ↔ f.Has l
  inst : ∀ i, (g.inst? i).map Instruction.unplaced = (f.inst? i).map Instruction.unplaced
  instsOf : ∀ b, g.instsOf b = (f.instsOf b).filter (· ∉ out)

/-- All of these instructions may be removed. -/
def AllRemovable (f : Function) (out : List InstId) : Prop := ∀ i ∈ out, f.isRemovable i = true

section Removable

variable {f : Function} {out : List InstId} {i : InstId}

theorem isRemovable_iff : f.isRemovable i = true ↔
    f.isTerminator i = false ∧ f.isPhi i = false ∧ f.hasSideEffects i = false := by
  simp [isRemovable, and_assoc]

theorem AllRemovable.not_mem_of_isTerminator (hr : f.AllRemovable out)
    (h : f.isTerminator i = true) : i ∉ out := by
  intro hi
  rw [(isRemovable_iff.mp (hr i hi)).1] at h
  cases h

theorem AllRemovable.not_mem_of_isPhi (hr : f.AllRemovable out) (h : f.isPhi i = true) :
    i ∉ out := by
  intro hi
  rw [(isRemovable_iff.mp (hr i hi)).2.1] at h
  cases h

theorem AllRemovable.singleton (hi : f.isRemovable i = true) : f.AllRemovable [i] := by
  intro j hj
  rwa [List.mem_singleton.mp hj]

end Removable

namespace Thinned

variable {f g h : Function} {out out' : List InstId} {i : InstId}

theorem refl (f : Function) : f.Thinned f [] :=
  ⟨rfl, fun _ => rfl, rfl, rfl, rfl, rfl, fun _ => Iff.rfl, fun _ => rfl, fun _ => by simp⟩

theorem trans (hfg : f.Thinned g out) (hgh : g.Thinned h out') : f.Thinned h (out ++ out') where
  name := hgh.name.trans hfg.name
  label b := (hgh.label b).trans (hfg.label b)
  layout := hgh.layout.trans hfg.layout
  params := hgh.params.trans hfg.params
  values := hgh.values.trans hfg.values
  results := hgh.results.trans hfg.results
  has l := (hgh.has l).trans (hfg.has l)
  inst i := (hgh.inst i).trans (hfg.inst i)
  instsOf b := by
    rw [hgh.instsOf, hfg.instsOf]
    exact filter_notMem_append id ..

/-! ## Readings -/

theorem exists_inst? (ht : f.Thinned g out) {d : Instruction} (hd : f.inst? i = some d) :
    ∃ p, g.inst? i = some { d with parent := p } := by
  have hi := ht.inst i
  rw [hd] at hi
  obtain ⟨e, he, heq⟩ := Option.map_eq_some_iff.mp hi
  refine ⟨e.parent, he.trans (congrArg some ?_)⟩
  obtain ⟨_, _, _, _, _, _⟩ := e
  obtain ⟨_, _, _, _, _, _⟩ := d
  simp only [Instruction.unplaced, Instruction.mk.injEq] at heq
  obtain ⟨rfl, rfl, rfl, rfl, rfl, -⟩ := heq
  rfl

theorem inst?_eq_none (ht : f.Thinned g out) (hi : f.inst? i = none) : g.inst? i = none := by
  have h := ht.inst i
  rw [hi] at h
  exact Option.map_eq_none_iff.mp h

theorem exists_inst?_of (ht : f.Thinned g out) {e : Instruction} (he : g.inst? i = some e) :
    ∃ d, f.inst? i = some d ∧ e = { d with parent := e.parent } := by
  cases hd : f.inst? i with
  | none =>
    rw [ht.inst?_eq_none hd] at he
    cases he
  | some d =>
    obtain ⟨p, hp⟩ := ht.exists_inst? hd
    obtain rfl := Option.some.inj (hp.symm.trans he)
    exact ⟨d, rfl, rfl⟩

/-- A reading that does not ask for the block of an instruction is the same in both functions. -/
theorem map_inst? (ht : f.Thinned g out) {α : Type} (read : Instruction → α)
    (hr : ∀ d : Instruction, ∀ p, read { d with parent := p } = read d) (i : InstId) :
    (g.inst? i).map read = (f.inst? i).map read := by
  cases hd : f.inst? i with
  | none => rw [ht.inst?_eq_none hd]
  | some d =>
    obtain ⟨p, hp⟩ := ht.exists_inst? hd
    rw [hp, Option.map_some, Option.map_some, hr]

theorem any_inst? (ht : f.Thinned g out) (p : Opcode → Bool) (i : InstId) :
    (g.inst? i).any (fun d => p d.opcode) = (f.inst? i).any fun d => p d.opcode := by
  have h := ht.map_inst? (·.opcode) (fun _ _ => rfl) i
  have hany : ∀ o : Option Instruction, o.any (fun d => p d.opcode) = (o.map (·.opcode)).any p :=
    fun o => by cases o <;> rfl
  rw [hany, hany, h]

theorem result? (ht : f.Thinned g out) (i : InstId) : g.result? i = f.result? i := by
  rw [Function.result?, ht.results]
  rfl

theorem definition? (ht : f.Thinned g out) (v : ValueId) : g.definition? v = f.definition? v := by
  rw [Function.definition?, Function.value?, ht.values]
  rfl

theorem operands (ht : f.Thinned g out) (i : InstId) : g.operands i = f.operands i := by
  rw [Function.operands, ht.map_inst? (·.operands) fun _ _ => rfl]
  rfl

theorem valueOperands (ht : f.Thinned g out) (i : InstId) :
    g.valueOperands i = f.valueOperands i := by
  rw [Function.valueOperands, ht.map_inst? (·.values) fun _ _ => rfl]
  rfl

theorem successors (ht : f.Thinned g out) (i : InstId) : g.successors i = f.successors i := by
  rw [Function.successors, ht.map_inst? (·.successors) fun _ _ => rfl]
  rfl

theorem incoming (ht : f.Thinned g out) (i : InstId) : g.incoming i = f.incoming i := by
  rw [Function.incoming, ht.map_inst? (·.incoming) fun _ _ => rfl]
  rfl

theorem isTerminator (ht : f.Thinned g out) (i : InstId) : g.isTerminator i = f.isTerminator i :=
  ht.any_inst? (·.isTerminator) i

theorem isPhi (ht : f.Thinned g out) (i : InstId) : g.isPhi i = f.isPhi i :=
  ht.any_inst? (·.isPhi) i

theorem hasSideEffects (ht : f.Thinned g out) (i : InstId) :
    g.hasSideEffects i = f.hasSideEffects i :=
  ht.any_inst? (·.hasSideEffects) i

theorem isRemovable (ht : f.Thinned g out) (i : InstId) : g.isRemovable i = f.isRemovable i := by
  rw [Function.isRemovable, ht.isTerminator, ht.isPhi, ht.hasSideEffects]
  rfl

theorem mem_instsOf (ht : f.Thinned g out) {b : BlockId} :
    i ∈ g.instsOf b ↔ i ∈ f.instsOf b ∧ i ∉ out := by
  rw [ht.instsOf, List.mem_filter]
  simp

theorem attached (ht : f.Thinned g out) : g.attached = f.attached.filter (· ∉ out) := by
  rw [Function.attached, Function.attached, ht.layout, List.filter_flatMap, funext ht.instsOf]

theorem mem_attached (ht : f.Thinned g out) : i ∈ g.attached ↔ i ∈ f.attached ∧ i ∉ out := by
  rw [ht.attached, List.mem_filter]
  simp

/-- What was not taken out still names its block. -/
theorem parent? (ht : f.Thinned g out) (hf : f.PlacesAgree) (hg : g.PlacesAgree) (hi : i ∉ out) :
    g.parent? i = f.parent? i := by
  refine Option.ext fun b => ?_
  rw [hg.parent_iff, hf.parent_iff, ht.mem_instsOf]
  exact and_iff_left hi

end Thinned

/-- Nothing new is named by what is left. -/
theorem Closed.thinned {f g : Function} {out : List InstId} (hf : f.Closed)
    (ht : f.Thinned g out) : g.Closed := by
  refine hf.of_same (fun l => (ht.has l).mpr) (fun j d hd => ?_) ht.definition?
  obtain ⟨e, he, heq⟩ := ht.exists_inst?_of hd
  exact ⟨e, he, heq ▸ rfl⟩

/-! ## Taking out by requests -/

variable {f : Function} {i : InstId}

theorem detach_eq_ok (h : f.Built) (hi : f.Has (.inst i)) :
    ∃ g, Edit.detach i f = .ok () g ∧ g.Built ∧ f.Thinned g [i] ∧
      ∀ j, j ≠ i → f.UsesListed j → g.UsesListed j := by
  have hplaces := h.coherent.places
  suffices hleads : ∃ g, (Request.detach i).Leads f g ∧ f.Thinned g [i] ∧
      ∀ j, j ≠ i → f.UsesListed j → g.UsesListed j by
    obtain ⟨g, hg, ht, hu⟩ := hleads
    have hrun := Request.run_eq_ok_iff.mpr hg
    exact ⟨g, hrun, .request _ h hrun, ht, hu⟩
  cases hp : f.parent? i with
  | none =>
    refine ⟨f, .inl ⟨hi, hp, rfl⟩, ?_, fun _ _ hu => hu⟩
    refine ⟨rfl, fun _ => rfl, rfl, rfl, rfl, rfl, fun _ => Iff.rfl, fun _ => rfl, fun b => ?_⟩
    refine (List.filter_eq_self.mpr fun j hj => ?_).symm
    have hne : j ≠ i := fun he => by
      rw [(hplaces.parent_iff i b).mpr (he ▸ hj)] at hp
      cases hp
    simpa using hne
  | some b =>
    have hb := hplaces.has_block_of_parent hp
    refine ⟨_, .inr ⟨b, hp, hb, rfl⟩, ⟨rfl, ?_, rfl, rfl, rfl, rfl, ?_, ?_, ?_⟩, ?_⟩
    · exact fun c => (f.withParent i none).blockLabel?_editBlock b c _
    · intro l
      cases l <;> simp [dropUses, editBlock, withParent]
    · exact fun j => f.map_inst?_withParent i j none Instruction.unplaced fun _ => rfl
    · intro c
      have hlist := hplaces.instsOf_takeOut hp c
      simp only [List.mem_singleton]
      exact hlist
    · intro j hj hu
      have hplaced : ((f.withParent i none).editBlock b (·.filter (· ≠ i))).UsesListed j :=
        hu.congr (operands_withParent none) rfl
      exact hplaced.dropUses (Ne.symm hj)

theorem detachAll_eq_ok (h : f.Built) {is : List InstId} (his : ∀ i ∈ is, f.Has (.inst i)) :
    ∃ g, Edit.detachAll is f = .ok () g ∧ g.Built ∧ f.Thinned g is := by
  induction is generalizing f with
  | nil => exact ⟨f, rfl, h, .refl f⟩
  | cons i is ih =>
    obtain ⟨g, hg, hb, ht, -⟩ := detach_eq_ok h (his i List.mem_cons_self)
    obtain ⟨k, hk, hkb, hkt⟩ := ih hb fun j hj => (ht.has _).mpr (his j (List.mem_cons_of_mem _ hj))
    refine ⟨k, ?_, hkb, ht.trans hkt⟩
    exact (Run.bind_of_ok hg).trans hk

end Function

end SsaPrune
