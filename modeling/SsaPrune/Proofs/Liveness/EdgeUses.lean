import SsaPrune.Liveness.EdgeUses
import SsaPrune.Proofs.Function.Built

/-!
# What the phis of a block use along an edge

The sets of `Function.usesOfPhis` are kept in ascending order of their blocks, so each block has one
of them. `mem_edgeUses_first` says what stands in it for the first phi of a block: the values that
some phi of the leading group pairs with the source of the edge.
-/

namespace SsaPrune

namespace EdgeUses

/-- The blocks stand in strictly ascending order. -/
def Ascending (e : EdgeUses) : Prop := e.Pairwise (·.1.index < ·.1.index)

/-- The value is used along the edge from `b`. -/
def Has (e : EdgeUses) (b : BlockId) (v : ValueId) : Prop := ∃ s, e.lookup b = some s ∧ v ∈ s

theorem mem_add {e : EdgeUses} {b : BlockId} {v : Option ValueId} {p : BlockId × ValueSet}
    (h : p ∈ e.add b v) : p.1 = b ∨ p ∈ e := by
  induction e with
  | nil =>
    obtain rfl := List.mem_singleton.mp h
    exact .inl rfl
  | cons q rest ih =>
    obtain ⟨c, s⟩ := q
    unfold add at h
    split at h
    · rcases List.mem_cons.mp h with rfl | h
      · exact .inl rfl
      · exact .inr h
    · split at h
      · rename_i hbc
        rcases List.mem_cons.mp h with rfl | h
        · exact .inl hbc.symm
        · exact .inr (List.mem_cons_of_mem _ h)
      · rcases List.mem_cons.mp h with rfl | h
        · exact .inr List.mem_cons_self
        · exact (ih h).imp_right (List.mem_cons_of_mem _)

theorem Ascending.add {e : EdgeUses} (h : e.Ascending) (b : BlockId) (v : Option ValueId) :
    (e.add b v).Ascending := by
  induction e with
  | nil => exact List.pairwise_singleton _ _
  | cons q rest ih =>
    obtain ⟨c, s⟩ := q
    obtain ⟨hc, hrest⟩ := List.pairwise_cons.mp h
    unfold EdgeUses.add
    split
    · rename_i hlt
      refine List.pairwise_cons.mpr ⟨fun p hp => ?_, h⟩
      rcases List.mem_cons.mp hp with rfl | hp
      · exact hlt
      · exact Nat.lt_trans hlt (hc p hp)
    · rename_i hle
      split
      · exact List.pairwise_cons.mpr ⟨hc, hrest⟩
      · rename_i hne
        refine List.pairwise_cons.mpr ⟨fun p hp => ?_, ih hrest⟩
        rcases mem_add hp with hpb | hp
        · have : b.index ≠ c.index := fun e => hne (by cases b; cases c; simp_all)
          change c.index < p.1.index
          rw [hpb]
          omega
        · exact hc p hp

theorem lookup_eq_none {e : EdgeUses} {b : BlockId} (h : ∀ p ∈ e, b.index < p.1.index) :
    e.lookup b = none := by
  refine List.lookup_eq_none_iff.mpr fun p hp => ?_
  have hne : b ≠ p.1 := fun hb => Nat.lt_irrefl _ (hb ▸ h p hp)
  simpa using hne

/-- One more value changes the set of its own edge only. -/
theorem lookup_add {e : EdgeUses} (h : e.Ascending) (b c : BlockId) (v : Option ValueId) :
    (e.add b v).lookup c =
      if b = c then some (((e.lookup b).getD ∅).insertAll v.toList) else e.lookup c := by
  induction e with
  | nil =>
    by_cases hbc : b = c
    · subst hbc
      simp [add, ValueSet.ofList]
    · have : (c == b) = false := by simpa using Ne.symm hbc
      simp [add, List.lookup_cons, hbc, this]
  | cons q rest ih =>
    obtain ⟨d, s⟩ := q
    obtain ⟨hd, hrest⟩ := List.pairwise_cons.mp h
    unfold add
    by_cases hlt : b.index < d.index
    · have hnone : List.lookup b ((d, s) :: rest) = none := by
        refine lookup_eq_none fun p hp => ?_
        rcases List.mem_cons.mp hp with rfl | hp
        · exact hlt
        · exact Nat.lt_trans hlt (hd p hp)
      rw [if_pos hlt, hnone, List.lookup_cons]
      by_cases hbc : b = c
      · subst hbc
        simp [ValueSet.ofList]
      · have : (c == b) = false := by simpa using Ne.symm hbc
        simp [this, hbc]
    · rw [if_neg hlt]
      by_cases hbd : b = d
      · subst hbd
        by_cases hbc : b = c
        · subst hbc
          simp
        · have : (c == b) = false := by simpa using Ne.symm hbc
          simp [List.lookup_cons, hbc, this]
      · have hbd' : (b == d) = false := by simpa using hbd
        simp only [if_neg hbd, List.lookup_cons, ih hrest, hbd']
        by_cases hcd : c = d
        · subst hcd
          simp [hbd]
        · have hcd' : (c == d) = false := by simpa using hcd
          simp [hcd']

theorem has_add {e : EdgeUses} (h : e.Ascending) {b c : BlockId} {x : Operand} {v : ValueId} :
    (e.add b x.value?).Has c v ↔ b = c ∧ x = .value v ∨ e.Has c v := by
  unfold Has
  rw [lookup_add h]
  by_cases hbc : b = c
  · subst hbc
    cases x with
    | value w =>
      cases e.lookup b <;> simp [Operand.value?, eq_comm, or_comm]
    | imm n =>
      cases e.lookup b <;> simp [Operand.value?]
  · simp [hbc]

theorem ascending_addIncoming {e : EdgeUses} (h : e.Ascending) (pairs : List (BlockId × Operand)) :
    (e.addIncoming pairs).Ascending := by
  unfold addIncoming
  induction pairs generalizing e with
  | nil => exact h
  | cons p pairs ih => exact ih (h.add p.1 p.2.value?)

theorem has_addIncoming {e : EdgeUses} (h : e.Ascending) {pairs : List (BlockId × Operand)}
    {b : BlockId} {v : ValueId} :
    (e.addIncoming pairs).Has b v ↔ (b, .value v) ∈ pairs ∨ e.Has b v := by
  unfold addIncoming
  induction pairs generalizing e with
  | nil => simp
  | cons p pairs ih =>
    rw [List.foldl_cons, ih (h.add p.1 p.2.value?), has_add h, List.mem_cons]
    obtain ⟨c, x⟩ := p
    constructor
    · rintro (h | ⟨rfl, rfl⟩ | h)
      · exact .inl (.inr h)
      · exact .inl (.inl rfl)
      · exact .inr h
    · rintro ((h | h) | h)
      · cases h
        exact .inr (.inl ⟨rfl, rfl⟩)
      · exact .inl h
      · exact .inr (.inr h)

end EdgeUses

namespace Function

variable (f : Function)

theorem ascending_usesOfPhis (phis : List InstId) : (f.usesOfPhis phis).Ascending := by
  induction phis with
  | nil => exact List.Pairwise.nil
  | cons phi rest ih => exact EdgeUses.ascending_addIncoming ih _

theorem has_usesOfPhis {phis : List InstId} {b : BlockId} {v : ValueId} :
    (f.usesOfPhis phis).Has b v ↔ ∃ phi ∈ phis, (b, .value v) ∈ f.incoming phi := by
  induction phis with
  | nil => simp [usesOfPhis, EdgeUses.Has]
  | cons phi rest ih =>
    rw [usesOfPhis, EdgeUses.has_addIncoming (f.ascending_usesOfPhis rest), ih]
    simp

variable {f}

/-- **Along an edge into a block, its first phi uses what the whole leading group pairs with the
source of the edge.** -/
theorem mem_edgeUses_first (h : f.PlacesAgree) {b c : BlockId} {i : InstId} {v : ValueId}
    (hi : f.first? c = some i) :
    (∃ s, f.edgeUsesFrom? i b = some s ∧ v ∈ s) ↔
      ∃ phi ∈ f.leadingPhis c, (b, .value v) ∈ f.incoming phi := by
  obtain ⟨rest, hc⟩ := List.head?_eq_some_iff.mp hi
  have hp : f.parent? i = some c := (h.parent_iff i c).mpr (by simp [hc])
  have hall : (f.leadingPhis c).dropWhile (· ≠ i) = f.leadingPhis c := by
    unfold leadingPhis
    rw [hc, List.takeWhile_cons]
    split
    · simp
    · rfl
  rw [← f.has_usesOfPhis, EdgeUses.Has, edgeUsesFrom?, edgeUses, hp]
  simp only [hall]

end Function

end SsaPrune
