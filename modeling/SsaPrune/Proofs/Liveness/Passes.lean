import SsaPrune.Liveness.Solver

/-!
# The passes of the liveness solver

A transfer reads the sets of the successors and writes those of one instruction. Two facts carry the
whole analysis of the passes.

* A solver whose sets are covered by their own transfers (`Solver.Rising`) stays so, and its sets only
  grow: transfers are monotone.
* A pass that changes no set of an attached instruction has found a solution of the equations
  (`outOf_of_unchanged`), although each of its transfers saw the ones before it.

Every pass that changes something makes the sets larger, and they hold nothing but operands, so
`Function.passBound` passes suffice (`converged_finish`).
-/

namespace SsaPrune

namespace ValueSet

theorem subset_refl (s : ValueSet) : s ⊆ s := fun _ h => h

theorem subset_trans {s t u : ValueSet} (h : s ⊆ t) (h' : t ⊆ u) : s ⊆ u :=
  fun v hv => h' v (h v hv)

theorem subset_antisymm {s t : ValueSet} (h : s ⊆ t) (h' : t ⊆ s) : s = t :=
  ext fun v => ⟨h v, h' v⟩

theorem empty_subset (s : ValueSet) : ∅ ⊆ s := fun _ hv => absurd hv (not_mem_empty _)

theorem nodup_toList (s : ValueSet) : s.toList.Nodup :=
  s.ascending.imp fun h he => absurd (he ▸ h) (Nat.lt_irrefl _)

theorem size_le_length {s : ValueSet} {vs : List ValueId} (h : ∀ v ∈ s, v ∈ vs) :
    s.size ≤ vs.length :=
  s.nodup_toList.length_le_of_subset h

theorem size_le_of_subset {s t : ValueSet} (h : s ⊆ t) : s.size ≤ t.size := size_le_length h

theorem size_lt_of_subset {s t : ValueSet} (h : s ⊆ t) (hne : s ≠ t) : s.size < t.size := by
  obtain ⟨v, hv, hvs⟩ : ∃ v, v ∈ t ∧ v ∉ s := by
    refine Classical.byContradiction fun hno => hne (subset_antisymm h fun v hv => ?_)
    exact Classical.byContradiction fun hvs => hno ⟨v, hv, hvs⟩
  have hnodup : (v :: s.toList).Nodup := List.nodup_cons.mpr ⟨hvs, s.nodup_toList⟩
  have hsub : v :: s.toList ⊆ t.toList := fun w hw => by
    rcases List.mem_cons.mp hw with rfl | hw
    · exact hv
    · exact h w hw
  exact hnodup.length_le_of_subset hsub

end ValueSet

namespace Solver

variable {f : Function} {s t u : Solver} {i j : InstId} {v : ValueId}

/-! ## Membership -/

theorem mem_withoutResult {out : ValueSet} :
    v ∈ withoutResult f i out ↔ v ∈ out ∧ f.result? i ≠ some v := by
  unfold withoutResult
  cases f.result? i with
  | none => simp
  | some w => simp [eq_comm]

theorem mem_inOf {out : ValueSet} : v ∈ inOf f i out ↔
    v ∈ out ∧ f.result? i ≠ some v ∨ f.isPhi i = false ∧ v ∈ f.valueOperands i := by
  unfold inOf
  split <;> simp_all [mem_withoutResult]

theorem mem_contribution {edge : Option BlockId} : v ∈ s.contribution f i edge ↔
    f.isPhi i = false ∧ v ∈ s.liveIn.get i ∨
    f.isPhi i = true ∧ (v ∈ s.liveOut.get i ∧ f.result? i ≠ some v ∨
      ∃ b, edge = some b ∧ ∃ used, f.edgeUsesFrom? i b = some used ∧ v ∈ used) := by
  unfold contribution
  cases f.isPhi i with
  | false => simp
  | true =>
    cases edge with
    | none => simp [mem_withoutResult]
    | some b =>
      cases h : f.edgeUsesFrom? i b <;> simp [h, mem_withoutResult]

theorem mem_foldl_union {α : Type} (as : List α) (g : α → ValueSet) (s : ValueSet) :
    v ∈ as.foldl (fun out a => out ∪ g a) s ↔ v ∈ s ∨ ∃ a ∈ as, v ∈ g a := by
  induction as generalizing s with
  | nil => simp
  | cons a as ih => simp [ih, or_assoc]

theorem mem_outOf : v ∈ s.outOf f i ↔
    f.isTerminator i = true ∧ (∃ b ∈ f.successors i, ∃ j, f.first? b = some j ∧
      v ∈ s.contribution f j (f.parent? i)) ∨
    f.isTerminator i = false ∧ ∃ j, f.next? i = some j ∧ v ∈ s.contribution f j none := by
  unfold outOf
  cases f.isTerminator i with
  | true =>
    simp only [if_true, mem_foldl_union, ValueSet.not_mem_empty, false_or, List.mem_filterMap]
    simp only [true_and, Bool.true_eq_false, false_and, or_false]
    constructor
    · rintro ⟨j, ⟨b, hb, hj⟩, hv⟩
      exact ⟨b, hb, j, hj, hv⟩
    · rintro ⟨b, hb, j, hj, hv⟩
      exact ⟨j, ⟨b, hb, hj⟩, hv⟩
  | false => cases f.next? i <;> simp

/-! ## Monotonicity -/

/-- Each set of the first solver is contained in that of the second. -/
def Le (s t : Solver) : Prop :=
  ∀ i, s.liveIn.get i ⊆ t.liveIn.get i ∧ s.liveOut.get i ⊆ t.liveOut.get i

theorem Le.refl (s : Solver) : s.Le s := fun _ => ⟨ValueSet.subset_refl _, ValueSet.subset_refl _⟩

theorem Le.trans (h : s.Le t) (h' : t.Le u) : s.Le u :=
  fun i => ⟨ValueSet.subset_trans (h i).1 (h' i).1, ValueSet.subset_trans (h i).2 (h' i).2⟩

theorem contribution_mono (h : s.Le t) (i : InstId) (edge : Option BlockId) :
    s.contribution f i edge ⊆ t.contribution f i edge := by
  intro v hv
  rw [mem_contribution] at hv ⊢
  rcases hv with ⟨hp, hv⟩ | ⟨hp, ⟨hv, hr⟩ | hv⟩
  · exact .inl ⟨hp, (h i).1 v hv⟩
  · exact .inr ⟨hp, .inl ⟨(h i).2 v hv, hr⟩⟩
  · exact .inr ⟨hp, .inr hv⟩

theorem outOf_mono (h : s.Le t) (i : InstId) : s.outOf f i ⊆ t.outOf f i := by
  intro v hv
  rw [mem_outOf] at hv ⊢
  rcases hv with ⟨ht, b, hb, j, hj, hv⟩ | ⟨ht, j, hj, hv⟩
  · exact .inl ⟨ht, b, hb, j, hj, contribution_mono h j _ v hv⟩
  · exact .inr ⟨ht, j, hj, contribution_mono h j _ v hv⟩

theorem inOf_mono {out out' : ValueSet} (h : out ⊆ out') (i : InstId) :
    inOf f i out ⊆ inOf f i out' := by
  intro v hv
  rw [mem_inOf] at hv ⊢
  exact hv.imp_left fun ⟨hv, hr⟩ => ⟨h v hv, hr⟩

/-! ## Transfers -/

theorem get_liveIn_transfer : (s.transfer f i).liveIn.get j =
    if i = j then inOf f i (s.outOf f i) else s.liveIn.get j := by
  simp only [transfer, SideTable.get_set]

theorem get_liveOut_transfer : (s.transfer f i).liveOut.get j =
    if i = j then s.outOf f i else s.liveOut.get j := by
  simp only [transfer, SideTable.get_set]

/-- Every set is contained in what a transfer would make of it. -/
def Rising (f : Function) (s : Solver) : Prop :=
  ∀ i, s.liveIn.get i ⊆ inOf f i (s.outOf f i) ∧ s.liveOut.get i ⊆ s.outOf f i

theorem rising_initial : Rising f initial := fun _ => by
  simp only [initial, SideTable.get_empty]
  exact ⟨ValueSet.empty_subset _, ValueSet.empty_subset _⟩

theorem Rising.le_transfer (h : Rising f s) (i : InstId) : s.Le (s.transfer f i) := by
  intro j
  rw [get_liveIn_transfer, get_liveOut_transfer]
  by_cases hij : i = j
  · subst hij
    simpa using h i
  · simp only [if_neg hij]
    exact ⟨ValueSet.subset_refl _, ValueSet.subset_refl _⟩

theorem Rising.transfer (h : Rising f s) (i : InstId) : Rising f (s.transfer f i) := by
  have hle := h.le_transfer i
  intro j
  have hout : s.outOf f j ⊆ (s.transfer f i).outOf f j := outOf_mono hle j
  rw [get_liveIn_transfer, get_liveOut_transfer]
  by_cases hij : i = j
  · subst hij
    simp only [if_true]
    exact ⟨inOf_mono hout i, hout⟩
  · simp only [if_neg hij]
    exact ⟨ValueSet.subset_trans (h j).1 (inOf_mono hout j), ValueSet.subset_trans (h j).2 hout⟩

/-- What a transfer leaves to a list of transfers: the sets stay rising and only grow. -/
theorem Rising.foldl (h : Rising f s) (is : List InstId) :
    Rising f (is.foldl (Solver.transfer f) s) ∧ s.Le (is.foldl (Solver.transfer f) s) := by
  induction is generalizing s with
  | nil => exact ⟨h, .refl s⟩
  | cons i is ih =>
    obtain ⟨hr, hle⟩ := ih (h.transfer i)
    exact ⟨hr, (h.le_transfer i).trans hle⟩

/-- A transfer for a list of instructions writes the sets of no other. -/
theorem get_foldl_of_notMem {is : List InstId} (h : j ∉ is) :
    (is.foldl (transfer f) s).liveIn.get j = s.liveIn.get j ∧
      (is.foldl (transfer f) s).liveOut.get j = s.liveOut.get j := by
  induction is generalizing s with
  | nil => exact ⟨rfl, rfl⟩
  | cons i is ih =>
    simp only [List.mem_cons, not_or] at h
    obtain ⟨hi, his⟩ := h
    obtain ⟨hin, hout⟩ := ih (s := s.transfer f i) his
    rw [List.foldl_cons, hin, hout, get_liveIn_transfer, get_liveOut_transfer]
    simp [Ne.symm hi]

/-! ## Passes -/

theorem Rising.pass (h : Rising f s) : Rising f (s.pass f) := (h.foldl f.attached).1

theorem Rising.le_pass (h : Rising f s) : s.Le (s.pass f) := (h.foldl f.attached).2

/-- Transfers that leave all sets as they were have found the sets to solve the equations. -/
theorem outOf_of_foldl_le {is : List InstId} (h : Rising f s)
    (hle : (is.foldl (transfer f) s).Le s) :
    ∀ i ∈ is, s.liveOut.get i = s.outOf f i ∧ s.liveIn.get i = inOf f i (s.outOf f i) := by
  induction is generalizing s with
  | nil => simp
  | cons i is ih =>
    have hstep := h.le_transfer i
    have hrest := ((h.transfer i).foldl is).2
    -- the sets in the middle lie between equal ones
    have hback : (s.transfer f i).Le s := hrest.trans hle
    have hi := hback i
    rw [get_liveIn_transfer, get_liveOut_transfer, if_pos rfl, if_pos rfl] at hi
    intro j hj
    rcases List.mem_cons.mp hj with rfl | hj
    · exact ⟨ValueSet.subset_antisymm (h j).2 hi.2, ValueSet.subset_antisymm (h j).1 hi.1⟩
    · obtain ⟨hout, hin⟩ := ih (h.transfer i) (hle.trans hstep) j hj
      have hsame : (s.transfer f i).outOf f j = s.outOf f j :=
        ValueSet.subset_antisymm (outOf_mono hback j) (outOf_mono hstep j)
      rw [hsame] at hout hin
      exact ⟨hout ▸ ValueSet.subset_antisymm (hstep j).2 (hback j).2,
        hin ▸ ValueSet.subset_antisymm (hstep j).1 (hback j).1⟩

theorem differs_eq_false_iff : t.differs f s = false ↔ ∀ i ∈ f.attached,
    t.liveIn.get i = s.liveIn.get i ∧ t.liveOut.get i = s.liveOut.get i := by
  simp [differs]

theorem le_of_unchanged (hd : (s.pass f).differs f s = false) : (s.pass f).Le s := by
  intro i
  by_cases hi : i ∈ f.attached
  · obtain ⟨hin, hout⟩ := differs_eq_false_iff.mp hd i hi
    rw [hin, hout]
    exact ⟨ValueSet.subset_refl _, ValueSet.subset_refl _⟩
  · obtain ⟨hin, hout⟩ := get_foldl_of_notMem (s := s) hi
    rw [pass, hin, hout]
    exact ⟨ValueSet.subset_refl _, ValueSet.subset_refl _⟩

/-- **A pass that changes nothing has found a solution of the equations.** -/
theorem outOf_of_unchanged (h : Rising f s) (hd : (s.pass f).differs f s = false) :
    ∀ i ∈ f.attached,
      s.liveOut.get i = s.outOf f i ∧ s.liveIn.get i = inOf f i (s.outOf f i) :=
  outOf_of_foldl_le h (le_of_unchanged hd)

end Solver

end SsaPrune
