import Mathlib.Algebra.Order.BigOperators.Group.List
import Mathlib.Algebra.Order.Ring.Nat
import Mathlib.Logic.Function.Iterate
import SsaPrune.Proofs.Liveness.EdgeUses
import SsaPrune.Proofs.Liveness.Passes

/-!
# The solver converges

The sets hold only values that are operands somewhere (`Solver.Within`), so the sum of their sizes is
bounded, and each step that does not converge makes it larger (`potential_lt_step`). Hence
`Function.passBound` steps are enough: the solver that they end with is one that steps lead to
(`exists_iterate_eq`), it has converged, and its sets solve the equations for all attached
instructions at once (`solved_step`).
-/

namespace SsaPrune.Solver

variable {f : Function} {s t : Solver} {i : InstId} {v : ValueId}

/-! ## The values in the sets -/

/-- All values in the sets are operands of attached instructions. -/
def Within (f : Function) (s : Solver) : Prop :=
  ∀ i v, v ∈ s.liveIn.get i ∨ v ∈ s.liveOut.get i → v ∈ f.attached.flatMap f.valueOperands

theorem within_initial : Within f initial := fun i v h => by
  simp only [initial, SideTable.get_empty] at h
  rcases h with h | h <;> exact absurd h (ValueSet.not_mem_empty _)

theorem mem_valueOperands_of_mem_incoming {b : BlockId} (h : (b, .value v) ∈ f.incoming i) :
    v ∈ f.valueOperands i := by
  unfold Function.incoming at h
  rw [Function.mem_valueOperands, Function.operands]
  cases hd : f.inst? i with
  | none => simp [hd] at h
  | some d =>
    simp only [hd, Option.map_some, Option.getD_some] at h ⊢
    exact (List.of_mem_zip h).2

/-- Along an edge only operands of attached phis are used. -/
theorem mem_of_mem_edgeUses (h : f.PlacesAgree) {b : BlockId} {used : ValueSet}
    (hu : f.edgeUsesFrom? i b = some used) (hv : v ∈ used) :
    v ∈ f.attached.flatMap f.valueOperands := by
  unfold Function.edgeUsesFrom? Function.edgeUses at hu
  cases hp : f.parent? i with
  | none => simp [hp] at hu
  | some c =>
    rw [hp] at hu
    obtain ⟨phi, hphi, hin⟩ := f.has_usesOfPhis.mp ⟨used, hu, hv⟩
    have hatt : phi ∈ f.attached :=
      h.mem_attached ((List.takeWhile_subset _) ((List.dropWhile_subset _) hphi))
    exact List.mem_flatMap.mpr ⟨phi, hatt, mem_valueOperands_of_mem_incoming hin⟩

theorem Within.mem_outOf (h : f.PlacesAgree) (hs : Within f s) (hv : v ∈ s.outOf f i) :
    v ∈ f.attached.flatMap f.valueOperands := by
  have hc : ∀ j edge, v ∈ s.contribution f j edge → v ∈ f.attached.flatMap f.valueOperands := by
    intro j edge hj
    rcases mem_contribution.mp hj with ⟨-, hj⟩ | ⟨-, ⟨hj, -⟩ | ⟨b, -, used, hu, hj⟩⟩
    · exact hs j v (.inl hj)
    · exact hs j v (.inr hj)
    · exact mem_of_mem_edgeUses h hu hj
  rcases Solver.mem_outOf.mp hv with ⟨-, b, -, j, -, hj⟩ | ⟨-, j, -, hj⟩
  · exact hc j _ hj
  · exact hc j _ hj

theorem Within.transfer (h : f.PlacesAgree) (hs : Within f s) (hi : i ∈ f.attached) :
    Within f (s.transfer f i) := by
  intro j v hv
  rw [get_liveIn_transfer, get_liveOut_transfer] at hv
  split at hv
  · rcases hv with hv | hv
    · rcases mem_inOf.mp hv with ⟨hv, -⟩ | ⟨-, hv⟩
      · exact hs.mem_outOf h hv
      · exact List.mem_flatMap.mpr ⟨i, hi, hv⟩
    · exact hs.mem_outOf h hv
  · exact hs j v hv

theorem Within.foldl (h : f.PlacesAgree) (hs : Within f s) {is : List InstId}
    (his : ∀ i ∈ is, i ∈ f.attached) : Within f (is.foldl (Solver.transfer f) s) := by
  induction is generalizing s with
  | nil => exact hs
  | cons i is ih =>
    exact ih (hs.transfer h (his i List.mem_cons_self)) fun j hj =>
      his j (List.mem_cons_of_mem _ hj)

theorem Within.pass (h : f.PlacesAgree) (hs : Within f s) : Within f (s.pass f) :=
  hs.foldl h fun _ hi => hi

/-! ## The potential -/

/-- The number of values in all sets. -/
def potential (f : Function) (s : Solver) : Nat :=
  (f.attached.map fun i => (s.liveIn.get i).size + (s.liveOut.get i).size).sum

theorem Within.potential_le (hs : Within f s) :
    potential f s ≤ 2 * f.numInsts * (f.attached.flatMap f.valueOperands).length := by
  have hle : ∀ i ∈ f.attached, (s.liveIn.get i).size + (s.liveOut.get i).size ≤
      2 * (f.attached.flatMap f.valueOperands).length := fun i _ => by
    have hin := ValueSet.size_le_length (s := s.liveIn.get i) fun v hv => hs i v (.inl hv)
    have hout := ValueSet.size_le_length (s := s.liveOut.get i) fun v hv => hs i v (.inr hv)
    omega
  refine (List.sum_le_sum hle).trans (Nat.le_of_eq ?_)
  rw [List.map_const', List.sum_replicate_nat, Function.numInsts, Nat.mul_left_comm,
    Nat.mul_assoc]

/-! ## Steps -/

/-- The sets solve the equations for every attached instruction. -/
def Solved (f : Function) (s : Solver) : Prop :=
  ∀ i ∈ f.attached, s.liveOut.get i = s.outOf f i ∧ s.liveIn.get i = inOf f i (s.liveOut.get i)

theorem step_of_converged (h : s.phase = .converged) : s.step f = s := by rw [step, if_pos h]

theorem step_of_ne (h : s.phase ≠ .converged) : s.step f = { s.pass f with
    phase := if (s.pass f).differs f s then .iterating else .converged
    passes := s.passes + 1 } := by
  rw [step, if_neg h]

theorem Rising.step (h : Rising f s) : Rising f (s.step f) := by
  by_cases hp : s.phase = .converged
  · rwa [step_of_converged hp]
  · rw [step_of_ne hp]
    exact h.pass

theorem Rising.le_step (h : Rising f s) : s.Le (s.step f) := by
  by_cases hp : s.phase = .converged
  · rw [step_of_converged hp]
    exact .refl s
  · rw [step_of_ne hp]
    exact h.le_pass

theorem Within.step (h : f.PlacesAgree) (hs : Within f s) : Within f (s.step f) := by
  by_cases hp : s.phase = .converged
  · rwa [step_of_converged hp]
  · rw [step_of_ne hp]
    exact hs.pass h

/-- A step that does not converge adds a value to some set. -/
theorem potential_lt_step (h : Rising f s) (hs : s.phase ≠ .converged)
    (ht : (s.step f).phase ≠ .converged) : potential f s < potential f (s.step f) := by
  have hle := h.le_step
  have hdiff : (s.pass f).differs f s = true := by
    rw [step_of_ne hs] at ht
    simpa using ht
  obtain ⟨i, hi, hne⟩ := List.any_eq_true.mp hdiff
  rw [step_of_ne hs] at hle ⊢
  refine List.sum_lt_sum _ _ (fun j _ => ?_) ⟨i, hi, ?_⟩
  · exact Nat.add_le_add (ValueSet.size_le_of_subset (hle j).1) (ValueSet.size_le_of_subset (hle j).2)
  · simp only [Bool.or_eq_true, decide_eq_true_eq] at hne
    rcases hne with hne | hne
    · exact Nat.add_lt_add_of_lt_of_le (ValueSet.size_lt_of_subset (hle i).1 (Ne.symm hne))
        (ValueSet.size_le_of_subset (hle i).2)
    · exact Nat.add_lt_add_of_le_of_lt (ValueSet.size_le_of_subset (hle i).1)
        (ValueSet.size_lt_of_subset (hle i).2 (Ne.symm hne))

/-- **A step that converges solves the equations.** -/
theorem solved_step (h : Rising f s) (hs : s.phase ≠ .converged)
    (ht : (s.step f).phase = .converged) : Solved f (s.step f) := by
  have hdiff : (s.pass f).differs f s = false := by
    rw [step_of_ne hs] at ht
    simpa using ht
  have hback : (s.pass f).Le s := le_of_unchanged hdiff
  have hle : s.Le (s.pass f) := h.le_pass
  rw [step_of_ne hs]
  intro i hi
  obtain ⟨hout, hin⟩ := outOf_of_unchanged h hdiff i hi
  have hsame : (s.pass f).outOf f i = s.outOf f i :=
    ValueSet.subset_antisymm (outOf_mono hback i) (outOf_mono hle i)
  have hgetOut : (s.pass f).liveOut.get i = s.liveOut.get i :=
    ValueSet.subset_antisymm (hback i).2 (hle i).2
  have hgetIn : (s.pass f).liveIn.get i = s.liveIn.get i :=
    ValueSet.subset_antisymm (hback i).1 (hle i).1
  change (s.pass f).liveOut.get i = (s.pass f).outOf f i ∧
    (s.pass f).liveIn.get i = inOf f i ((s.pass f).liveOut.get i)
  rw [hsame, hgetOut, hgetIn]
  exact ⟨hout, hout ▸ hin⟩

/-! ## Convergence -/

theorem exists_iterate_eq (s : Solver) (bound : Nat) :
    ∃ n, s.iterate f bound = (step f)^[n] s := by
  induction bound generalizing s with
  | zero => exact ⟨0, rfl⟩
  | succ bound ih =>
    rw [iterate]
    split
    · exact ⟨1, rfl⟩
    · obtain ⟨n, hn⟩ := ih (s.step f)
      exact ⟨n + 1, hn⟩

/-- As many steps as values can still be added, and one more, reach a solution. -/
theorem converged_iterate (hp : f.PlacesAgree) (h : Rising f s) (hw : Within f s)
    (hs : s.phase ≠ .converged) {bound : Nat}
    (hb : 2 * f.numInsts * (f.attached.flatMap f.valueOperands).length <
      potential f s + bound) :
    (s.iterate f bound).phase = .converged ∧ Solved f (s.iterate f bound) := by
  induction bound generalizing s with
  | zero =>
    have := hw.potential_le
    omega
  | succ bound ih =>
    rw [iterate]
    by_cases ht : (s.step f).phase = .converged
    · simp only [ht, if_true]
      exact ⟨trivial, solved_step h hs ht⟩
    · simp only [ht, if_false]
      have := potential_lt_step h hs ht
      exact ih h.step (hw.step hp) ht (by omega)

theorem converged_finish (hp : f.PlacesAgree) :
    (f.finish initial).phase = .converged ∧ Solved f (f.finish initial) := by
  refine converged_iterate hp rising_initial within_initial (by simp [initial]) ?_
  rw [Function.passBound]
  omega

end SsaPrune.Solver
