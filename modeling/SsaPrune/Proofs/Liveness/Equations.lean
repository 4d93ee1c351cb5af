import SsaPrune.Proofs.Liveness.Exactness

/-!
# What the states of the solver mean

A transfer overwrites both sets of an instruction, out of sets of which some were brought up to date in
the same pass and some were not. That no set loses a value by it is an invariant of the single transfers,
`Rising`, and so holds of all states that passes lead to (`Reached`).

The equations are stated here for any two families of sets, without the solver: `SolvesEquations`. A pass
that changes nothing has solved them for all instructions at once, whatever the order in which it visited
them.
-/

namespace SsaPrune

namespace Function

variable (f : Function)

/-- The values that an instruction uses where it stands. A phi uses its operands on the way in. -/
def usesAt (i : InstId) : ValueSet := if f.isPhi i then ∅ else .ofList (f.valueOperands i)

/-- The values that an instruction defines. -/
def definesAt (i : InstId) : ValueSet := .ofList (f.result? i).toList

/-- What `j` contributes to the instruction `i` in front of it: what is live before `j`, or, if it is a
phi, what is live after it, without its result, and what is used on the way in. -/
def Contributes (liveIn liveOut : InstId → ValueSet) (i j : InstId) (v : ValueId) : Prop :=
  if f.isPhi j then v ∈ liveOut j \ f.definesAt j ∨ f.UsedOnArrival i j v else v ∈ liveIn j

/-- The equations of liveness hold for all instructions that a block holds. -/
structure SolvesEquations (liveIn liveOut : InstId → ValueSet) : Prop where
  liveIn_eq : ∀ i ∈ f.attached, liveIn i = f.usesAt i ∪ (liveOut i \ f.definesAt i)
  mem_liveOut_iff : ∀ i ∈ f.attached, ∀ v, v ∈ liveOut i ↔
    ∃ j, f.Follows i j ∧ f.Contributes liveIn liveOut i j v

variable {f} {i : InstId} {v : ValueId}

theorem mem_usesAt : v ∈ f.usesAt i ↔ f.isPhi i = false ∧ v ∈ f.valueOperands i := by
  unfold usesAt
  split <;> simp_all

theorem mem_definesAt : v ∈ f.definesAt i ↔ f.result? i = some v := by simp [definesAt]

end Function

namespace Solver

open SsaPrune.Function

variable {f : Function} {s : Solver} {i j : InstId} {v : ValueId}

/-! ## States -/

/-- A state of the solver that passes lead to. -/
inductive Reached (f : Function) : Solver → Prop
  | initial : Reached f initial
  | step {s : Solver} (h : Reached f s) : Reached f (s.step f)

theorem phase_step (hs : s.phase ≠ .converged) :
    (s.step f).phase = if (s.step f).differs f s then .iterating else .converged := by
  rw [step_of_ne hs]
  rfl

namespace Reached

theorem rising (h : Reached f s) : Rising f s := by
  induction h with
  | initial => exact rising_initial
  | step _ ih => exact ih.step

theorem eq_initial (h : Reached f s) (hs : s.phase = .uninitialized) : s = .initial := by
  induction h with
  | initial => rfl
  | @step s _ ih =>
    by_cases hc : s.phase = .converged
    · rw [step_of_converged hc] at hs ⊢
      exact ih hs
    · rw [phase_step hc] at hs
      split at hs <;> cases hs

/-- A state that has converged solves the equations of the solver. -/
theorem solved (h : Reached f s) (hs : s.phase = .converged) : Solved f s := by
  induction h with
  | initial => cases hs
  | @step s h ih =>
    by_cases hc : s.phase = .converged
    · rw [step_of_converged hc]
      exact ih hc
    · exact solved_step h.rising hc hs

end Reached

/-! ## The equations -/

theorem mem_contribution_iff (hp : f.PlacesAgree) (hi : i ∈ f.attached) (hij : f.Follows i j) :
    v ∈ s.contribution f j (edge f i) ↔ f.Contributes s.liveIn.get s.liveOut.get i j v := by
  rw [mem_contribution, Contributes]
  cases hj : f.isPhi j with
  | false => simp
  | true =>
    have huse := mem_edgeUses_iff hp hi hij hj (v := v)
    simp only [huse, Bool.true_eq_false, false_and, false_or, true_and, if_true, ValueSet.mem_sdiff,
      mem_definesAt, ne_eq]

theorem Solved.solvesEquations (h : Solved f s) (hp : f.PlacesAgree) :
    f.SolvesEquations s.liveIn.get s.liveOut.get where
  liveIn_eq i hi := by
    refine ValueSet.ext fun v => ?_
    rw [(h i hi).2, mem_inOf, ValueSet.mem_union, ValueSet.mem_sdiff, mem_usesAt, mem_definesAt,
      or_comm]
  mem_liveOut_iff i hi v := by
    rw [(h i hi).1, mem_outOf_iff_follows hp]
    exact exists_congr fun j => and_congr_right fun hij => mem_contribution_iff hp hi hij

/-- **What the states of the solver mean.** Every pass can be made. Until the solver has converged, a
pass takes no value out of any set and is counted, and it is the last one exactly when it changes no set
of an instruction in a block. When the solver has converged, the sets solve the equations, and further
steps leave it as it is. -/
theorem Reached.grows_until_solved (hs : Reached f s) (hf : f.Coherent) (hc : f.Closed) :
    f.require f.passLookups = .ok () ∧
    (s.phase = .uninitialized → s = .initial) ∧
    (s.phase ≠ .converged → s.Le (s.step f) ∧ (s.step f).passes = s.passes + 1 ∧
      ((s.step f).phase = .converged ↔ ∀ i ∈ f.attached,
        (s.step f).liveIn.get i = s.liveIn.get i ∧ (s.step f).liveOut.get i = s.liveOut.get i)) ∧
    (s.phase = .converged → f.SolvesEquations s.liveIn.get s.liveOut.get ∧
      ∀ n, (Solver.step f)^[n] s = s) := by
  refine ⟨f.require_eq_ok_iff.mpr hc.targetsExist, hs.eq_initial, fun hne => ⟨hs.rising.le_step, ?_, ?_⟩,
    fun hconv => ⟨(hs.solved hconv).solvesEquations hf.places, ?_⟩⟩
  · rw [step_of_ne hne]
  · rw [phase_step hne, ← differs_eq_false_iff]
    cases (s.step f).differs f s <;> simp
  · exact Function.iterate_fixed (step_of_converged hconv)

/-- A loop around which a value is handed on from pass to pass. The third pass changes something, the
fourth one does not. -/
theorem Reached.grows_until_solved_loop :
    ∃ fs, parseModule ("func @f(%n) \x7b\n ^a:\n br [^b]\n ^b:\n %i = phi [0, ^a], [%j, ^c]\n" ++
        " condbr %n [^c, ^d]\n ^c:\n %j = add %i, %n\n br [^b]\n ^d:\n ret %i\n\x7d") = .ok fs ∧
      fs.length = 1 ∧ ∀ f ∈ fs, ∃ s, Reached f s ∧ s.phase = .iterating ∧ s.passes = 3 ∧
        (s.step f).phase = .converged ∧ (s.step f).passes = 4 ∧ s.Le (s.step f) ∧
        f.SolvesEquations (s.step f).liveIn.get (s.step f).liveOut.get := by
  refine (Run.exists_eq_ok_and (p := fun fs => fs.length = 1 && fs.all fun f =>
    let s := ((Solver.initial.step f).step f).step f
    s.phase = .iterating && s.passes = 3 && (s.step f).phase = .converged) ?_).imp
    fun fs hfs => ⟨hfs.1, ?_⟩
  · decide +kernel
  · have hchecks := hfs.2
    simp only [Bool.and_eq_true, decide_eq_true_iff, List.all_eq_true] at hchecks
    refine ⟨hchecks.1, fun f hf => ?_⟩
    obtain ⟨⟨hphase, hpasses⟩, hconv⟩ := hchecks.2 f hf
    have hcomposed := composed_of_parseModule hfs.1 f hf
    have hreached : Reached f (((Solver.initial.step f).step f).step f) := .step (.step (.step .initial))
    obtain ⟨-, -, hpass, -⟩ := hreached.grows_until_solved hcomposed.built.coherent hcomposed.closed
    obtain ⟨hle, hcount, -⟩ := hpass (by simp [hphase])
    obtain ⟨-, -, -, hend⟩ :=
      hreached.step.grows_until_solved hcomposed.built.coherent hcomposed.closed
    exact ⟨_, hreached, hphase, hpasses, hconv, by rw [hcount, hpasses], hle, (hend hconv).1⟩

end Solver

end SsaPrune
