import SsaPrune.Proofs.Liveness.Walks
import SsaPrune.Proofs.Text.RoundTrip

/-!
# The computed sets are exactly the live values

For a function whose terminators lead to blocks that exist, the solver converges, and the sets that it
answers with hold a value exactly where some walk leads to a use of it. This covers every function
that was read from a text, and every function that was built from entities that exist; neither has to
be well formed.
-/

namespace SsaPrune

/-- The sets of all instructions in blocks hold what the walks ask for, and nothing else. -/
structure Liveness.IsExact (l : Liveness) (f : Function) : Prop where
  liveOut_iff : ∀ i ∈ f.attached, ∀ v, v ∈ l.liveOut i ↔ f.LiveAfter v i
  liveIn_iff : ∀ i ∈ f.attached, ∀ v, v ∈ l.liveIn i ↔
    v ∈ l.liveOut i ∧ f.result? i ≠ some v ∨ f.isPhi i = false ∧ v ∈ f.valueOperands i

namespace Function

variable {f : Function}

/-- The targets of every terminator exist. -/
def TargetsExist (f : Function) : Prop := ∀ l ∈ f.passLookups, f.Has l

theorem Closed.targetsExist (h : f.Closed) : f.TargetsExist := by
  intro l hl
  obtain ⟨b, hb, rfl⟩ := List.mem_map.mp hl
  obtain ⟨i, -, hb⟩ := List.mem_flatMap.mp hb
  unfold successors at hb
  cases hd : f.inst? i with
  | none => simp [hd] at hb
  | some d =>
    rw [hd] at hb
    exact h.has_block hd (List.mem_append_left _ hb)

theorem computeLiveness_eq_ok (h : f.TargetsExist) : f.computeLiveness = .ok f.liveness := by
  unfold computeLiveness
  rw [f.require_eq_ok_iff.mpr h]
  rfl

theorem PlacesAgree.isExact_liveness (h : f.PlacesAgree) : f.liveness.IsExact f where
  liveOut_iff _ hi _ := (Solver.mem_finish h hi).1
  liveIn_iff _ hi _ := (Solver.mem_finish h hi).2

/-- **The solver converges, to exactly the live values.** -/
theorem isExact_computeLiveness
    (h : (∃ text fs, parseModule text = .ok fs ∧ f ∈ fs) ∨ f.Built ∧ f.Closed) :
    ∃ n, ((Solver.step f)^[n] .initial).phase = .converged ∧
      f.computeLiveness = .ok ((Solver.step f)^[n] .initial).liveness ∧
      ((Solver.step f)^[n] .initial).liveness.IsExact f := by
  have hbuilt : f.Built ∧ f.Closed := by
    rcases h with ⟨text, fs, hparse, hf⟩ | h
    · have hcomposed := composed_of_parseModule hparse f hf
      exact ⟨hcomposed.built, hcomposed.closed⟩
    · exact h
  have hplaces := hbuilt.1.coherent.places
  obtain ⟨n, hn⟩ := Solver.exists_iterate_eq (f := f) .initial f.passBound
  have hfinish : f.finish .initial = (Solver.step f)^[n] .initial := hn
  refine ⟨n, ?_, ?_, ?_⟩
  · rw [← hfinish]
    exact (Solver.converged_finish hplaces).1
  · rw [← hfinish]
    exact computeLiveness_eq_ok hbuilt.2.targetsExist
  · rw [← hfinish]
    exact hplaces.isExact_liveness

/-- A loop around two phis, one of which uses the other, and a block that is not reached. -/
def phiLoop : String :=
  "func @f(%n) \x7b\n ^a:\n br [^b]\n ^b:\n %i = phi [0, ^a], [%j, ^b]\n" ++
    " %k = phi [%n, ^a], [%i, ^b]\n %j = add %i, %k\n condbr %j [^b, ^c]\n ^c:\n ret %k\n" ++
    " ^d:\n br [^b]\n\x7d"

/-- On the way around the loop all but the parameter is live, and on the way into it the parameter is. -/
theorem isExact_computeLiveness_loop : ∃ f, parseModule phiLoop = .ok [f] ∧
    ∃ l, f.computeLiveness = .ok l ∧ l.liveOut ⟨0⟩ = .ofList [⟨0⟩] ∧
      l.liveOut ⟨4⟩ = .ofList [⟨1⟩, ⟨2⟩, ⟨3⟩] ∧ l.liveOut ⟨6⟩ = ∅ ∧
      ∃ n, ((Solver.step f)^[n] .initial).phase = .converged ∧
        ((Solver.step f)^[n] .initial).liveness = l ∧ l.IsExact f := by
  have hruns : Run.yieldsOne (parseModule phiLoop) (fun f =>
      f.computeLiveness.toOption.any (fun l => l.liveOut ⟨0⟩ = .ofList [⟨0⟩] ∧
        l.liveOut ⟨4⟩ = .ofList [⟨1⟩, ⟨2⟩, ⟨3⟩] ∧ l.liveOut ⟨6⟩ = ∅)) = true := by
    decide +kernel
  obtain ⟨f, hparse, hchecks⟩ := Run.exists_of_yieldsOne hruns
  obtain ⟨l, hl, hsets⟩ := Run.exists_eq_ok_and hchecks
  obtain ⟨hentry, hloop, hlone⟩ := of_decide_eq_true hsets
  have hread : ∃ text fs, parseModule text = .ok fs ∧ f ∈ fs := ⟨_, [f], hparse, by simp⟩
  obtain ⟨n, hn, hrun, hexact⟩ := isExact_computeLiveness (.inl hread)
  obtain rfl := Except.ok.inj (hl.symm.trans hrun)
  exact ⟨f, hparse, _, hl, hentry, hloop, hlone, n, hn, rfl, hexact⟩

end Function

end SsaPrune
