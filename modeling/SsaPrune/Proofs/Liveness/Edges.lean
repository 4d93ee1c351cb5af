import SsaPrune.Proofs.Liveness.Exactness

/-!
# What is live along an edge

The solver gives each instruction its own sets, and takes the results of the phis at the start of a
block out one by one. Seen from outside, a block has one set for each edge into it: what its phis pair
with the source of the edge, and what is live after all of them and is not a result of any.

`liveOut_eq_liveOnEdges` says that a terminator has the union of these sets over its targets. It holds
because the phis of a block hand on what is live after the last of them (`mem_liveOut_of_phi`).
-/

namespace SsaPrune

namespace Function

variable (f : Function) (b c : BlockId)

/-- The values that the phis at the start of `c` pair with `b`. -/
def phiUses : ValueSet :=
  .ofList (((f.leadingPhis c).flatMap f.incoming).filterMap fun pair =>
    if pair.1 = b then pair.2.value? else none)

/-- The results of the phis at the start of a block. -/
def phiResults : ValueSet := .ofList ((f.leadingPhis c).filterMap f.result?)

/-- The first instruction of a block that is not one of the phis at its start. -/
def afterPhis? : Option InstId := ((f.instsOf c).dropWhile f.isPhi).head?

/-- What is live along the edge from `b` to `c`, where `liveIn` is live before the instructions. -/
def liveOnEdge (liveIn : InstId → ValueSet) : ValueSet :=
  f.phiUses b c ∪
    match f.afterPhis? c with
    | some i => liveIn i \ f.phiResults c
    | none => ∅

/-- What is live along one of the edges from `b` to `targets`. -/
def liveOnEdges (liveIn : InstId → ValueSet) (targets : List BlockId) : ValueSet :=
  targets.foldl (fun live c => live ∪ f.liveOnEdge b c liveIn) ∅

variable {f b c}

theorem mem_phiUses {v : ValueId} :
    v ∈ f.phiUses b c ↔ ∃ phi ∈ f.leadingPhis c, (b, .value v) ∈ f.incoming phi := by
  simp only [phiUses, ValueSet.mem_ofList, List.mem_filterMap, List.mem_flatMap, Prod.exists]
  constructor
  · rintro ⟨b', x, ⟨phi, hphi, hpair⟩, hx⟩
    split at hx
    · rename_i hb
      subst hb
      cases x with
      | value w =>
        obtain rfl := Option.some.inj hx
        exact ⟨phi, hphi, hpair⟩
      | imm n => cases hx
    · cases hx
  · rintro ⟨phi, hphi, hpair⟩
    exact ⟨b, .value v, ⟨phi, hphi, hpair⟩, if_pos rfl⟩

theorem mem_phiResults {v : ValueId} :
    v ∈ f.phiResults c ↔ ∃ phi ∈ f.leadingPhis c, f.result? phi = some v := by
  simp only [phiResults, ValueSet.mem_ofList, List.mem_filterMap]

theorem mem_liveOnEdge {liveIn : InstId → ValueSet} {v : ValueId} : v ∈ f.liveOnEdge b c liveIn ↔
    (∃ phi ∈ f.leadingPhis c, (b, .value v) ∈ f.incoming phi) ∨
      ∃ i, f.afterPhis? c = some i ∧ v ∈ liveIn i ∧ ∀ phi ∈ f.leadingPhis c, f.result? phi ≠ some v := by
  rw [liveOnEdge, ValueSet.mem_union, mem_phiUses]
  cases f.afterPhis? c with
  | none => simp
  | some i => simp [mem_phiResults]

theorem mem_liveOnEdges {liveIn : InstId → ValueSet} {targets : List BlockId} {v : ValueId} :
    v ∈ f.liveOnEdges b liveIn targets ↔ ∃ c ∈ targets, v ∈ f.liveOnEdge b c liveIn := by
  rw [liveOnEdges, Solver.mem_foldl_union]
  simp

end Function

namespace Solver

open SsaPrune.Function

variable {f : Function} {s : Solver} {i j : InstId} {b c : BlockId} {v : ValueId}

/-! ## The phis at the start of a block -/

theorem follows_iff_head? (h : f.PlacesAgree) {pre rest : List InstId}
    (hlist : f.instsOf c = pre ++ i :: rest) (hi : f.isTerminator i = false) :
    f.Follows i j ↔ rest.head? = some j := by
  constructor
  · rintro (⟨-, hsplit⟩ | ⟨hterm, -, -⟩)
    · rename_i d before after
      obtain rfl : d = c := h.eq_of_mem (i := i) (by simp [hsplit]) (by simp [hlist])
      have hnodup : (pre ++ i :: rest).Nodup := hlist ▸ h.nodup d
      obtain ⟨hpre, hrest⟩ : i ∉ pre ∧ i ∉ rest := by
        simpa using (List.nodup_middle.mp hnodup).notMem
      obtain ⟨-, -, rfl⟩ := (List.append_cons_inj_of_notMem hpre hrest).mp (hlist.symm.trans hsplit)
      rfl
    · exact absurd hterm (by simp [hi])
  · intro hj
    obtain ⟨after, rfl⟩ := List.head?_eq_some_iff.mp hj
    exact .next hi hlist

theorem mem_liveOut_iff_head? (h : f.PlacesAgree) (hs : Solved f s) {pre rest : List InstId}
    (hlist : f.instsOf c = pre ++ i :: rest) (hi : f.isTerminator i = false) :
    v ∈ s.liveOut.get i ↔ ∃ j, rest.head? = some j ∧ v ∈ s.contribution f j none := by
  have hattached : i ∈ f.attached := h.mem_attached (b := c) (by simp [hlist])
  rw [(hs i hattached).1, mem_outOf_iff_follows h, edge, hi]
  simp only [follows_iff_head? h hlist hi, Bool.false_eq_true, if_false]

/-- **A phi hands on what is live after the phis behind it**, without their results. -/
theorem mem_liveOut_of_phi (h : f.PlacesAgree) (hs : Solved f s) {pre rest : List InstId}
    (hlist : f.instsOf c = pre ++ i :: rest) (hi : f.isPhi i = true) :
    v ∈ s.liveOut.get i ↔ ∃ j, (rest.dropWhile f.isPhi).head? = some j ∧ v ∈ s.liveIn.get j ∧
      ∀ phi ∈ rest.takeWhile f.isPhi, f.result? phi ≠ some v := by
  rw [mem_liveOut_iff_head? h hs hlist (isTerminator_of_isPhi hi)]
  -- along the group: each phi behind `i` takes out its own result
  induction rest generalizing pre i with
  | nil => simp
  | cons j rest ih =>
    simp only [List.head?_cons, Option.some.injEq, exists_eq_left', mem_contribution,
      reduceCtorEq, false_and, exists_false, or_false]
    cases hj : f.isPhi j with
    | false => simp [hj]
    | true =>
      have hlist' : f.instsOf c = (pre ++ [i]) ++ j :: rest := by simp [hlist]
      have hout := mem_liveOut_iff_head? h hs hlist' (isTerminator_of_isPhi hj) (v := v)
      rw [hout, ih hlist' hj]
      simp only [hj, List.takeWhile_cons_of_pos, List.dropWhile_cons_of_pos, List.forall_mem_cons]
      tauto

/-- **What a block asks for along an edge**: the contribution of its first instruction is what its
phis pair with the source, and what is live after them. -/
theorem mem_contribution_first (h : f.PlacesAgree) (hs : Solved f s) (hi : f.first? c = some i) :
    v ∈ s.contribution f i (some b) ↔ v ∈ f.liveOnEdge b c s.liveIn.get := by
  obtain ⟨rest, hlist⟩ := List.head?_eq_some_iff.mp hi
  have huses := mem_edgeUses_first h hi (b := b) (v := v)
  simp only [mem_contribution, Option.some.injEq, exists_eq_left', huses, mem_liveOnEdge]
  cases hp : f.isPhi i with
  | false => simp [leadingPhis, afterPhis?, hlist, hp]
  | true =>
    have hfirst : f.instsOf c = [] ++ i :: rest := hlist
    rw [mem_liveOut_of_phi h hs hfirst hp]
    have hphis : f.leadingPhis c = i :: rest.takeWhile f.isPhi := by simp [leadingPhis, hlist, hp]
    have hafter : f.afterPhis? c = (rest.dropWhile f.isPhi).head? := by simp [afterPhis?, hlist, hp]
    simp only [hphis, hafter, List.forall_mem_cons, Bool.true_eq_false, false_and, false_or, true_and]
    rw [or_comm]
    refine or_congr_right ⟨?_, ?_⟩
    · rintro ⟨⟨j, hj, hv, hgroup⟩, hres⟩
      exact ⟨j, hj, hv, hres, hgroup⟩
    · rintro ⟨j, hj, hv, hres, hgroup⟩
      exact ⟨⟨j, hj, hv, hgroup⟩, hres⟩

theorem not_mem_liveOnEdge (hi : f.first? c = none) (liveIn : InstId → ValueSet) :
    v ∉ f.liveOnEdge b c liveIn := by
  have hlist : f.instsOf c = [] := List.head?_eq_none_iff.mp hi
  simp [mem_liveOnEdge, leadingPhis, afterPhis?, hlist]

/-- **The sets of a terminator**, in a solver whose sets solve its equations. -/
theorem liveOut_eq_liveOnEdges (h : f.PlacesAgree) (hs : Solved f s) (hi : i ∈ f.attached)
    (hterm : f.isTerminator i = true) (hb : f.parent? i = some b) :
    s.liveOut.get i = f.liveOnEdges b s.liveIn.get (f.successors i) := by
  refine ValueSet.ext fun v => ?_
  rw [(hs i hi).1, mem_outOf, mem_liveOnEdges, hterm]
  simp only [Bool.true_eq_false, false_and, or_false, true_and, hb]
  refine exists_congr fun c => and_congr_right fun _ => ?_
  cases hfirst : f.first? c with
  | none => simp [not_mem_liveOnEdge hfirst]
  | some j => simp [mem_contribution_first h hs hfirst]

/-- Passes that have converged have solved the equations. -/
theorem solved_iterate (h : Rising f s) (hs : s.phase ≠ .converged) {n : Nat}
    (hn : ((step f)^[n] s).phase = .converged) : Solved f ((step f)^[n] s) := by
  induction n generalizing s with
  | zero => exact absurd hn hs
  | succ n ih =>
    rw [Function.iterate_succ_apply] at hn ⊢
    by_cases ht : (s.step f).phase = .converged
    · have hfix : (step f)^[n] (s.step f) = s.step f :=
        Function.iterate_fixed (step_of_converged ht) n
      rw [hfix]
      exact solved_step h hs ht
    · exact ih h.step ht hn

end Solver

namespace Function

variable {f : Function}

/-- **The solver solves the equations of blocks**: it converges, and when it has, a value is live after
a terminator exactly when it is live along one of the edges out of its block. Along an edge, the
operands that the phis of the target pair with the source are live, and so is what is live after these
phis, without their results. -/
theorem liveOut_terminator (h : f.Coherent) (hc : f.Closed) :
    (∃ n, ((Solver.step f)^[n] .initial).phase = .converged ∧
      f.computeLiveness = .ok ((Solver.step f)^[n] .initial).liveness) ∧
    ∀ n, ((Solver.step f)^[n] .initial).phase = .converged →
      ∀ i ∈ f.attached, f.isTerminator i = true → ∀ b, f.parent? i = some b →
        ((Solver.step f)^[n] .initial).liveness.liveOut i =
          f.liveOnEdges b ((Solver.step f)^[n] .initial).liveness.liveIn (f.successors i) := by
  constructor
  · obtain ⟨n, hn⟩ := Solver.exists_iterate_eq (f := f) .initial f.passBound
    have hfinish : f.finish .initial = (Solver.step f)^[n] .initial := hn
    refine ⟨n, ?_, ?_⟩
    · rw [← hfinish]
      exact (Solver.converged_finish h.places).1
    · rw [← hfinish]
      exact computeLiveness_eq_ok hc.targetsExist
  · intro n hn i hi hterm b hb
    have hsolved := Solver.solved_iterate Solver.rising_initial (by simp [Solver.initial]) hn
    exact Solver.liveOut_eq_liveOnEdges h.places hsolved hi hterm hb

/-- A loop around three phis, of which one has no result and the others use one another, and an edge
that two pairs of one phi are for. -/
def phiTriangle : String :=
  "func @f(%n) \x7b\n ^a:\n br [^b]\n ^b:\n %i = phi [0, ^a], [%k, ^b], [%n, ^b]\n" ++
    " phi [%n, ^a], [%j, ^b]\n %k = phi [%n, ^a], [%i, ^b]\n %j = add %i, %k\n" ++
    " condbr %j [^b, ^c]\n ^c:\n ret %k\n\x7d"

/-- At the end of the loop all values are live, and in front of it the parameter is. -/
theorem liveOut_terminator_loop : ∃ f, parseModule phiTriangle = .ok [f] ∧
    (∃ n, ((Solver.step f)^[n] .initial).phase = .converged ∧
      f.computeLiveness = .ok ((Solver.step f)^[n] .initial).liveness) ∧
    (∃ l, f.computeLiveness = .ok l ∧ l.liveOut ⟨0⟩ = .ofList [⟨0⟩] ∧
      l.liveOut ⟨5⟩ = .ofList [⟨0⟩, ⟨1⟩, ⟨2⟩, ⟨3⟩]) ∧
    ∀ n, ((Solver.step f)^[n] .initial).phase = .converged →
      ∀ i ∈ f.attached, f.isTerminator i = true → ∀ b, f.parent? i = some b →
        ((Solver.step f)^[n] .initial).liveness.liveOut i =
          f.liveOnEdges b ((Solver.step f)^[n] .initial).liveness.liveIn (f.successors i) := by
  have hruns : Run.yieldsOne (parseModule phiTriangle) (fun f =>
      f.computeLiveness.toOption.any (fun l => l.liveOut ⟨0⟩ = .ofList [⟨0⟩] ∧
        l.liveOut ⟨5⟩ = .ofList [⟨0⟩, ⟨1⟩, ⟨2⟩, ⟨3⟩])) = true := by
    decide +kernel
  obtain ⟨f, hparse, hchecks⟩ := Run.exists_of_yieldsOne hruns
  obtain ⟨l, hl, hsets⟩ := Run.exists_eq_ok_and hchecks
  have hcomposed := composed_of_parseModule hparse f (by simp)
  obtain ⟨hconverges, hequations⟩ := liveOut_terminator hcomposed.built.coherent hcomposed.closed
  exact ⟨f, hparse, hconverges, ⟨l, hl, of_decide_eq_true hsets⟩, hequations⟩

end Function

end SsaPrune
