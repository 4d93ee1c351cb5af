import SsaPrune.Proofs.Liveness.Convergence

/-!
# Liveness along walks

What it means that a value is live, without sets and passes: control can go on from here, over
instructions that do not define the value, to one that uses it. A phi uses its values at the end of
the block that it pairs them with, together with the other phis at the start of its block.

`liveAfter_iff` unfolds one step of control. By it, sets that solve the equations of the solver
contain everything that a walk asks for (`mem_liveOut_of_liveAfter`), and the sets that the passes
reach from the empty ones contain nothing else (`Sound`).
-/

namespace SsaPrune

namespace Function

variable (f : Function)

/-! ## Walks -/

/-- Control may go from the first instruction to the second: to the next one of the block, or, from a
terminator, to the first one of a target. -/
inductive Follows : InstId → InstId → Prop
  | next {i j : InstId} {b : BlockId} {before after : List InstId}
      (hi : f.isTerminator i = false) (hb : f.instsOf b = before ++ i :: j :: after) : Follows i j
  | jump {i j : InstId} {b : BlockId} (hi : f.isTerminator i = true) (hb : b ∈ f.successors i)
      (hj : f.first? b = some j) : Follows i j

/-- `Walk f i between j`: control may go from `i` to `j` by one step or more, and the instructions
that it meets on the way are those of `between`. -/
inductive Walk : InstId → List InstId → InstId → Prop
  | one {i j : InstId} (h : f.Follows i j) : Walk i [] j
  | more {i k j : InstId} {between : List InstId} (h : f.Follows i k) (hw : Walk k between j) :
      Walk i (k :: between) j

/-- When control comes from `i` to `j`, the value is used: by `j` itself, or, if `j` is a phi, by one
of the phis at the start of its block for the block that `i` leaves. -/
def UsedOnArrival (i j : InstId) (v : ValueId) : Prop :=
  f.isPhi j = false ∧ v ∈ f.valueOperands j ∨
  f.isTerminator i = true ∧ f.isPhi j = true ∧ ∃ b c, i ∈ f.instsOf b ∧ j ∈ f.instsOf c ∧
    ∃ phi ∈ f.leadingPhis c, (b, .value v) ∈ f.incoming phi

/-- Some walk from `i` ends with a use of `v`, and no instruction on the way defines `v`. -/
def LiveAfter (v : ValueId) (i : InstId) : Prop :=
  ∃ between j, f.Walk i between j ∧ (∀ k ∈ between, f.result? k ≠ some v) ∧
    f.UsedOnArrival (between.getLastD i) j v

variable {f}

/-- **One step of control**: a value is live when the instruction that follows uses it, or when it is
live after that one, which does not define it. -/
theorem liveAfter_iff {v : ValueId} {i : InstId} : f.LiveAfter v i ↔
    ∃ j, f.Follows i j ∧
      (f.UsedOnArrival i j v ∨ f.result? j ≠ some v ∧ f.LiveAfter v j) := by
  constructor
  · rintro ⟨between, j, hw, hkeep, huse⟩
    cases hw with
    | one h => exact ⟨j, h, .inl huse⟩
    | more h hw =>
      refine ⟨_, h, .inr ⟨hkeep _ List.mem_cons_self, _, j, hw, fun k hk => ?_, ?_⟩⟩
      · exact hkeep k (List.mem_cons_of_mem _ hk)
      · rwa [List.getLastD_cons] at huse
  · rintro ⟨j, h, huse | ⟨hres, between, k, hw, hkeep, huse⟩⟩
    · exact ⟨[], j, .one h, by simp, huse⟩
    · refine ⟨j :: between, k, .more h hw, fun l hl => ?_, by rwa [List.getLastD_cons]⟩
      rcases List.mem_cons.mp hl with rfl | hl
      · exact hres
      · exact hkeep l hl

/-- A walk from an instruction can be cut where it leaves that instruction for the last time. -/
theorem Walk.exists_not_mem {d j : InstId} {between : List InstId} (h : f.Walk d between j) :
    ∃ between', f.Walk d between' j ∧ d ∉ between' := by
  suffices hcut : ∀ {i between}, f.Walk i between j →
      d ∉ between ∨ ∃ between', f.Walk d between' j ∧ d ∉ between' by
    rcases hcut h with hno | hshort
    · exact ⟨between, h, hno⟩
    · exact hshort
  intro i between hw
  induction hw with
  | one _ => exact .inl (by simp)
  | @more i k j between _ hw ih =>
    rcases ih h with hno | hshort
    · by_cases hk : k = d
      · subst hk
        exact .inr ⟨between, hw, hno⟩
      · exact .inl (by simp [Ne.symm hk, hno])
    · exact .inr hshort

/-- A value is live at the start of a walk that does not define it, when it is needed at the end. -/
theorem LiveAfter.of_walk {v : ValueId} {i j : InstId} {between : List InstId}
    (hw : f.Walk i between j) (hkeep : ∀ k ∈ between, f.result? k ≠ some v)
    (hend : ∀ k, f.Follows k j →
      f.UsedOnArrival k j v ∨ f.result? j ≠ some v ∧ f.LiveAfter v j) : f.LiveAfter v i := by
  induction hw with
  | one h => exact liveAfter_iff.mpr ⟨_, h, hend _ h⟩
  | @more i k j between h hw ih =>
    obtain ⟨hk, hkeep⟩ := List.forall_mem_cons.mp hkeep
    exact liveAfter_iff.mpr ⟨k, h, .inr ⟨hk, ih hkeep hend⟩⟩

/-! ## Successors in a coherent function -/

theorem follower?_eq_some_iff {α : Type} [DecidableEq α] {xs : List α} (hn : xs.Nodup) {x y : α} :
    follower? x xs = some y ↔ ∃ before after, xs = before ++ x :: y :: after := by
  induction xs with
  | nil => simp [follower?]
  | cons a rest ih =>
    obtain ⟨ha, hrest⟩ := List.nodup_cons.mp hn
    cases rest with
    | nil =>
      simp only [follower?, reduceCtorEq, false_iff]
      rintro ⟨before, after, h⟩
      have := congrArg List.length h
      simp at this
      omega
    | cons b rest =>
      unfold follower?
      split
      · rename_i hax
        subst hax
        constructor
        · rintro h
          cases h
          exact ⟨[], rest, rfl⟩
        · rintro ⟨before, after, h⟩
          cases before with
          | nil => simp at h; simp [h]
          | cons c before =>
            simp only [List.cons_append, List.cons.injEq] at h
            exact absurd (h.2 ▸ by simp) ha
      · rename_i hax
        rw [ih hrest]
        constructor
        · rintro ⟨before, after, h⟩
          exact ⟨a :: before, after, by rw [h]; rfl⟩
        · rintro ⟨before, after, h⟩
          cases before with
          | nil => simp at h; exact absurd h.1 hax
          | cons c before =>
            simp only [List.cons_append, List.cons.injEq] at h
            exact ⟨before, after, h.2⟩

theorem next?_eq_some_iff (h : f.PlacesAgree) {i j : InstId} :
    f.next? i = some j ↔ ∃ b before after, f.instsOf b = before ++ i :: j :: after := by
  simp only [next?, Option.bind_eq_some_iff]
  constructor
  · rintro ⟨b, -, hj⟩
    exact ⟨b, (follower?_eq_some_iff (h.nodup b)).mp hj⟩
  · rintro ⟨b, before, after, hb⟩
    have hi : i ∈ f.instsOf b := by simp [hb]
    exact ⟨b, (h.parent_iff i b).mpr hi, (follower?_eq_some_iff (h.nodup b)).mpr ⟨before, after, hb⟩⟩

theorem isTerminator_of_isPhi {i : InstId} (h : f.isPhi i = true) :
    f.isTerminator i = false := by
  cases hd : f.inst? i with
  | none => rw [isTerminator, hd]; rfl
  | some d =>
    rw [isPhi_of_inst? hd] at h
    have hphi : d.opcode = .phi := by simpa [Opcode.isPhi] using h
    rw [isTerminator_of_inst? hd, hphi]
    rfl

theorem mem_of_first? {b : BlockId} {i : InstId} (h : f.first? b = some i) : i ∈ f.instsOf b :=
  List.mem_of_mem_head? h

theorem mem_instsOf_of_mem_leadingPhis {b : BlockId} {phi : InstId}
    (h : phi ∈ f.leadingPhis b) : phi ∈ f.instsOf b :=
  List.takeWhile_subset _ h

theorem isPhi_of_mem_leadingPhis {b : BlockId} {phi : InstId} (h : phi ∈ f.leadingPhis b) :
    f.isPhi phi = true :=
  List.all_eq_true.mp List.all_takeWhile phi h

theorem exists_first?_of_mem_leadingPhis {b : BlockId} {phi : InstId}
    (h : phi ∈ f.leadingPhis b) : ∃ j, f.first? b = some j ∧ f.isPhi j = true := by
  cases hlist : f.instsOf b with
  | nil => simp [leadingPhis, hlist] at h
  | cons j rest =>
    refine ⟨j, by simp [first?, hlist], ?_⟩
    cases hj : f.isPhi j with
    | true => rfl
    | false => simp [leadingPhis, hlist, hj] at h

theorem Follows.mem_attached (h : f.PlacesAgree) {i j : InstId} (hf : f.Follows i j) :
    j ∈ f.attached := by
  cases hf with
  | next hi hb =>
    exact h.mem_attached (by rw [hb]; simp)
  | jump hi hb hj =>
    exact h.mem_attached (mem_of_first? hj)

end Function

namespace Solver

open SsaPrune.Function

variable {f : Function} {s : Solver} {i j : InstId} {v : ValueId}

/-- The edge along which control leaves an instruction. -/
def edge (f : Function) (i : InstId) : Option BlockId :=
  if f.isTerminator i then f.parent? i else none

theorem mem_outOf_iff_follows (h : f.PlacesAgree) :
    v ∈ s.outOf f i ↔ ∃ j, f.Follows i j ∧ v ∈ s.contribution f j (edge f i) := by
  rw [mem_outOf, edge]
  constructor
  · rintro (⟨hi, b, hb, j, hj, hv⟩ | ⟨hi, j, hj, hv⟩)
    · exact ⟨j, .jump hi hb hj, by rwa [hi]⟩
    · obtain ⟨b, before, after, hb⟩ := (next?_eq_some_iff h).mp hj
      exact ⟨j, .next hi hb, by rwa [hi]⟩
  · rintro ⟨j, hf, hv⟩
    cases hf with
    | next hi hb =>
      rw [hi] at hv
      exact .inr ⟨hi, j, (next?_eq_some_iff h).mpr ⟨_, _, _, hb⟩, hv⟩
    | jump hi hb hj =>
      rw [hi] at hv
      exact .inl ⟨hi, _, hb, j, hj, hv⟩

/-- What a phi uses along the edge by which control comes from an attached instruction. -/
theorem mem_edgeUses_iff (h : f.PlacesAgree) (hi : i ∈ f.attached) (hf : f.Follows i j)
    (hj : f.isPhi j = true) :
    (∃ b, edge f i = some b ∧ ∃ used, f.edgeUsesFrom? j b = some used ∧ v ∈ used) ↔
      f.UsedOnArrival i j v := by
  obtain ⟨b, hb⟩ := h.mem_attached_iff.mp hi
  cases hf with
  | next ht hc => simp [edge, ht, UsedOnArrival, hj]
  | jump ht hc hfirst =>
    rename_i c
    have hjc := mem_of_first? hfirst
    simp only [edge, ht, hb, if_true, Option.some.injEq, exists_eq_left', UsedOnArrival, hj,
      mem_edgeUses_first h hfirst, true_and, Bool.true_eq_false, false_and, false_or]
    constructor
    · exact fun hphi => ⟨b, c, (h.parent_iff i b).mp hb, hjc, hphi⟩
    · rintro ⟨b', c', hib, hjc', hphi⟩
      rw [h.eq_of_mem hib ((h.parent_iff i b).mp hb), h.eq_of_mem hjc' hjc] at hphi
      exact hphi

/-! ## The sets hold what the walks ask for -/

theorem mem_liveOut_of_liveAfter (h : f.PlacesAgree) (hs : Solved f s) (hi : i ∈ f.attached)
    (hv : f.LiveAfter v i) : v ∈ s.liveOut.get i := by
  obtain ⟨between, j, hw, hkeep, huse⟩ := hv
  induction hw with
  | @one i j hf =>
    have hj := hf.mem_attached h
    rw [(hs i hi).1, mem_outOf_iff_follows h]
    refine ⟨j, hf, mem_contribution.mpr ?_⟩
    cases hp : f.isPhi j with
    | true => exact .inr ⟨rfl, .inr ((mem_edgeUses_iff h hi hf hp).mpr huse)⟩
    | false =>
      have huse : v ∈ f.valueOperands j := by
        rcases huse with ⟨-, huse⟩ | ⟨-, hphi, -⟩
        · exact huse
        · exact absurd hphi (by simp [hp])
      rw [(hs j hj).2]
      exact .inl ⟨rfl, mem_inOf.mpr (.inr ⟨hp, huse⟩)⟩
  | @more i k j between hf hw ih =>
    have hk := hf.mem_attached h
    have hres : f.result? k ≠ some v := hkeep k List.mem_cons_self
    rw [List.getLastD_cons] at huse
    have hout := ih hk (fun l hl => hkeep l (List.mem_cons_of_mem _ hl)) huse
    rw [(hs i hi).1, mem_outOf_iff_follows h]
    refine ⟨k, hf, mem_contribution.mpr ?_⟩
    cases hp : f.isPhi k with
    | true => exact .inr ⟨rfl, .inl ⟨hout, hres⟩⟩
    | false =>
      rw [(hs k hk).2]
      exact .inl ⟨rfl, mem_inOf.mpr (.inl ⟨hout, hres⟩)⟩

/-! ## The sets hold nothing else -/

/-- Every value in a set is there because of a walk. -/
def Sound (f : Function) (s : Solver) : Prop :=
  ∀ i v, (v ∈ s.liveOut.get i → f.LiveAfter v i) ∧
    (v ∈ s.liveIn.get i → f.LiveAfter v i ∧ f.result? i ≠ some v ∨
      f.isPhi i = false ∧ v ∈ f.valueOperands i)

theorem sound_initial : Sound f initial := fun i v => by
  simp only [initial, SideTable.get_empty]
  exact ⟨fun h => absurd h (ValueSet.not_mem_empty v), fun h => absurd h (ValueSet.not_mem_empty v)⟩

theorem Sound.liveAfter_of_mem_outOf (h : f.PlacesAgree) (hs : Sound f s) (hi : i ∈ f.attached)
    (hv : v ∈ s.outOf f i) : f.LiveAfter v i := by
  obtain ⟨j, hf, hv⟩ := (mem_outOf_iff_follows h).mp hv
  refine liveAfter_iff.mpr ⟨j, hf, ?_⟩
  rcases mem_contribution.mp hv with ⟨hp, hv⟩ | ⟨hp, ⟨hv, hr⟩ | hv⟩
  · rcases (hs j v).2 hv with ⟨hv, hr⟩ | huse
    · exact .inr ⟨hr, hv⟩
    · exact .inl (.inl huse)
  · exact .inr ⟨hr, (hs j v).1 hv⟩
  · exact .inl ((mem_edgeUses_iff h hi hf hp).mp hv)

theorem Sound.transfer (h : f.PlacesAgree) (hs : Sound f s) (hi : i ∈ f.attached) :
    Sound f (s.transfer f i) := by
  intro j v
  rw [get_liveIn_transfer, get_liveOut_transfer]
  by_cases hij : i = j
  · subst hij
    simp only [if_true, mem_inOf]
    have hout := hs.liveAfter_of_mem_outOf h hi (v := v)
    exact ⟨hout, Or.imp_left fun hv => ⟨hout hv.1, hv.2⟩⟩
  · simpa only [if_neg hij] using hs j v

theorem Sound.foldl (h : f.PlacesAgree) (hs : Sound f s) {is : List InstId}
    (his : ∀ i ∈ is, i ∈ f.attached) : Sound f (is.foldl (Solver.transfer f) s) := by
  induction is generalizing s with
  | nil => exact hs
  | cons i is ih =>
    exact ih (hs.transfer h (his i List.mem_cons_self)) fun j hj =>
      his j (List.mem_cons_of_mem _ hj)

theorem Sound.step (h : f.PlacesAgree) (hs : Sound f s) : Sound f (s.step f) := by
  by_cases hp : s.phase = .converged
  · rwa [step_of_converged hp]
  · rw [step_of_ne hp]
    exact hs.foldl h fun _ hi => hi

theorem Sound.iterate (h : f.PlacesAgree) (hs : Sound f s) (n : Nat) :
    Sound f ((Solver.step f)^[n] s) := by
  induction n generalizing s with
  | zero => exact hs
  | succ n ih => exact ih (hs.step h)

/-! ## Converged sets -/

/-- **The converged sets are those of the walks.** -/
theorem mem_finish (h : f.PlacesAgree) (hi : i ∈ f.attached) :
    (v ∈ (f.finish initial).liveOut.get i ↔ f.LiveAfter v i) ∧
    (v ∈ (f.finish initial).liveIn.get i ↔
      v ∈ (f.finish initial).liveOut.get i ∧ f.result? i ≠ some v ∨
      f.isPhi i = false ∧ v ∈ f.valueOperands i) := by
  have hsol := (converged_finish h).2
  obtain ⟨n, hn⟩ := exists_iterate_eq (f := f) initial f.passBound
  have hsound : Sound f (f.finish initial) := by
    rw [Function.finish, hn]
    exact sound_initial.iterate h n
  refine ⟨⟨(hsound i v).1, mem_liveOut_of_liveAfter h hsol hi⟩, ?_⟩
  rw [(hsol i hi).2, mem_inOf]

end Solver

end SsaPrune
