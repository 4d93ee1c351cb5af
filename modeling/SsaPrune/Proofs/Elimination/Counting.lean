import Mathlib.Algebra.BigOperators.Intervals
import Mathlib.Algebra.Order.BigOperators.Group.Finset
import Mathlib.Order.Bounds.Basic
import SsaPrune.Proofs.Sessions

/-!
# What rounds count, and where a limit stops them

Rounds that are made one after the other, without end, take out some instructions each; the first one
that takes out nothing is `last`, and all after it take out nothing either. Elimination makes these
rounds up to `last`, or as many as its limit allows, whichever is less. It answers how many rounds it
made, how many instructions went in them, and whether it got as far as `last`.

So a limit only cuts a run short: what is left of it by another run is what one run without a limit would
have done.
-/

namespace SsaPrune.Function

variable {f g : Function} {strategy : Strategy} {left : Nat → Function} {removed : Nat → Nat}
  {last : Nat}

/-- Rounds made one after the other, from `left 0` on: the round with number `k` is made on `left k`,
says that it took out `removed k` instructions, and leaves `left (k + 1)`. -/
def Successive (strategy : Strategy) (left : Nat → Function) (removed : Nat → Nat) : Prop :=
  ∀ k, Edit.sweep strategy (left k) = .ok (removed k) (left (k + 1))

namespace Successive

/-- The rounds from a later one on. -/
theorem shift (h : Successive strategy left removed) (m : Nat) :
    Successive strategy (fun k => left (m + k)) fun k => removed (m + k) :=
  fun k => h (m + k)

/-! ## One round -/

theorem sound (h : Successive strategy left removed) (hf : (left 0).Sound) (k : Nat) :
    (left k).Sound := by
  induction k with
  | zero => exact hf
  | succ k ih =>
    obtain ⟨out, g, hg, -, hs⟩ := ih.exists_sweep strategy
    obtain ⟨-, hleft⟩ := EStateM.Result.ok.inj ((h k).symm.trans hg)
    rwa [hleft]

theorem exists_swept (h : Successive strategy left removed) (hf : (left 0).Sound) (k : Nat) :
    ∃ out, out.length = removed k ∧ (left k).Swept (left (k + 1)) out := by
  obtain ⟨out, g, hg, hs, -⟩ := (h.sound hf k).exists_sweep strategy
  obtain ⟨hremoved, hleft⟩ := EStateM.Result.ok.inj ((h k).symm.trans hg)
  exact ⟨out, hremoved.symm, hleft ▸ hs⟩

/-- A round says exactly how many instructions fewer it leaves. -/
theorem numInsts_add (h : Successive strategy left removed) (hf : (left 0).Sound) (k : Nat) :
    (left (k + 1)).numInsts + removed k = (left k).numInsts := by
  obtain ⟨out, hout, hs⟩ := h.exists_swept hf k
  rw [← hout]
  exact hs.numInsts_add (h.sound hf k).places

theorem eq_of_zero (h : Successive strategy left removed) (hf : (left 0).Sound) {k : Nat}
    (hk : removed k = 0) : left (k + 1) = left k := by
  obtain ⟨out, hout, hs⟩ := h.exists_swept hf k
  rw [hk] at hout
  exact hs.eq_of_nil (List.eq_nil_of_length_eq_zero hout)

/-! ## The first round that takes out nothing -/

theorem numInsts_add_sum (h : Successive strategy left removed) (hf : (left 0).Sound) (n : Nat) :
    (left n).numInsts + ∑ k ∈ Finset.range n, removed k = (left 0).numInsts := by
  induction n with
  | zero => simp
  | succ n ih =>
    have := h.numInsts_add hf n
    rw [Finset.sum_range_succ]
    omega

theorem le_sum {n : Nat} (hpos : ∀ k < n, removed k ≠ 0) :
    n ≤ ∑ k ∈ Finset.range n, removed k := by
  have hsum := (Finset.range n).card_nsmul_le_sum removed 1 fun k hk =>
    Nat.one_le_iff_ne_zero.mpr (hpos k (Finset.mem_range.mp hk))
  simpa using hsum

theorem exists_isLeast (h : Successive strategy left removed) (hf : (left 0).Sound) :
    ∃ last, IsLeast {k | removed k = 0} last := by
  have hzero : ∃ k, removed k = 0 := by
    by_contra! hpos
    have hmany := le_sum (n := (left 0).numInsts + 1) fun k _ => hpos k
    have hfew := h.numInsts_add_sum hf ((left 0).numInsts + 1)
    omega
  exact ⟨Nat.find hzero, Nat.find_spec hzero, fun k hk => Nat.find_min' hzero hk⟩

theorem ne_zero_of_isLeast (hlast : IsLeast {k | removed k = 0} last) {n : Nat} (hn : n ≤ last) :
    ∀ k < n, removed k ≠ 0 := by
  intro k hk hzero
  have := hlast.2 hzero
  omega

/-! ## Runs of rounds -/

/-- Rounds that all take out something are made until the budget is used up. -/
theorem rounds_of_pos (h : Successive strategy left removed) {budget : Nat}
    (hpos : ∀ k < budget, removed k ≠ 0) (total done : Nat) :
    Edit.rounds strategy total done budget (left 0) =
      .ok ⟨total + ∑ k ∈ Finset.range budget, removed k, done + budget, false⟩ (left budget) := by
  induction budget generalizing left removed total done with
  | zero => rfl
  | succ budget ih =>
    rw [rounds_succ (h 0), if_neg (hpos 0 budget.succ_pos)]
    have hrest : Successive strategy (fun k => left (k + 1)) fun k => removed (k + 1) :=
      fun k => h (k + 1)
    have hrun := ih hrest (fun k hk => hpos (k + 1) (Nat.succ_lt_succ hk)) (total + removed 0) (done + 1)
    rw [Finset.sum_range_succ', hrun]
    congr 2 <;> omega

/-- With a larger budget, rounds are made up to the first one that takes out nothing. -/
theorem rounds_of_isLeast (h : Successive strategy left removed) (hzero : removed last = 0)
    (hpos : ∀ k < last, removed k ≠ 0) {budget : Nat} (hbudget : last < budget) (total done : Nat) :
    Edit.rounds strategy total done budget (left 0) =
      .ok ⟨total + ∑ k ∈ Finset.range (last + 1), removed k, done + (last + 1), true⟩
        (left (last + 1)) := by
  induction last generalizing left removed total done budget with
  | zero =>
    obtain ⟨budget, rfl⟩ := Nat.exists_eq_add_of_lt hbudget
    rw [Nat.zero_add, rounds_succ (h 0), if_pos hzero]
    simp [hzero]
  | succ last ih =>
    obtain ⟨budget, rfl⟩ : ∃ rest, budget = rest + 1 := ⟨budget - 1, by omega⟩
    rw [rounds_succ (h 0), if_neg (hpos 0 last.succ_pos)]
    have hrest : Successive strategy (fun k => left (k + 1)) fun k => removed (k + 1) :=
      fun k => h (k + 1)
    have hrun := ih hrest hzero (fun k hk => hpos (k + 1) (Nat.succ_lt_succ hk))
      (Nat.lt_of_succ_lt_succ hbudget) (total + removed 0) (done + 1)
    rw [Finset.sum_range_succ', hrun]
    congr 2 <;> omega

/-! ## Elimination -/

/-- A limit that is reached before anything else. -/
theorem eliminate_of_le (h : Successive strategy left removed)
    (hlast : IsLeast {k | removed k = 0} last) {m : Nat} (hm : m ≤ last) :
    Edit.eliminate ⟨strategy, some m⟩ (left 0) =
      .ok ⟨∑ k ∈ Finset.range m, removed k, m, false⟩ (left m) := by
  have hrun := h.rounds_of_pos (ne_zero_of_isLeast hlast hm) 0 0
  rwa [Nat.zero_add, Nat.zero_add] at hrun

/-- No limit, or one that leaves room for the round that takes out nothing. -/
theorem eliminate_of_lt (h : Successive strategy left removed) (hf : (left 0).Sound)
    (hlast : IsLeast {k | removed k = 0} last) (limit : Option Nat) (hlimit : ∀ m ∈ limit, last < m) :
    Edit.eliminate ⟨strategy, limit⟩ (left 0) =
      .ok ⟨∑ k ∈ Finset.range (last + 1), removed k, last + 1, true⟩ (left (last + 1)) := by
  have hpos := ne_zero_of_isLeast hlast (Nat.le_refl last)
  have hbudget : last < limit.getD ((left 0).numInsts + 1) := by
    cases limit with
    | none =>
      have hmany := le_sum hpos
      have hfew := h.numInsts_add_sum hf last
      change last < (left 0).numInsts + 1
      omega
    | some m => exact hlimit m rfl
  have hrun := h.rounds_of_isLeast hlast.1 hpos hbudget 0 0
  rwa [Nat.zero_add, Nat.zero_add] at hrun

/-- After a round that took out nothing, one more round finds nothing either. -/
theorem eliminate_again (h : Successive strategy left removed) (hf : (left 0).Sound)
    (hlast : removed last = 0) {limit : Option Nat} (hlimit : limit ≠ some 0) :
    Edit.eliminate ⟨strategy, limit⟩ (left (last + 1)) = .ok ⟨0, 1, true⟩ (left (last + 1)) := by
  have hsame := h.eq_of_zero hf hlast
  have hround := h last
  rw [hlast, ← hsame] at hround
  exact eliminate_of_sweep_eq_zero hround hlimit

/-- **A run with a limit, and a second one without, do together what one run without a limit does.** -/
theorem eliminate_twice (h : Successive strategy left removed) (hf : (left 0).Sound)
    (hlast : IsLeast {k | removed k = 0} last) (m : Nat) : ∃ a g b c,
      Edit.eliminate ⟨strategy, some m⟩ (left 0) = .ok a g ∧
      Edit.eliminate ⟨strategy, none⟩ g = .ok b (left (last + 1)) ∧
      Edit.eliminate ⟨strategy, none⟩ (left 0) = .ok c (left (last + 1)) ∧
      a.removed + b.removed = c.removed := by
  have hall := h.eliminate_of_lt hf hlast none (by simp)
  by_cases hm : m ≤ last
  · -- the second run makes the rounds from `m` on
    obtain ⟨n, rfl⟩ := Nat.exists_eq_add_of_le hm
    have hrest : IsLeast {k | removed (m + k) = 0} n :=
      ⟨hlast.1, fun k hk => Nat.le_of_add_le_add_left (hlast.2 hk)⟩
    refine ⟨_, _, _, _, h.eliminate_of_le hlast hm,
      (h.shift m).eliminate_of_lt (h.sound hf m) hrest none (by simp), hall, ?_⟩
    exact (Finset.sum_range_add removed m (n + 1)).symm
  · have hwhole := h.eliminate_of_lt hf hlast (some m) (by simpa using hm)
    exact ⟨_, _, _, _, hwhole, h.eliminate_again hf hlast.1 (by simp), hall, rfl⟩

end Successive

/-- On a sound function rounds can be made without end. -/
theorem Sound.exists_successive (hf : f.Sound) (strategy : Strategy) :
    ∃ left removed, left 0 = f ∧ Successive strategy left removed := by
  have hround : ∀ g : Function, g.Sound → ∃ n,
      Edit.sweep strategy g = .ok n ((Edit.sweep strategy).final g) ∧
        ((Edit.sweep strategy).final g).Sound := by
    intro g hg
    obtain ⟨out, g', hg', -, hs⟩ := hg.exists_sweep strategy
    rw [Edit.final_of_ok hg']
    exact ⟨_, hg', hs⟩
  have hsound : ∀ k, ((Edit.sweep strategy).final^[k] f).Sound := by
    intro k
    induction k with
    | zero => exact hf
    | succ k ih =>
      obtain ⟨-, -, hnext⟩ := hround _ ih
      rwa [Function.iterate_succ_apply']
  have hrounds : ∀ k, ∃ n, Edit.sweep strategy ((Edit.sweep strategy).final^[k] f) =
      .ok n ((Edit.sweep strategy).final^[k + 1] f) := by
    intro k
    obtain ⟨n, hn, -⟩ := hround _ (hsound k)
    rw [Function.iterate_succ_apply']
    exact ⟨n, hn⟩
  choose removed hremoved using hrounds
  exact ⟨_, removed, rfl, hremoved⟩

/-- **What elimination counts is exact, and so is its limit.** Each round says how many instructions
fewer it leaves, and no more of them are made up to the first one that takes out nothing than there
are instructions, and that one. Elimination makes the rounds up to this one, or as many as its limit
allows, adds up what they say, and knows whether it got so far. So a run can be cut short and taken up
again, and once it got so far, another one finds nothing. -/
theorem exists_successive_rounds {text : String} {fs : List Function}
    (hparse : parseModule text = .ok fs) (hf : f ∈ fs) (strategy : Strategy) :
    ∃ left removed last, Successive strategy left removed ∧ left 0 = f ∧
      (∀ k, (left (k + 1)).numInsts + removed k = (left k).numInsts) ∧
      IsLeast {k | removed k = 0} last ∧
      last ≤ ∑ k ∈ Finset.range last, removed k ∧
      ∑ k ∈ Finset.range last, removed k ≤ f.numInsts ∧
      (∀ limit : Option Nat, (∀ m ∈ limit, last < m) → Edit.eliminate ⟨strategy, limit⟩ f =
        .ok ⟨∑ k ∈ Finset.range (last + 1), removed k, last + 1, true⟩ (left (last + 1))) ∧
      (∀ m ≤ last, Edit.eliminate ⟨strategy, some m⟩ f =
        .ok ⟨∑ k ∈ Finset.range m, removed k, m, false⟩ (left m)) ∧
      (∀ m, ∃ a g b h c, Edit.eliminate ⟨strategy, some m⟩ f = .ok a g ∧
        Edit.eliminate ⟨strategy, none⟩ g = .ok b h ∧ Edit.eliminate ⟨strategy, none⟩ f = .ok c h ∧
        a.removed + b.removed = c.removed) ∧
      ∀ limit r g, Edit.eliminate ⟨strategy, limit⟩ f = .ok r g → r.reachedFixpoint = true →
        ∀ again, again ≠ some 0 → Edit.eliminate ⟨strategy, again⟩ g = .ok ⟨0, 1, true⟩ g := by
  have hsound := sound_of_parseModule hparse f hf
  obtain ⟨left, removed, rfl, h⟩ := hsound.exists_successive strategy
  obtain ⟨last, hlast⟩ := h.exists_isLeast hsound
  have hfew := h.numInsts_add_sum hsound last
  refine ⟨left, removed, last, h, rfl, h.numInsts_add hsound, hlast,
    Successive.le_sum (Successive.ne_zero_of_isLeast hlast (Nat.le_refl last)), by omega,
    h.eliminate_of_lt hsound hlast, fun m => h.eliminate_of_le hlast, fun m => ?_, ?_⟩
  · obtain ⟨a, g, b, c, ha, hb, hc, hsum⟩ := h.eliminate_twice hsound hlast m
    exact ⟨a, g, b, _, c, ha, hb, hc, hsum⟩
  · intro limit r g hrun hended again hagain
    by_cases hlimit : ∀ m ∈ limit, last < m
    · have hall := h.eliminate_of_lt hsound hlast limit hlimit
      obtain ⟨-, rfl⟩ := EStateM.Result.ok.inj (hrun.symm.trans hall)
      exact h.eliminate_again hsound hlast.1 hagain
    · push Not at hlimit
      obtain ⟨m, hm, hle⟩ := hlimit
      obtain rfl := Option.mem_def.mp hm
      obtain ⟨rfl, -⟩ := EStateM.Result.ok.inj (hrun.symm.trans (h.eliminate_of_le hlast hle))
      cases hended

/-- A chain of three dead instructions, which goes in three rounds by liveness and in one by the lists
of uses. -/
theorem exists_successive_rounds_chain :
    ∃ fs, parseModule ("func @f() \x7b\n ^a:\n %x = copy 1\n %y = copy %x\n %z = copy %y\n" ++
        " ret\n\x7d") = .ok fs ∧ fs.length = 1 ∧
      ∀ f ∈ fs, ∀ strategy, ∃ left removed last, Successive strategy left removed ∧ left 0 = f ∧
        IsLeast {k | removed k = 0} last ∧ (left (last + 1)).attached = [⟨3⟩] ∧
        Edit.eliminate ⟨strategy, none⟩ f =
          .ok ⟨∑ k ∈ Finset.range (last + 1), removed k, last + 1, true⟩ (left (last + 1)) := by
  refine (Run.exists_eq_ok_and (p := fun fs => fs.length = 1 && fs.all fun f =>
    [Strategy.liveness, .useChain].all fun strategy =>
      Run.succeeds (Edit.eliminate ⟨strategy, none⟩ f) fun g => g.attached = [⟨3⟩]) ?_).imp
    fun fs hfs => ⟨hfs.1, ?_⟩
  · decide +kernel
  · have hchecks := hfs.2
    simp only [Bool.and_eq_true, decide_eq_true_iff, List.all_eq_true] at hchecks
    refine ⟨hchecks.1, fun f hf strategy => ?_⟩
    have hstrategy : strategy ∈ [Strategy.liveness, .useChain] := by cases strategy <;> simp
    obtain ⟨left, removed, last, h, h0, -, hlast, -, -, hall, -⟩ :=
      exists_successive_rounds hfs.1 hf strategy
    have hrun := hall none (by simp)
    obtain ⟨r, g, hg, hleft⟩ := Run.exists_of_succeeds (hchecks.2 f hf strategy hstrategy)
    obtain ⟨-, rfl⟩ := EStateM.Result.ok.inj (hrun.symm.trans hg)
    exact ⟨left, removed, last, h, h0, hlast, of_decide_eq_true hleft, hrun⟩

end SsaPrune.Function
