import Mathlib.Data.Finset.Card
import SsaPrune.Proofs.Liveness.Exactness
import SsaPrune.Validation

/-!
# How many passes the solver makes

Every pass but the last changes a set. After the first pass the set before an instruction is told by
the set after it, so from then on a change is a value that one more instruction holds after it. And one
value accounts for all of these changes: what a pass does with a value depends on nothing but who
contributes the value (`Agree`), so a value that stands still for one pass stands still for good. Hence
there are at most two passes more than instructions.

One of the two is made by a single shape, the `LoneLoop`: the last instruction of the layout sees all
others as they are after the pass, so it can be late only by waiting for itself.
-/

namespace SsaPrune

namespace Solver

open SsaPrune.Function

variable {f : Function} {s t : Solver} {i j : InstId} {v : ValueId}

/-! ## Steps as passes -/

/-- The sets after so many passes. -/
def passed (f : Function) (n : Nat) : Solver := (pass f)^[n] initial

theorem passed_succ (n : Nat) : passed f (n + 1) = (passed f n).pass f :=
  Function.iterate_succ_apply' ..

/-- Passes ask neither for the phase nor for their number. -/
theorem foldl_transfer_relabel (ph : Phase) (n : Nat) (is : List InstId) :
    is.foldl (transfer f) { s with phase := ph, passes := n } =
      { is.foldl (transfer f) s with phase := ph, passes := n } := by
  induction is generalizing s with
  | nil => rfl
  | cons i is ih => exact ih (s := s.transfer f i)

theorem iterate_pass_relabel (ph : Phase) (n k : Nat) :
    (pass f)^[k] { s with phase := ph, passes := n } =
      { (pass f)^[k] s with phase := ph, passes := n } := by
  induction k generalizing s with
  | zero => rfl
  | succ k ih =>
    rw [Function.iterate_succ_apply, Function.iterate_succ_apply, ← ih]
    exact congrArg (pass f)^[k] (foldl_transfer_relabel ph n f.attached)

/-- A solver that converges has made passes that changed something, and one that did not. -/
theorem exists_passes_iterate {bound : Nat} (hs : s.phase ≠ .converged)
    (hc : (s.iterate f bound).phase = .converged) :
    ∃ m, (s.iterate f bound).passes = s.passes + m + 1 ∧
      (∀ p < m, ((pass f)^[p + 1] s).differs f ((pass f)^[p] s) = true) ∧
      ((pass f)^[m + 1] s).differs f ((pass f)^[m] s) = false := by
  induction bound generalizing s with
  | zero => exact absurd hc hs
  | succ bound ih =>
    rw [iterate] at hc ⊢
    have hstep := step_of_ne (f := f) hs
    cases hd : (s.pass f).differs f s with
    | false =>
      simp only [hstep, hd, Bool.false_eq_true, if_false, if_true]
      exact ⟨0, rfl, by simp, hd⟩
    | true =>
      simp only [hstep, hd, if_true, reduceCtorEq, if_false] at hc ⊢
      obtain ⟨m, hpasses, hdiffer, hlast⟩ := ih (by simp) hc
      simp only [iterate_pass_relabel] at hdiffer hlast
      change _ = s.passes + 1 + m + 1 at hpasses
      refine ⟨m + 1, by omega, fun p hp => ?_, hlast⟩
      cases p with
      | zero => exact hd
      | succ p => exact hdiffer p (by omega)

theorem rising_passed (n : Nat) : Rising f (passed f n) := by
  induction n with
  | zero => exact rising_initial
  | succ n ih =>
    rw [passed_succ]
    exact ih.pass

theorem passed_le_succ (n : Nat) : (passed f n).Le (passed f (n + 1)) := by
  rw [passed_succ]
  exact (rising_passed n).le_pass

/-! ## After the first pass -/

/-- The set before each instruction is told by the set after it. -/
def Settled (f : Function) (s : Solver) : Prop :=
  ∀ i ∈ f.attached, s.liveIn.get i = inOf f i (s.liveOut.get i)

theorem settled_pass : Settled f (s.pass f) := by
  suffices hfold : ∀ {is : List InstId} {s : Solver} {i}, i ∈ is →
      (is.foldl (transfer f) s).liveIn.get i = inOf f i ((is.foldl (transfer f) s).liveOut.get i) from
    fun i hi => hfold hi
  intro is
  induction is with
  | nil => simp
  | cons k is ih =>
    intro s i hi
    by_cases his : i ∈ is
    · exact ih his
    · obtain rfl : i = k := (List.mem_cons.mp hi).resolve_right his
      obtain ⟨hin, hout⟩ := get_foldl_of_notMem (f := f) (s := s.transfer f i) his
      rw [List.foldl_cons, hin, hout, get_liveIn_transfer, get_liveOut_transfer, if_pos rfl,
        if_pos rfl]

theorem settled_passed {n : Nat} (hn : 1 ≤ n) : Settled f (passed f n) := by
  obtain ⟨k, rfl⟩ := Nat.exists_eq_add_of_le' hn
  rw [passed_succ]
  exact settled_pass

/-! ## What one value does -/

/-- The instruction contributes the value to those before it, along whatever edge. -/
def Carries (f : Function) (s : Solver) (v : ValueId) (j : InstId) : Prop :=
  f.isPhi j = false ∧ v ∈ s.liveIn.get j ∨
    f.isPhi j = true ∧ v ∈ s.liveOut.get j ∧ f.result? j ≠ some v

/-- The phi contributes the value along the edge from `i`. -/
def OnEdge (f : Function) (i j : InstId) (v : ValueId) : Prop :=
  f.isPhi j = true ∧ ∃ b, edge f i = some b ∧ ∃ used, f.edgeUsesFrom? j b = some used ∧ v ∈ used

theorem mem_outOf_iff_carries (hp : f.PlacesAgree) : v ∈ s.outOf f i ↔
    ∃ j, f.Follows i j ∧ (Carries f s v j ∨ OnEdge f i j v) := by
  simp only [mem_outOf_iff_follows hp, mem_contribution, Carries, OnEdge, and_or_left, or_assoc]

theorem carries_transfer : Carries f (s.transfer f i) v j ↔
    if i = j then v ∈ s.outOf f i ∧ f.result? i ≠ some v ∨
      f.isPhi i = false ∧ v ∈ f.valueOperands i
    else Carries f s v j := by
  unfold Carries
  rw [get_liveIn_transfer, get_liveOut_transfer]
  by_cases hij : i = j
  · subst hij
    cases hphi : f.isPhi i <;> simp [mem_inOf, hphi]
  · simp only [if_neg hij]

theorem Settled.carries_iff (hs : Settled f s) (hj : j ∈ f.attached) : Carries f s v j ↔
    v ∈ s.liveOut.get j ∧ f.result? j ≠ some v ∨ f.isPhi j = false ∧ v ∈ f.valueOperands j := by
  unfold Carries
  rw [hs j hj]
  cases hphi : f.isPhi j <;> simp [mem_inOf, hphi]

/-- The same instructions contribute the value. -/
def Agree (f : Function) (v : ValueId) (s t : Solver) : Prop :=
  ∀ j, Carries f s v j ↔ Carries f t v j

theorem Agree.mem_outOf_iff (hp : f.PlacesAgree) (h : Agree f v s t) (i : InstId) :
    v ∈ s.outOf f i ↔ v ∈ t.outOf f i := by
  simp only [mem_outOf_iff_carries hp, h _]

theorem Agree.transfer (hp : f.PlacesAgree) (h : Agree f v s t) (i : InstId) :
    Agree f v (s.transfer f i) (t.transfer f i) := by
  intro j
  simp only [carries_transfer, h.mem_outOf_iff hp i, h j]

/-- What transfers do with a value is told by who contributes it at the start. -/
theorem Agree.mem_foldl_iff (hp : f.PlacesAgree) (h : Agree f v s t) {is : List InstId}
    (hi : i ∈ is) : v ∈ (is.foldl (Solver.transfer f) s).liveOut.get i ↔
      v ∈ (is.foldl (Solver.transfer f) t).liveOut.get i := by
  induction is generalizing s t with
  | nil => simp at hi
  | cons k is ih =>
    by_cases his : i ∈ is
    · exact ih (h.transfer hp k) his
    · obtain rfl : i = k := (List.mem_cons.mp hi).resolve_right his
      rw [List.foldl_cons, List.foldl_cons, (get_foldl_of_notMem his).2,
        (get_foldl_of_notMem his).2, get_liveOut_transfer, get_liveOut_transfer, if_pos rfl,
        if_pos rfl]
      exact h.mem_outOf_iff hp i

/-! ## Who holds a value -/

/-- The instructions after which the value is in the sets. -/
def holders (f : Function) (v : ValueId) (s : Solver) : Finset InstId :=
  f.attached.toFinset.filter fun i => v ∈ s.liveOut.get i

theorem mem_holders : i ∈ holders f v s ↔ i ∈ f.attached ∧ v ∈ s.liveOut.get i := by
  simp [holders]

theorem holders_subset_of_le (h : s.Le t) : holders f v s ⊆ holders f v t := by
  intro i hi
  obtain ⟨hi, hv⟩ := mem_holders.mp hi
  exact mem_holders.mpr ⟨hi, (h i).2 v hv⟩

theorem card_holders_le : (holders f v s).card ≤ f.numInsts :=
  (Finset.card_filter_le ..).trans (List.toFinset_card_le _)

theorem Agree.holders_pass (hp : f.PlacesAgree) (h : Agree f v s t) :
    holders f v (s.pass f) = holders f v (t.pass f) := by
  ext i
  simp only [mem_holders]
  exact and_congr_right fun hi => h.mem_foldl_iff hp hi

/-- A value that stood still for a pass is contributed as before. -/
theorem agree_pass
    (h : ∀ j ∈ f.attached, Carries f (s.pass f) v j ↔ Carries f s v j) :
    Agree f v (s.pass f) s := by
  intro j
  by_cases hj : j ∈ f.attached
  · exact h j hj
  · obtain ⟨hin, hout⟩ := get_foldl_of_notMem (f := f) (s := s) hj
    unfold Carries
    rw [pass, hin, hout]

/-- Once settled, a value that no further instruction holds stands still for good. -/
theorem holders_pass_eq (hp : f.PlacesAgree) (hs : Settled f s)
    (h : holders f v (s.pass f) = holders f v s) :
    holders f v ((s.pass f).pass f) = holders f v (s.pass f) := by
  refine Agree.holders_pass hp (agree_pass fun j hj => ?_)
  have hsame : v ∈ (s.pass f).liveOut.get j ↔ v ∈ s.liveOut.get j := by
    have := Finset.ext_iff.mp h j
    simpa only [mem_holders, hj, true_and] using this
  rw [settled_pass.carries_iff hj, hs.carries_iff hj, hsame]

/-- Whatever a settled pass changes, it changes the holders of some value. -/
theorem exists_holders_pass_ne (hs : Settled f s) (hd : (s.pass f).differs f s = true) :
    ∃ v, holders f v (s.pass f) ≠ holders f v s := by
  by_contra hno
  push Not at hno
  have hout : ∀ i ∈ f.attached, (s.pass f).liveOut.get i = s.liveOut.get i := by
    intro i hi
    ext v
    have := Finset.ext_iff.mp (hno v) i
    simpa only [mem_holders, hi, true_and] using this
  obtain ⟨i, hi, hne⟩ := List.any_eq_true.mp hd
  have hin : (s.pass f).liveIn.get i = s.liveIn.get i := by
    rw [settled_pass i hi, hs i hi, hout i hi]
  simp [hin, hout i hi] at hne

/-- The holders of a value that changes as late as in pass `n + 1` grow from the first pass on. -/
theorem card_holders_add_le (hp : f.PlacesAgree) {n : Nat}
    (hlate : holders f v (passed f (n + 1)) ≠ holders f v (passed f n)) {p q : Nat} (h1 : 1 ≤ p)
    (hpq : p ≤ q) (hq : q ≤ n + 1) :
    (holders f v (passed f p)).card + (q - p) ≤ (holders f v (passed f q)).card := by
  have hgrow : ∀ k, 1 ≤ k → k ≤ n →
      holders f v (passed f (k + 1)) ≠ holders f v (passed f k) := by
    intro k hk hkn hstill
    -- the value would stand still from pass `k` to pass `n`
    have hforever : ∀ m, k ≤ m → holders f v (passed f (m + 1)) = holders f v (passed f m) := by
      intro m hm
      induction m, hm using Nat.le_induction with
      | base => exact hstill
      | succ m hm ih =>
        rw [passed_succ] at ih
        rw [passed_succ (m + 1), passed_succ m]
        exact holders_pass_eq hp (settled_passed (hk.trans hm)) ih
    exact hlate (hforever n hkn)
  induction q, hpq using Nat.le_induction with
  | base => simp
  | succ q hpq ih =>
    have hsub : holders f v (passed f q) ⊆ holders f v (passed f (q + 1)) :=
      holders_subset_of_le (passed_le_succ q)
    have hlt := Finset.card_lt_card
      (hsub.ssubset_of_ne (hgrow q (h1.trans hpq) (by omega)).symm)
    have := ih (by omega)
    omega

/-! ## The last instruction of the layout -/

section Last

variable {pre : List InstId} {l : InstId}

/-- The last instruction sees every other one as it is after the pass. -/
theorem mem_liveOut_pass_last (hp : f.PlacesAgree) (hl : f.attached = pre ++ [l]) :
    v ∈ (s.pass f).liveOut.get l ↔ ∃ j, f.Follows l j ∧
      (OnEdge f l j v ∨ j ≠ l ∧ Carries f (s.pass f) v j ∨ j = l ∧ Carries f s v l) := by
  have hnot : l ∉ pre := fun hmem => by
    have hnodup := hp.nodup_attached
    rw [hl] at hnodup
    exact (List.nodup_append.mp hnodup).2.2 l hmem l (List.mem_singleton_self l) rfl
  have hpass : s.pass f = (pre.foldl (transfer f) s).transfer f l := by
    rw [pass, hl, List.foldl_append]
    rfl
  have hbefore : ∀ j, Carries f (pre.foldl (transfer f) s) v j ↔
      j ≠ l ∧ Carries f (s.pass f) v j ∨ j = l ∧ Carries f s v l := by
    intro j
    by_cases hj : j = l
    · subst hj
      obtain ⟨hin, hout⟩ := get_foldl_of_notMem (f := f) (s := s) hnot
      simp [Carries, hin, hout]
    · rw [hpass, carries_transfer, if_neg (Ne.symm hj)]
      simp [hj]
  rw [hpass, get_liveOut_transfer, if_pos rfl, mem_outOf_iff_carries hp, ← hpass]
  simp only [hbefore, or_comm]

/-- If a value takes as long as it can, the last instruction waits for itself. -/
theorem follows_self_of_card (hp : f.PlacesAgree) (hl : f.attached = pre ++ [l])
    (hcard : ∀ q ≤ f.numInsts, (holders f v (passed f (q + 1))).card = q) :
    f.Follows l l ∧ f.isPhi l = false ∧ v ∈ f.valueOperands l := by
  by_contra hno
  have hmem : l ∈ f.attached := by simp [hl]
  -- without that it never gets the value
  have hnever : ∀ q ≤ f.numInsts, l ∉ holders f v (passed f (q + 1)) := by
    intro q
    induction q with
    | zero =>
      intro hq
      rw [Finset.card_eq_zero.mp (hcard 0 hq)]
      simp
    | succ q ih =>
      intro hq hnew
      have hold := ih (by omega)
      have hinsert : insert l (holders f v (passed f (q + 1))) =
          holders f v (passed f (q + 1 + 1)) := by
        refine Finset.eq_of_subset_of_card_le ?_ ?_
        · exact Finset.insert_subset hnew (holders_subset_of_le (passed_le_succ _))
        · rw [Finset.card_insert_of_notMem hold, hcard (q + 1) hq, hcard q (by omega)]
      have hsettled := settled_passed (f := f) (Nat.le_add_left 1 q)
      have hearlier : ∀ j, f.Follows l j → OnEdge f l j v ∨
          j ≠ l ∧ Carries f (passed f (q + 1)) v j → False := by
        intro j hf hj
        refine hold (mem_holders.mpr ⟨hmem, ?_⟩)
        rw [passed_succ] at hj ⊢
        exact (mem_liveOut_pass_last hp hl).mpr ⟨j, hf, hj.imp_right .inl⟩
      rw [passed_succ (q + 1)] at hnew
      obtain ⟨j, hf, hedge | ⟨hj, hc⟩ | ⟨rfl, hc⟩⟩ :=
        (mem_liveOut_pass_last hp hl).mp (mem_holders.mp hnew).2
      · exact hearlier j hf (.inl hedge)
      · have hja := hf.mem_attached hp
        refine hearlier j hf (.inr ⟨hj, (hsettled.carries_iff hja).mpr ?_⟩)
        rw [← passed_succ, (settled_passed (Nat.le_add_left 1 _)).carries_iff hja] at hc
        refine hc.imp_left fun hc => ⟨?_, hc.2⟩
        have hjin : j ∈ insert l (holders f v (passed f (q + 1))) := by
          rw [hinsert]
          exact mem_holders.mpr ⟨hja, hc.1⟩
        exact (mem_holders.mp ((Finset.mem_insert.mp hjin).resolve_left hj)).2
      · rcases (hsettled.carries_iff hmem).mp hc with ⟨hc, -⟩ | huse
        · exact hold (mem_holders.mpr ⟨hmem, hc⟩)
        · exact hno ⟨hf, huse⟩
  -- but in the end all instructions hold the value
  have hall : holders f v (passed f (f.numInsts + 1)) = f.attached.toFinset := by
    refine Finset.eq_of_subset_of_card_le (Finset.filter_subset ..) ?_
    rw [hcard _ (Nat.le_refl _)]
    exact List.toFinset_card_le _
  exact hnever _ (Nat.le_refl _) (by rw [hall]; simpa using hmem)

end Last

end Solver

namespace Function

open Solver

variable {f : Function} {v : ValueId}

/-! ## The number of passes -/

/-- The only instruction is a branch to itself that uses a value. -/
def LoneLoop (f : Function) : Prop :=
  ∃ i, f.attached = [i] ∧ f.Follows i i ∧ f.isPhi i = false ∧ f.valueOperands i ≠ []

/-- No value takes as long as it can unless the function is a lone loop: the last instruction gets it
first, from itself, and by that contributes nothing new. -/
theorem loneLoop_of_card (hp : f.PlacesAgree) (hne : f.attached ≠ [])
    (hcard : ∀ q ≤ f.numInsts, (holders f v (passed f (q + 1))).card = q) : f.LoneLoop := by
  obtain ⟨pre, l, hl⟩ := (List.eq_nil_or_concat' f.attached).resolve_left hne
  obtain ⟨hself, hphi, huse⟩ := follows_self_of_card hp hl hcard
  have hsettled := settled_passed (f := f) (Nat.le_refl 1)
  have hmem : l ∈ f.attached := by simp [hl]
  have hcarries : Carries f (passed f 1) v l := (hsettled.carries_iff hmem).mpr (.inr ⟨hphi, huse⟩)
  have hsize : f.numInsts = pre.length + 1 := by simp [numInsts, hl]
  cases pre with
  | nil => exact ⟨l, hl, hself, hphi, List.ne_nil_of_mem huse⟩
  | cons k pre =>
    rw [List.length_cons] at hsize
    have hfirst : holders f v (passed f 1) = ∅ := Finset.card_eq_zero.mp (hcard 0 (Nat.zero_le _))
    have hsecond : holders f v (passed f 2) = {l} := by
      refine (Finset.eq_of_subset_of_card_le ?_ ?_).symm
      · rw [Finset.singleton_subset_iff, passed_succ, mem_holders]
        exact ⟨hmem, (mem_liveOut_pass_last hp hl).mpr
          ⟨l, hself, .inr (.inr ⟨rfl, hcarries⟩)⟩⟩
      · rw [hcard 1 (by omega), Finset.card_singleton]
    have hagree : Agree f v ((passed f 1).pass f) (passed f 1) := by
      refine agree_pass fun j hj => ?_
      rw [← passed_succ]
      by_cases hjl : j = l
      · subst hjl
        rw [(settled_passed (Nat.le_add_left 1 1)).carries_iff hj]
        exact iff_of_true (.inr ⟨hphi, huse⟩) hcarries
      · have hno₁ : v ∉ (passed f 1).liveOut.get j := fun hv => by
          have := mem_holders.mpr ⟨hj, hv⟩
          simp [hfirst] at this
        have hno₂ : v ∉ (passed f 2).liveOut.get j := fun hv => by
          have := mem_holders.mpr ⟨hj, hv⟩
          rw [hsecond] at this
          exact hjl (Finset.mem_singleton.mp this)
        rw [(settled_passed (Nat.le_add_left 1 1)).carries_iff hj, hsettled.carries_iff hj]
        simp only [hno₁, hno₂]
    have hthird := hagree.holders_pass hp
    rw [← passed_succ, ← passed_succ] at hthird
    have := hcard 2 (by omega)
    rw [hthird, hcard 1 (by omega)] at this
    omega

theorem exists_passes_liveness (hp : f.PlacesAgree) : ∃ m, f.liveness.passes = m + 1 ∧
    (∀ p < m, (passed f (p + 1)).differs f (passed f p) = true) ∧
    (passed f (m + 1)).differs f (passed f m) = false := by
  obtain ⟨m, hm, hdiffer, hlast⟩ :=
    exists_passes_iterate (s := .initial) (by simp [Solver.initial]) (converged_finish hp).1
  exact ⟨m, hm.trans (congrArg (· + 1) (Nat.zero_add m)), hdiffer, hlast⟩

/-- **Two passes more than instructions** are enough, and one more unless the function is a lone
loop. -/
theorem PlacesAgree.passes_le (hp : f.PlacesAgree) : f.liveness.passes ≤ f.numInsts + 2 ∧
    (¬f.LoneLoop → f.liveness.passes ≤ f.numInsts + 1) := by
  obtain ⟨m, hm, hdiffer, -⟩ := exists_passes_liveness hp
  rw [hm]
  obtain rfl | hpos := Nat.eq_zero_or_pos m
  · omega
  have hne : f.attached ≠ [] := by
    obtain ⟨i, hi, -⟩ := List.any_eq_true.mp (hdiffer 0 hpos)
    exact List.ne_nil_of_mem hi
  have hsize : 0 < f.numInsts := List.length_pos_of_ne_nil hne
  obtain ⟨n, rfl⟩ := Nat.exists_eq_add_of_le' hpos
  obtain rfl | hn := Nat.eq_zero_or_pos n
  · omega
  have hlate := hdiffer n (by omega)
  rw [passed_succ] at hlate
  obtain ⟨v, hv⟩ := exists_holders_pass_ne (settled_passed hn) hlate
  rw [← passed_succ] at hv
  have hbound := card_holders_le (f := f) (v := v) (s := passed f (n + 1))
  have htotal := card_holders_add_le hp hv (Nat.le_refl 1) (Nat.le_add_left 1 n) (Nat.le_refl _)
  refine ⟨by omega, fun hlone => ?_⟩
  by_contra hlong
  refine hlone (loneLoop_of_card (v := v) hp hne fun q hq => ?_)
  have hlow := card_holders_add_le hp hv (Nat.le_refl 1) (Nat.le_add_left 1 q) (by omega)
  have hhigh := card_holders_add_le hp hv (Nat.le_add_left 1 q) (q := n + 1) (by omega) (by omega)
  omega

/-- A lone loop takes three passes at least: the first adds the values that the branch uses before it,
the second after it. -/
theorem LoneLoop.three_le_passes (h : f.LoneLoop) (hp : f.PlacesAgree) :
    3 ≤ f.liveness.passes := by
  obtain ⟨i, hi, hself, hphi, huse⟩ := h
  obtain ⟨v, hv⟩ := List.exists_mem_of_ne_nil _ huse
  have hmem : i ∈ f.attached := by simp [hi]
  have hlast : f.attached = [] ++ [i] := hi
  have hsettled := settled_passed (f := f) (Nat.le_refl 1)
  have hcarries : Carries f (passed f 1) v i := (hsettled.carries_iff hmem).mpr (.inr ⟨hphi, hv⟩)
  have hfirst : v ∉ (passed f 1).liveOut.get i := by
    rw [passed_succ, mem_liveOut_pass_last hp hlast]
    rintro ⟨j, hf, hc⟩
    obtain rfl : j = i := by
      have := hf.mem_attached hp
      rwa [hi, List.mem_singleton] at this
    have hnone : v ∉ (passed f 0).liveIn.get j := by
      change v ∉ Solver.initial.liveIn.get j
      rw [Solver.initial, SideTable.get_empty]
      exact ValueSet.not_mem_empty v
    simp [OnEdge, Carries, hphi, hnone] at hc
  have hsecond : v ∈ (passed f 2).liveOut.get i := by
    rw [passed_succ]
    exact (mem_liveOut_pass_last hp hlast).mpr ⟨i, hself, .inr (.inr ⟨rfl, hcarries⟩)⟩
  obtain ⟨m, hm, -, hstill⟩ := exists_passes_liveness hp
  rw [passed_succ] at hstill
  have hback := le_of_unchanged hstill i
  rw [← passed_succ] at hback
  rw [hm]
  rcases m with - | - | m
  · have hin : v ∈ (passed f 1).liveIn.get i := by
      simpa [Carries, hphi] using hcarries
    have hempty := hback.1 v hin
    change v ∈ Solver.initial.liveIn.get i at hempty
    rw [Solver.initial, SideTable.get_empty] at hempty
    exact absurd hempty (ValueSet.not_mem_empty v)
  · exact absurd (hback.2 v hsecond) hfirst
  · omega

/-- A pass that changes something adds a value that some instruction uses. -/
theorem Closed.values_of_passes (hc : f.Closed) (hp : f.PlacesAgree)
    (h : 2 ≤ f.liveness.passes) : 0 < f.values.size := by
  obtain ⟨m, hm, hdiffer, -⟩ := exists_passes_liveness hp
  obtain ⟨i, -, hne⟩ := List.any_eq_true.mp (hdiffer 0 (by omega))
  rw [passed_succ] at hne
  obtain ⟨v, hv⟩ : ∃ v, v ∈ f.attached.flatMap f.valueOperands := by
    by_contra hno
    have hempty : ∀ {s}, Within f s → s.liveIn.get i = ∅ ∧ s.liveOut.get i = ∅ := by
      intro s hs
      constructor <;> ext v
      · exact iff_of_false (fun hv => hno ⟨v, hs i v (.inl hv)⟩) (ValueSet.not_mem_empty v)
      · exact iff_of_false (fun hv => hno ⟨v, hs i v (.inr hv)⟩) (ValueSet.not_mem_empty v)
    have hbefore : Within f (passed f 0) := within_initial
    simp [hempty hbefore, hempty (hbefore.pass hp)] at hne
  obtain ⟨j, -, hj⟩ := List.mem_flatMap.mp hv
  unfold valueOperands at hj
  cases hd : f.inst? j with
  | none => simp [hd] at hj
  | some d =>
    rw [hd] at hj
    have hhas := hc.inst j d hd (.value v)
      (List.mem_append_left _ (List.mem_map.mpr ⟨v, hj, rfl⟩))
    exact Nat.zero_lt_of_lt ((f.has_value).mp hhas)

/-- **The number of passes** is at most the number of instructions times the number of values, and one
more, exactly unless a lone loop has a single value. -/
theorem exists_computeLiveness_passes_le_iff
    (h : (∃ text fs, parseModule text = .ok fs ∧ f ∈ fs) ∨ f.Built ∧ f.Closed) :
    ∃ l, f.computeLiveness = .ok l ∧ l.passes ≤ f.numInsts + 2 ∧
      (l.passes ≤ f.numInsts * f.values.size + 1 ↔ ¬(f.values.size = 1 ∧ f.LoneLoop)) := by
  obtain ⟨hb, hc⟩ : f.Built ∧ f.Closed := by
    rcases h with ⟨text, fs, hparse, hf⟩ | h
    · have hcomposed := composed_of_parseModule hparse f hf
      exact ⟨hcomposed.built, hcomposed.closed⟩
    · exact h
  have hp := hb.coherent.places
  obtain ⟨htwo, hone⟩ := hp.passes_le
  refine ⟨f.liveness, computeLiveness_eq_ok hc.targetsExist, htwo, ?_⟩
  constructor
  · rintro hle ⟨hvalues, hlone⟩
    obtain ⟨i, hi, -⟩ := id hlone
    have hthree := hlone.three_le_passes hp
    have hsize : f.numInsts = 1 := by simp [numInsts, hi]
    rw [hvalues, hsize] at hle
    omega
  · intro hno
    by_cases hfew : f.liveness.passes < 2
    · omega
    have hvalues := hc.values_of_passes hp (by omega)
    have hproduct := Nat.le_mul_of_pos_right f.numInsts hvalues
    by_cases hlone : f.LoneLoop
    · obtain ⟨i, hi, -⟩ := id hlone
      have hsize : f.numInsts = 1 := by simp [numInsts, hi]
      have hmany : f.values.size ≠ 1 := fun hsingle => hno ⟨hsingle, hlone⟩
      rw [hsize] at htwo ⊢
      omega
    · have := hone hlone
      omega

/-- A loop of two blocks, through which a value is carried. -/
def carryingLoop : String :=
  "func @f(%n) \x7b\n ^a:\n br [^b]\n ^b:\n %x = neg %n\n condbr %x [^a, ^c]\n ^c:\n ret %n\n\x7d"

/-- Four instructions and two values, and four passes. -/
theorem exists_computeLiveness_passes_le_loop : ∃ f, parseModule carryingLoop = .ok [f] ∧
    f.numInsts = 4 ∧ f.values.size = 2 ∧
    ∃ l, f.computeLiveness = .ok l ∧ l.passes = 4 ∧ l.passes ≤ f.numInsts * f.values.size + 1 := by
  have hruns : Run.yieldsOne (parseModule carryingLoop) (fun f =>
      f.numInsts = 4 ∧ f.values.size = 2 ∧
        f.computeLiveness.toOption.any (fun l => l.passes = 4) = true) = true := by
    decide +kernel
  obtain ⟨f, hparse, hchecks⟩ := Run.exists_of_yieldsOne hruns
  obtain ⟨hinsts, hvalues, hpasses⟩ := of_decide_eq_true hchecks
  have hread : ∃ text fs, parseModule text = .ok fs ∧ f ∈ fs := ⟨_, [f], hparse, by simp⟩
  obtain ⟨l, hl, -, hiff⟩ := exists_computeLiveness_passes_le_iff (.inl hread)
  obtain ⟨l', hl', hpasses⟩ := Run.exists_eq_ok_and hpasses
  obtain rfl := Except.ok.inj (hl.symm.trans hl')
  exact ⟨f, hparse, hinsts, hvalues, l, hl, of_decide_eq_true hpasses, hiff.mpr fun hlone => by omega⟩

/-- One instruction and one value, and three passes. -/
theorem loneLoop_passes :
    ∃ fs, parseModule "func @f(%a) \x7b\n  ^e:\n    condbr %a [^e, ^e]\n\x7d\n" = .ok fs ∧ fs ≠ [] ∧
      ∀ f ∈ fs, f.validate = .ok [] ∧ ∃ l, f.computeLiveness = .ok l ∧
        ¬l.passes ≤ f.numInsts * f.values.size + 1 := by
  refine (Run.exists_eq_ok_and (p := fun fs => fs ≠ [] && fs.all fun f => f.validate = .ok [] &&
    f.computeLiveness.toOption.any fun l => ¬l.passes ≤ f.numInsts * f.values.size + 1) ?_).imp
    fun fs hfs => ⟨hfs.1, ?_⟩
  · decide +kernel
  · have hall := hfs.2
    simp only [Bool.and_eq_true, decide_eq_true_iff, List.all_eq_true] at hall
    refine ⟨hall.1, fun f hf => ⟨(hall.2 f hf).1, ?_⟩⟩
    obtain ⟨l, hl, hmore⟩ := Run.exists_eq_ok_and (hall.2 f hf).2
    exact ⟨l, hl, of_decide_eq_true hmore⟩

end Function

end SsaPrune
