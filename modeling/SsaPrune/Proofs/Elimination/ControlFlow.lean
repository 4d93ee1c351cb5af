import SsaPrune.Proofs.Function.Thinned
import SsaPrune.Proofs.Liveness.Exactness
import SsaPrune.Proofs.Validation

/-!
# Control flow without the removable instructions

An instruction that may be removed is neither a terminator nor a phi. So when some of them are taken
out of an orderly function, each block still ends as it did: the edges, the reachable blocks and the
order of phis and terminators are the same (`Orderly.thinned`). Control also still gets from each
instruction that is left to each other one that it got to before (`Thinned.walk`).
-/

namespace SsaPrune

namespace Function

/-- The terminator that ends a block. -/
def exit? (f : Function) (b : BlockId) : Option InstId := (f.last? b).filter f.isTerminator

variable {f g : Function} {out : List InstId} {b : BlockId} {i : InstId}

theorem exit?_isSome : (f.exit? b).isSome = (f.last? b).any f.isTerminator := by
  rw [exit?]
  cases f.last? b with
  | none => rfl
  | some i => cases h : f.isTerminator i <;> simp [h]

theorem targets_eq : f.targets b = ((f.exit? b).map f.successors).getD [] := by
  unfold targets exit?
  cases f.last? b with
  | none => rfl
  | some i => cases h : f.isTerminator i <;> simp [Option.filter, h]

theorem exit?_eq_some_iff
    (hlast : ∀ pre i post, f.instsOf b = pre ++ i :: post → f.isTerminator i = true → post = []) :
    f.exit? b = some i ↔ i ∈ f.instsOf b ∧ f.isTerminator i = true := by
  rw [exit?, Option.filter_eq_some_iff, last?]
  constructor
  · rintro ⟨hi, hterm⟩
    exact ⟨List.mem_of_getLast? hi, hterm⟩
  · rintro ⟨hi, hterm⟩
    obtain ⟨pre, post, hlist⟩ := List.append_of_mem hi
    obtain rfl := hlast pre i post hlist hterm
    exact ⟨by rw [hlist, List.getLast?_append]; rfl, hterm⟩

/-- The edges are told by the layout and the targets. -/
theorem preds_congr (hl : g.layout = f.layout) (ht : g.targets = f.targets) : g.preds = f.preds := by
  funext b
  rw [preds, hl, ht]
  rfl

theorem reachable_congr (hl : g.layout = f.layout) (ht : g.targets = f.targets) :
    g.reachable = f.reachable := by
  have hsuccs : g.succs = f.succs := by
    funext b
    rw [succs, ht]
    rfl
  have hentry : g.entry? = f.entry? := congrArg List.head? hl
  have hstock : g.stock = f.stock := by
    rw [stock, hsuccs, hl]
    rfl
  rw [reachable, hsuccs, hstock, hentry]
  rfl

/-! ## Places -/

namespace Thinned

/-- What stands before and after an instruction that was left. -/
theorem exists_split (ht : f.Thinned g out) {pre post : List InstId}
    (hg : g.instsOf b = pre ++ i :: post) :
    i ∉ out ∧ ∃ pre' post', f.instsOf b = pre' ++ i :: post' ∧
      pre'.filter (· ∉ out) = pre ∧ post'.filter (· ∉ out) = post := by
  rw [ht.instsOf] at hg
  obtain ⟨before, rest, hlist, hpre, hrest⟩ := List.filter_eq_append_iff.mp hg
  obtain ⟨skipped, post', rfl, hskipped, hi, hpost⟩ := List.filter_eq_cons_iff.mp hrest
  refine ⟨by simpa using hi, before ++ skipped, post', ?_, ?_, hpost⟩
  · rw [hlist, List.append_assoc]
  · rw [List.filter_append, hpre, List.filter_eq_nil_iff.mpr hskipped, List.append_nil]

theorem terminatorLast (ht : f.Thinned g out) (ho : f.Orderly) {pre post : List InstId}
    (hg : g.instsOf b = pre ++ i :: post) (hterm : g.isTerminator i = true) : post = [] := by
  obtain ⟨-, pre', post', hlist, -, rfl⟩ := ht.exists_split hg
  rw [ht.isTerminator] at hterm
  rw [ho.terminatorLast b pre' i post' hlist hterm]
  rfl

theorem exit? (ht : f.Thinned g out) (ho : f.Orderly) (hr : f.AllRemovable out) (b : BlockId) :
    g.exit? b = f.exit? b := by
  ext i
  rw [exit?_eq_some_iff (ho.terminatorLast b),
    exit?_eq_some_iff fun pre i post => ht.terminatorLast ho, ht.mem_instsOf, ht.isTerminator]
  constructor
  · rintro ⟨⟨hi, -⟩, hterm⟩
    exact ⟨hi, hterm⟩
  · rintro ⟨hi, hterm⟩
    exact ⟨⟨hi, hr.not_mem_of_isTerminator hterm⟩, hterm⟩

/-! ## Edges -/

theorem targets (ht : f.Thinned g out) (ho : f.Orderly) (hr : f.AllRemovable out) :
    g.targets = f.targets := by
  funext b
  rw [targets_eq, targets_eq, ht.exit? ho hr, funext ht.successors]

theorem preds (ht : f.Thinned g out) (ho : f.Orderly) (hr : f.AllRemovable out) :
    g.preds = f.preds :=
  preds_congr ht.layout (ht.targets ho hr)

theorem reachable (ht : f.Thinned g out) (ho : f.Orderly) (hr : f.AllRemovable out) :
    g.reachable = f.reachable :=
  reachable_congr ht.layout (ht.targets ho hr)

end Thinned

/-- **An orderly function stays orderly** when removable instructions are taken out. -/
theorem Orderly.thinned (ho : f.Orderly) (ht : f.Thinned g out) (hr : f.AllRemovable out) :
    g.Orderly where
  layout_ne_nil := by
    rw [ht.layout]
    exact ho.layout_ne_nil
  ends b hb hreach := by
    rw [ht.layout] at hb
    rw [ht.reachable ho hr] at hreach
    rw [← exit?_isSome, ht.exit? ho hr, exit?_isSome]
    exact ho.ends b hb hreach
  terminatorLast _ _ _ _ hg hterm := ht.terminatorLast ho hg hterm
  phisFirst b pre i post hg hphi j hj := by
    obtain ⟨-, pre', post', hlist, rfl, -⟩ := ht.exists_split hg
    rw [ht.isPhi] at hphi ⊢
    exact ho.phisFirst b pre' i post' hlist hphi j (List.mem_of_mem_filter hj)
  incoming b i hi e he hphi c hc := by
    obtain ⟨d, hd, hed⟩ := ht.exists_inst?_of he
    rw [hed] at hphi hc
    rw [ht.preds ho hr]
    exact ho.incoming b i (ht.mem_instsOf.mp hi).1 d hd hphi c hc
  flawless b i hi e he := by
    obtain ⟨d, hd, hed⟩ := ht.exists_inst?_of he
    rw [hed, ht.result?]
    exact ho.flawless b i (ht.mem_instsOf.mp hi).1 d hd

theorem TargetsExist.thinned (h : f.TargetsExist) (ht : f.Thinned g out) : g.TargetsExist := by
  intro l hl
  obtain ⟨c, hc, rfl⟩ := List.mem_map.mp hl
  obtain ⟨i, hi, hci⟩ := List.mem_flatMap.mp hc
  obtain ⟨hattached, hterm⟩ := List.mem_filter.mp hi
  rw [ht.isTerminator] at hterm
  rw [ht.successors] at hci
  refine (ht.has _).mpr (h _ (List.mem_map.mpr ⟨c, List.mem_flatMap.mpr ⟨i, ?_, hci⟩, rfl⟩))
  exact List.mem_filter.mpr ⟨(ht.mem_attached.mp hattached).1, hterm⟩

/-! ## Walks -/

/-- Control may go from the first instruction to the second, past instructions of `out` only. -/
inductive Skips (f : Function) (out : List InstId) : InstId → InstId → Prop
  | follows {i j : InstId} (h : f.Follows i j) : Skips f out i j
  | past {i k j : InstId} (h : Skips f out i k) (hk : k ∈ out) (hj : f.Follows k j) :
      Skips f out i j

/-- What follows in a block is told by any way to split it. -/
theorem Follows.exists_cons (hp : f.PlacesAgree) {k j : InstId} (h : f.Follows k j)
    (hk : f.isTerminator k = false) {pre post : List InstId}
    (hlist : f.instsOf b = pre ++ k :: post) : ∃ after, post = j :: after := by
  cases h with
  | jump hterm => exact absurd hterm (by simp [hk])
  | @next c before after _ hc =>
    obtain rfl : b = c := hp.eq_of_mem (i := k) (by simp [hlist]) (by simp [hc])
    have hnodup : (pre ++ k :: post).Nodup := hlist ▸ hp.nodup b
    have hpre : k ∉ pre := fun hmem =>
      (List.nodup_append.mp hnodup).2.2 k hmem k List.mem_cons_self rfl
    have hpost : k ∉ post := (List.nodup_cons.mp (List.nodup_append.mp hnodup).2.1).1
    have heq := hlist.symm.trans hc
    exact ⟨after, ((List.append_cons_inj_of_notMem hpre hpost).mp heq).2.2⟩

/-- Past instructions of `out`, control stays in the block that it is in. -/
theorem Skips.exists_split (hp : f.PlacesAgree) (hr : f.AllRemovable out) {i j : InstId}
    (h : f.Skips out i j) :
    f.isTerminator i = false ∧ (∃ b before mid after,
      f.instsOf b = before ++ i :: (mid ++ j :: after) ∧ ∀ m ∈ mid, m ∈ out) ∨
    f.isTerminator i = true ∧ ∃ c ∈ f.successors i, ∃ mid after,
      f.instsOf c = mid ++ j :: after ∧ ∀ m ∈ mid, m ∈ out := by
  induction h with
  | follows h =>
    cases h with
    | next hi hb => exact .inl ⟨hi, _, _, [], _, hb, by simp⟩
    | jump hi hc hj =>
      obtain ⟨after, hlist⟩ := List.head?_eq_some_iff.mp hj
      exact .inr ⟨hi, _, hc, [], after, hlist, by simp⟩
  | @past k j _ hk hj ih =>
    have hterm := (isRemovable_iff.mp (hr k hk)).1
    have hmid : ∀ {mid : List InstId}, (∀ m ∈ mid, m ∈ out) → ∀ m ∈ mid ++ [k], m ∈ out := by
      intro mid hmid m hm
      rcases List.mem_append.mp hm with hm | hm
      · exact hmid m hm
      · rwa [List.mem_singleton.mp hm]
    rcases ih with ⟨hi, b, before, mid, after, hlist, hout⟩ | ⟨hi, c, hc, mid, after, hlist, hout⟩
    · have hsplit : f.instsOf b = (before ++ i :: mid) ++ k :: after := by simp [hlist]
      obtain ⟨after', rfl⟩ := hj.exists_cons hp hterm hsplit
      exact .inl ⟨hi, b, before, mid ++ [k], after', by simp [hlist], hmid hout⟩
    · obtain ⟨after', rfl⟩ := hj.exists_cons hp hterm hlist
      exact .inr ⟨hi, c, hc, mid ++ [k], after', by simp [hlist], hmid hout⟩

/-- What is skipped is no longer there. -/
theorem Thinned.follows (hp : f.PlacesAgree) (ht : f.Thinned g out) (hr : f.AllRemovable out)
    {i j : InstId} (hi : i ∉ out) (hj : j ∉ out) (h : f.Skips out i j) : g.Follows i j := by
  have hnone : ∀ {mid : List InstId}, (∀ m ∈ mid, m ∈ out) → mid.filter (· ∉ out) = [] := by
    intro mid hmid
    apply List.filter_eq_nil_iff.mpr
    intro m hm
    simpa using hmid m hm
  rcases h.exists_split hp hr with
    ⟨hterm, b, before, mid, after, hlist, hout⟩ | ⟨hterm, c, hc, mid, after, hlist, hout⟩
  · have hleft : g.instsOf b =
        before.filter (· ∉ out) ++ i :: j :: after.filter (· ∉ out) := by
      rw [ht.instsOf, hlist, List.filter_append, List.filter_cons_of_pos (by simpa using hi),
        List.filter_append, hnone hout, List.nil_append, List.filter_cons_of_pos (by simpa using hj)]
    exact .next ((ht.isTerminator i).trans hterm) hleft
  · have hleft : g.instsOf c = j :: after.filter (· ∉ out) := by
      rw [ht.instsOf, hlist, List.filter_append, hnone hout, List.nil_append,
        List.filter_cons_of_pos (by simpa using hj)]
    refine .jump ((ht.isTerminator i).trans hterm) (b := c) ?_ ?_
    · rwa [ht.successors]
    · rw [first?, hleft]
      rfl

/-- **Walks are kept** between instructions that are left. -/
theorem Thinned.walk (hp : f.PlacesAgree) (ht : f.Thinned g out) (hr : f.AllRemovable out)
    {i j : InstId} {between : List InstId} (hi : i ∉ out) (hj : j ∉ out)
    (h : f.Walk i between j) : ∃ between', g.Walk i between' j := by
  -- from the last instruction that was left, the walk has gone past instructions of `out`
  suffices hgen : ∀ p, p ∉ out → p = i ∨ i ∈ out ∧ f.Skips out p i →
      ∃ between', g.Walk p between' j from hgen i hi (.inl rfl)
  have hskips : ∀ {p k l : InstId}, p = k ∨ k ∈ out ∧ f.Skips out p k → f.Follows k l →
      f.Skips out p l := by
    rintro p k l (rfl | ⟨hk, hs⟩) hf
    · exact .follows hf
    · exact .past hs hk hf
  clear hi
  induction h with
  | one hf =>
    intro p hpo hpi
    exact ⟨[], .one (ht.follows hp hr hpo hj (hskips hpi hf))⟩
  | @more i k j between hf hw ih =>
    intro p hpo hpi
    have hs := hskips hpi hf
    by_cases hk : k ∈ out
    · exact ih hj p hpo (.inr ⟨hk, hs⟩)
    · obtain ⟨between', hw'⟩ := ih hj k hk (.inl rfl)
      exact ⟨k :: between', .more (ht.follows hp hr hpo hk hs) hw'⟩

end Function

end SsaPrune
