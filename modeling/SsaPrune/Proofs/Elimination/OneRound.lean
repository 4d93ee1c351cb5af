import SsaPrune.Proofs.Elimination.Rounds

/-!
# One round is enough

A round by the lists of uses goes backwards through the instructions. Where the users of a result that
may be removed all stand behind the instruction that defines it (`InDefinitionOrder`), an instruction is
kept for a user that stays: one that may not be removed, or one that the round has been past and has
kept. So the instructions that the round has been past are *settled* (`Settled`), whatever it takes out
later, and at its end all of them are needed.
-/

namespace SsaPrune

/-- Behind an element of a list without repetitions stands nothing that is in front of it. -/
theorem not_mem_of_pair_sublist {α : Type} {as bs : List α} {a b : α} (hn : (as ++ a :: bs).Nodup)
    (h : [a, b].Sublist (as ++ a :: bs)) : b ∉ as := by
  obtain ⟨-, hright, hdisjoint⟩ := List.nodup_append.mp hn
  have ha : a ∉ as := fun hmem => hdisjoint a hmem a List.mem_cons_self rfl
  intro hb
  have hpair : [a, b].Sublist (a :: bs) := by
    obtain ⟨left, right, heq, hleft, hsub⟩ := List.sublist_append_iff.mp h
    cases left with
    | nil => exact heq ▸ hsub
    | cons c left =>
      obtain ⟨rfl, -⟩ := List.cons.inj heq
      exact absurd (hleft.subset List.mem_cons_self) ha
  exact hdisjoint b hb b (hpair.subset (by simp)) rfl

/-- Taking out one element of a list without repetitions. -/
theorem filter_notMem_singleton {α : Type} [DecidableEq α] {as bs : List α} {a : α}
    (hn : (as ++ a :: bs).Nodup) : (as ++ a :: bs).filter (· ∉ [a]) = as ++ bs := by
  obtain ⟨-, hright, hdisjoint⟩ := List.nodup_append.mp hn
  have has : ∀ b ∈ as, b ∉ [a] := fun b hb => by simpa using hdisjoint b hb a List.mem_cons_self
  have hbs : ∀ b ∈ bs, b ∉ [a] := fun b hb he =>
    (List.nodup_cons.mp hright).1 (List.mem_singleton.mp he ▸ hb)
  rw [List.filter_append, List.filter_cons_of_neg (by simp),
    List.filter_eq_self.mpr fun b hb => decide_eq_true (has b hb),
    List.filter_eq_self.mpr fun b hb => decide_eq_true (hbs b hb)]

/-- What stands in front of the next element to look at, when a list is gone through from its end. -/
theorem exists_append_of_reverse_prefix {α : Type} {as bs : List α} {a : α}
    (h : (a :: as).reverse <+: bs) : ∃ cs, as.reverse ++ a :: cs = bs := by
  obtain ⟨cs, hcs⟩ := h
  rw [List.reverse_cons, List.append_assoc, List.singleton_append] at hcs
  exact ⟨cs, hcs⟩

namespace Function

variable {f g : Function} {out pending : List InstId} {i : InstId}

/-! ## Code in definition order -/

/-- The users of a result that may be removed stand strictly behind the instruction that defines it, in
the order of the blocks and of the instructions in them. Phis may use what comes later, as may what is
never removed. -/
def InDefinitionOrder (f : Function) : Prop :=
  ∀ i ∈ f.attached, ∀ v ∈ f.result? i, ∀ j ∈ f.attached, f.isRemovable j = true →
    v ∈ f.valueOperands j → [i, j].Sublist f.attached

instance : Decidable f.InDefinitionOrder := inferInstanceAs (Decidable (∀ i ∈ _, _))

theorem InDefinitionOrder.thinned (h : f.InDefinitionOrder) (ht : f.Thinned g out) :
    g.InDefinitionOrder := by
  intro i hi v hv j hj hr huse
  obtain ⟨hi, hiout⟩ := ht.mem_attached.mp hi
  obtain ⟨hj, hjout⟩ := ht.mem_attached.mp hj
  rw [ht.result?] at hv
  rw [ht.isRemovable] at hr
  rw [ht.valueOperands] at huse
  have hkept := (h i hi v hv j hj hr huse).filter (· ∉ out)
  rwa [List.filter_eq_self.mpr (by simp [hiout, hjout]), ← ht.attached] at hkept

/-! ## The instructions that a round has been past -/

/-- Each instruction in a block that may be removed, and is not `pending`, has a user that stays: one
that may not be removed, or is not pending either. -/
def Settled (f : Function) (pending : List InstId) : Prop :=
  ∀ i ∈ f.attached, i ∉ pending → f.isRemovable i = true →
    ∃ v ∈ f.result? i, ∃ j ∈ f.attached, v ∈ f.valueOperands j ∧ (f.isRemovable j = true → j ∉ pending)

theorem settled_attached (f : Function) : f.Settled f.attached.reverse :=
  fun _ hi hno => absurd (List.mem_reverse.mpr hi) hno

/-- When nothing is pending any more, everything is needed. -/
theorem Settled.needed (h : f.Settled []) : f.Needed := by
  intro i hi hn
  obtain ⟨v, hv, j, hj, huse, -⟩ := h i hi List.not_mem_nil hn.1
  exact hn.2 v hv j hj huse

/-- An instruction that is taken out was the user that stays for none. -/
theorem Settled.detach (h : f.Settled (i :: pending)) (ht : f.Thinned g [i])
    (hr : f.isRemovable i = true) : g.Settled pending := by
  intro k hk hno hkr
  obtain ⟨hk, hki⟩ := ht.mem_attached.mp hk
  rw [ht.isRemovable] at hkr
  have hpending : k ∉ i :: pending := by
    rw [List.mem_cons, not_or]
    exact ⟨fun he => hki (List.mem_singleton.mpr he), hno⟩
  obtain ⟨v, hv, j, hj, huse, hstays⟩ := h k hk hpending hkr
  have hji : j ≠ i := by
    rintro rfl
    exact hstays hr List.mem_cons_self
  refine ⟨v, ht.result? k ▸ hv, j, ht.mem_attached.mpr ⟨hj, by simpa using hji⟩,
    ht.valueOperands j ▸ huse, fun hjr hmem => ?_⟩
  rw [ht.isRemovable] at hjr
  exact hstays hjr (List.mem_cons_of_mem _ hmem)

/-- An instruction that is kept has a user that stays, since it stands behind it. -/
theorem Settled.keep (h : f.Settled (i :: pending)) (hp : f.PlacesAgree) (ho : f.InDefinitionOrder)
    (hfront : (i :: pending).reverse <+: f.attached) (hn : ¬f.Needless i) : f.Settled pending := by
  intro k hk hno hkr
  by_cases hki : k = i
  · subst hki
    have hused : ∃ v ∈ f.result? k, ∃ j ∈ f.attached, v ∈ f.valueOperands j := by
      by_contra hnone
      push Not at hnone
      exact hn ⟨hkr, fun v hv j hj => hnone v hv j hj⟩
    obtain ⟨v, hv, j, hj, huse⟩ := hused
    refine ⟨v, hv, j, hj, huse, fun hjr hmem => ?_⟩
    have hbehind := ho k hk v hv j hj hjr huse
    have hnodup := hp.nodup_attached
    obtain ⟨visited, hat⟩ := exists_append_of_reverse_prefix hfront
    rw [← hat] at hbehind hnodup
    exact not_mem_of_pair_sublist hnodup hbehind (List.mem_reverse.mpr hmem)
  · obtain ⟨v, hv, j, hj, huse, hstays⟩ := h k hk (by simp [hki, hno]) hkr
    exact ⟨v, hv, j, hj, huse, fun hjr hmem => hstays hjr (List.mem_cons_of_mem _ hmem)⟩

/-- A round that goes through all that is pending, from the end, leaves nothing that is needless. -/
theorem Settled.needed_of_detachUnused {n : Nat} (h : f.Settled pending) (hf : f.Built)
    (hu : f.UsesExact) (ho : f.InDefinitionOrder) (hfront : pending.reverse <+: f.attached)
    (hrun : Edit.detachUnused pending f = .ok n g) : g.Needed := by
  -- what is pending is the front part of the layout, which each step leaves as it is but for its end
  induction pending generalizing f n with
  | nil =>
    obtain ⟨-, rfl⟩ := EStateM.Result.ok.inj hrun
    exact h.needed
  | cons i pending ih =>
    obtain ⟨visited, hat⟩ := exists_append_of_reverse_prefix hfront
    unfold Edit.detachUnused at hrun
    rw [Run.bind_get] at hrun
    cases hunused : f.isUnused i with
    | false =>
      rw [hunused, if_neg Bool.false_ne_true] at hrun
      have hn : ¬f.Needless i := fun hn => by
        rw [hu.isUnused_iff.mpr hn] at hunused
        cases hunused
      exact ih (h.keep hf.coherent.places ho hfront hn) hf hu ho ⟨i :: visited, hat⟩ hrun
    | true =>
      have hi : i ∈ f.attached := by rw [← hat]; simp
      have hr := (Bool.and_eq_true_iff.mp hunused).1
      obtain ⟨k, hk, hkb, ht, -⟩ := detach_eq_ok hf (hf.coherent.places.has_attached hi)
      rw [hunused, if_pos rfl, Run.bind_of_ok hk] at hrun
      obtain ⟨m, k', hrest, hdone⟩ := Run.bind_eq_ok.mp hrun
      obtain ⟨-, rfl⟩ := EStateM.Result.ok.inj hdone
      refine ih (h.detach ht hr) hkb (hu.detach hf hi hk) (ho.thinned ht) ⟨visited, ?_⟩ hrest
      have hnodup := hf.coherent.places.nodup_attached
      rw [← hat] at hnodup
      rw [ht.attached, ← hat, filter_notMem_singleton hnodup]

/-! ## The rounds of an elimination -/

theorem sweep_useChain_of_needed (hf : f.Built) (hu : f.UsesExact) (hn : f.Needed) :
    Edit.sweep .useChain f = .ok 0 f := by
  obtain ⟨out, g, hg, hd, -⟩ := sweep_useChain_eq_ok hf
  obtain rfl := hd.eq_nil_of_needed hu hn
  cases hd
  exact hg

/-- Where nothing is needless after the first round, there is one more, unless it took nothing out. -/
theorem eliminate_of_two_sweeps {strategy : Strategy} {n : Nat}
    (hfirst : Edit.sweep strategy f = .ok n g) (hsecond : Edit.sweep strategy g = .ok 0 g)
    (hbudget : n ≤ f.numInsts) :
    Edit.eliminate ⟨strategy, none⟩ f = .ok ⟨n, if n = 0 then 1 else 2, true⟩ g := by
  rw [eliminate_apply, Option.getD_none, rounds_succ hfirst]
  split
  case isTrue hn => rw [hn]
  case isFalse hn =>
    obtain ⟨budget, hbudget⟩ : ∃ budget, f.numInsts = budget + 1 := ⟨f.numInsts - 1, by omega⟩
    rw [hbudget, rounds_succ hsecond, if_pos rfl, Nat.zero_add]

/-- **In definition order one round by the lists of uses takes out everything that ever goes.** All that
it leaves is needed, and the next one takes out nothing, so without a limit there are at most two rounds. -/
theorem eliminate_useChain_of_inDefinitionOrder {text : String} {fs : List Function}
    (hparse : parseModule text = .ok fs) (hf : f ∈ fs) (ho : f.InDefinitionOrder) :
    ∃ n g, Edit.sweep .useChain f = .ok n g ∧ g.Needed ∧ Edit.sweep .useChain g = .ok 0 g ∧
      Edit.eliminate ⟨.useChain, none⟩ f = .ok ⟨n, if n = 0 then 1 else 2, true⟩ g := by
  have hcomposed := composed_of_parseModule hparse f hf
  have hb := hcomposed.built
  have hu := hcomposed.usesExact (named_of_parseModule hparse f hf)
  obtain ⟨out, g, hg, hd, -⟩ := sweep_useChain_eq_ok hb
  have hs := hd.swept hb
  have hfront : f.attached.reverse.reverse <+: f.attached := by simp
  have hneeded : g.Needed := f.settled_attached.needed_of_detachUnused hb hu ho hfront hg
  have hnext := sweep_useChain_of_needed hs.built (hd.usesExact hb hu) hneeded
  have hcount := hs.numInsts_add hb.coherent.places
  exact ⟨_, g, hg, hneeded, hnext, eliminate_of_two_sweeps hg hnext (by omega)⟩

/-- A dead chain that branches and goes through three blocks, a loop with a phi, and a call whose result
nothing needs. -/
def branchingChain : String :=
  "func @f(%n) \x7b\n ^a:\n %x = mul %n, 2\n br [^b]\n" ++
    " ^b:\n %i = phi [0, ^a], [%j, ^b]\n %j = add %i, 1\n %y = neg %x\n condbr %n [^b, ^d]\n" ++
    " ^d:\n %w = xor %x, %y\n %v = not %w\n %r = call @g %n\n %t = copy %r\n ret %n\n\x7d"

/-- The chain goes and so does the copy of the result, five instructions in one round. -/
theorem eliminate_useChain_branching_chain : ∃ f, parseModule branchingChain = .ok [f] ∧
    f.InDefinitionOrder ∧ ∃ g, Edit.sweep .useChain f = .ok 5 g ∧
      g.attached = [⟨1⟩, ⟨2⟩, ⟨3⟩, ⟨5⟩, ⟨8⟩, ⟨10⟩] ∧ g.Needed ∧ Edit.sweep .useChain g = .ok 0 g ∧
      Edit.eliminate ⟨.useChain, none⟩ f = .ok ⟨5, 2, true⟩ g := by
  have hruns : Run.yieldsOne (parseModule branchingChain) (fun f =>
      f.InDefinitionOrder ∧ Run.returns (Edit.sweep .useChain f) (fun n g =>
        n = 5 ∧ g.attached = [⟨1⟩, ⟨2⟩, ⟨3⟩, ⟨5⟩, ⟨8⟩, ⟨10⟩]) = true) = true := by
    decide +kernel
  obtain ⟨f, hparse, hchecks⟩ := Run.exists_of_yieldsOne hruns
  obtain ⟨ho, hsweep⟩ := of_decide_eq_true hchecks
  obtain ⟨n, g, hg, hchecks⟩ := Run.exists_of_returns hsweep
  obtain ⟨rfl, hleft⟩ := of_decide_eq_true hchecks
  obtain ⟨n', g', hg', hneeded, hnext, hrun⟩ :=
    eliminate_useChain_of_inDefinitionOrder hparse (by simp) ho
  obtain ⟨rfl, rfl⟩ := EStateM.Result.ok.inj (hg.symm.trans hg')
  exact ⟨f, hparse, ho, g, hg, hleft, hneeded, hnext, hrun⟩

end Function

end SsaPrune
