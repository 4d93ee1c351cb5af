import SsaPrune.Proofs.Elimination.Reached
import SsaPrune.Proofs.Text.Declarations

/-!
# Rounds down to what is needed

What a round takes out, in an accepted function whose lists of uses are exact: one after the other,
instructions that are needless when their turn comes, and among them all that are needless at the start.
By liveness this asks for one thing more, that control gets to all uses; then dead and needless are the
same (`Ready.mem_deadInsts_iff`).

So rounds are told without the strategy, by `Rounds`, and they end: each but the last takes something
out. `rounds_spec` says what a run of rounds answers, with any limit.
-/

namespace SsaPrune.Function

variable {f g h : Function} {out : List InstId} {i j : InstId} {v : ValueId} {strategy : Strategy}

/-! ## What rounds take for granted -/

/-- An accepted function with exact lists of uses; for rounds by liveness, one in which control gets
to all uses. -/
structure Ready (strategy : Strategy) (f : Function) : Prop where
  built : f.Built
  closed : f.Closed
  usesExact : f.UsesExact
  orderly : f.Orderly
  defined : f.OperandsDefined
  reached : strategy = .liveness → f.UsesReached

theorem Ready.places (hf : f.Ready strategy) : f.PlacesAgree := hf.built.coherent.places

theorem Ready.validate (hf : f.Ready strategy) : f.validate = .ok [] :=
  (validate_eq_ok_nil_iff hf.places).mpr ⟨hf.orderly, hf.defined⟩

/-- The lists of uses are exact in a composed function with every instruction in a block. -/
theorem Composed.usesExact (h : f.Composed) (hn : f.Named) : f.UsesExact := by
  refine h.usesFollow.congr_listed fun j hj => ?_
  refine (iff_true_intro (hn.placed j (Classical.not_not.mp fun hno => hj ?_))).symm
  exact operands_of_not_has hno

theorem ready_of_parseModule {text : String} {fs : List Function}
    (hparse : parseModule text = .ok fs) (hf : f ∈ fs) (hv : f.validate = .ok [])
    (hr : strategy = .liveness → f.UsesReached) : f.Ready strategy := by
  have hcomposed := composed_of_parseModule hparse f hf
  obtain ⟨ho, hd⟩ := (validate_eq_ok_nil_iff hcomposed.built.coherent.places).mp hv
  exact ⟨hcomposed.built, hcomposed.closed, hcomposed.usesExact (named_of_parseModule hparse f hf),
    ho, hd, hr⟩

/-! ## One instruction -/

/-- No use is left behind of an instruction that was needless. -/
theorem Thinned.operandsDefined_of_needless (ht : f.Thinned g [i]) (hf : f.Built) (hg : g.Built)
    (hd : f.OperandsDefined) (hi : f.Needless i) : g.OperandsDefined := by
  rw [ht.operandsDefined_iff hg.coherent.places hd]
  intro j hj v hv k hk
  have hjf := (ht.mem_attached.mp hj).1
  have hkf := isDangling_eq_false_iff.mp (hd j hjf v hv).2 k hk
  refine ht.mem_attached.mpr ⟨hf.coherent.places.isAttached_iff.mp hkf, fun hki => ?_⟩
  obtain rfl := List.mem_singleton.mp hki
  exact hi.2 v ((hf.coherent.definitions.result_iff k v).mpr hk) j hjf hv

/-- What rounds take for granted is kept when a needless instruction is taken out. -/
theorem Ready.detach (hf : f.Ready strategy) (hi : i ∈ f.attached) (hn : f.Needless i) :
    ∃ g, Edit.detach i f = .ok () g ∧ f.Thinned g [i] ∧ g.Ready strategy := by
  obtain ⟨g, hg, hgb, ht, -⟩ := detach_eq_ok hf.built (hf.places.has_attached hi)
  have hr := AllRemovable.singleton hn.1
  exact ⟨g, hg, ht, hgb, hf.closed.thinned ht, hf.usesExact.detach hf.built hi hg,
    hf.orderly.thinned ht hr, ht.operandsDefined_of_needless hf.built hgb hf.defined hn,
    fun hs => (hf.reached hs).thinned hf.orderly ht hr hf.places⟩

/-! ## Sequences -/

theorem Ready.dropped (hf : f.Ready strategy) (hd : f.Dropped out g) :
    g.Ready strategy ∧ f.Thinned g out ∧ f.AllRemovable out := by
  induction hd with
  | none f => exact ⟨hf, .refl f, by simp [AllRemovable]⟩
  | @one f g k i out hi hu hg _ ih =>
    have hn := hf.usesExact.isUnused_iff.mp hu
    obtain ⟨g', hg', ht, hready⟩ := hf.detach hi hn
    obtain ⟨-, rfl⟩ := EStateM.Result.ok.inj (hg.symm.trans hg')
    obtain ⟨hk, ht', hr⟩ := ih hready
    refine ⟨hk, ht.trans ht', List.forall_mem_cons.mpr ⟨hn.1, fun j hj => ?_⟩⟩
    rw [← ht.isRemovable]
    exact hr j hj

/-- Instructions that are needless may be taken out in any order. -/
theorem Ready.detachAll (hf : f.Ready strategy) {is : List InstId} (hnodup : is.Nodup)
    (his : ∀ i ∈ is, i ∈ f.attached ∧ f.Needless i) :
    ∃ g, Edit.detachAll is f = .ok () g ∧ f.Dropped is g := by
  induction is generalizing f with
  | nil => exact ⟨f, rfl, .none f⟩
  | cons i is ih =>
    obtain ⟨hnot, hnodup⟩ := List.nodup_cons.mp hnodup
    obtain ⟨⟨hi, hn⟩, his⟩ := List.forall_mem_cons.mp his
    obtain ⟨g, hg, ht, hready⟩ := hf.detach hi hn
    have hleft : ∀ j ∈ is, j ∈ g.attached ∧ g.Needless j := by
      intro j hj
      have hne : j ∉ [i] := fun he => hnot (List.mem_singleton.mp he ▸ hj)
      exact ⟨ht.mem_attached.mpr ⟨(his j hj).1, hne⟩, (Thinned.refl f).needless ht
        (fun k hk => (ht.mem_attached.mp hk).1) (his j hj).2⟩
    obtain ⟨k, hk, hd⟩ := ih hready hnodup hleft
    exact ⟨k, (Run.bind_of_ok hg).trans hk, .one hi (hf.usesExact.isUnused_iff.mpr hn) hg hd⟩

/-! ## One round -/

theorem Walk.mem_attached (hp : f.PlacesAgree) {between : List InstId} (hw : f.Walk i between j) :
    j ∈ f.attached := by
  induction hw with
  | one hf => exact hf.mem_attached hp
  | more _ _ ih => exact ih

/-- A value that is live is used by something in a block. -/
theorem LiveAfter.exists_use (hp : f.PlacesAgree) (hl : f.LiveAfter v i) :
    ∃ j ∈ f.attached, v ∈ f.valueOperands j := by
  obtain ⟨between, j, hw, -, ⟨-, huse⟩ | ⟨-, -, b, c, -, -, phi, hphi, hpair⟩⟩ := hl
  · exact ⟨j, hw.mem_attached hp, huse⟩
  · exact ⟨phi, hp.mem_attached (mem_instsOf_of_mem_leadingPhis hphi),
      Solver.mem_valueOperands_of_mem_incoming hpair⟩

/-- **Dead is needless**, where control gets to all uses. -/
theorem Ready.mem_deadInsts_iff (hf : f.Ready .liveness) :
    i ∈ f.deadInsts f.liveness ↔ i ∈ f.attached ∧ f.Needless i := by
  rw [mem_deadInsts hf.places, Needless]
  refine and_congr_right fun hi => and_congr_right fun hremovable => ?_
  constructor
  · intro hdead v hv j hj huse
    exact hdead v hv ((hf.reached rfl).liveAfter hf.built hf.orderly hi hremovable hv hj huse)
  · intro hnone v hv hlive
    obtain ⟨j, hj, huse⟩ := hlive.exists_use hf.places
    exact hnone v hv j hj huse

/-- `g` is left of `f` by a round that takes out the instructions of `out`. By liveness, they are
needless already at the start. -/
structure Round (strategy : Strategy) (f : Function) (out : List InstId) (g : Function) : Prop where
  dropped : f.Dropped out g
  all : ∀ i ∈ f.attached, f.Needless i → i ∈ out
  only : strategy = .liveness → ∀ i ∈ out, f.Needless i

theorem Ready.sweep (hf : f.Ready strategy) :
    ∃ out g, Edit.sweep strategy f = .ok out.length g ∧ Round strategy f out g := by
  cases strategy with
  | liveness =>
    have hmem : ∀ i, i ∈ f.deadInsts f.liveness ↔ i ∈ f.attached ∧ f.Needless i :=
      fun i => hf.mem_deadInsts_iff
    have hnodup : (f.deadInsts f.liveness).Nodup := hf.places.nodup_attached.filter _
    obtain ⟨g, hg, hd⟩ := hf.detachAll hnodup fun i hi => (hmem i).mp hi
    exact ⟨_, g, sweep_liveness_of_detachAll hf.closed.targetsExist hg, hd,
      fun i hi hn => (hmem i).mpr ⟨hi, hn⟩, fun _ i hi => ((hmem i).mp hi).2⟩
  | useChain =>
    obtain ⟨out, g, hg, hd, hall⟩ := sweep_useChain_eq_ok hf.built
    exact ⟨out, g, hg, hd, hall hf.usesExact, fun hs => by cases hs⟩

/-- No round takes anything out of a function in which nothing is needless. -/
theorem Round.eq_nil_of_needed (hr : Round strategy f out g) (hf : f.Ready strategy)
    (hneeded : f.Needed) : out = [] :=
  hr.dropped.eq_nil_of_needed hf.usesExact hneeded

/-! ## All rounds -/

/-- `g` is left of `f` by some rounds, each of which takes something out. -/
inductive Rounds (strategy : Strategy) : Function → Nat → Function → Prop
  | none (f : Function) : Rounds strategy f 0 f
  | more {f g h : Function} {n : Nat} {out : List InstId} (hround : Round strategy f out g)
      (hout : out ≠ []) (hrest : Rounds strategy g n h) : Rounds strategy f (n + 1) h

theorem Ready.rounds (hf : f.Ready strategy) {n : Nat} (hr : Rounds strategy f n g) :
    g.Ready strategy ∧ ∃ out, f.Thinned g out ∧ f.AllRemovable out := by
  induction hr with
  | none f => exact ⟨hf, [], .refl f, by simp [AllRemovable]⟩
  | more hround _ _ ih =>
    obtain ⟨hg, ht, hremovable⟩ := hf.dropped hround.dropped
    obtain ⟨hh, out, ht', hremovable'⟩ := ih hg
    refine ⟨hh, _, ht.trans ht', fun i hi => ?_⟩
    rcases List.mem_append.mp hi with hi | hi
    · exact hremovable i hi
    · rw [← ht.isRemovable]
      exact hremovable' i hi

/-- **What a run of rounds answers**: it stops when nothing is needless any more, if the budget lets it,
and a budget of more rounds than there are instructions does. -/
theorem rounds_spec (hf : f.Ready strategy) (removed done budget : Nat) :
    ∃ r n g, Edit.rounds strategy removed done budget f = .ok r g ∧ Rounds strategy f n g ∧
      (r.reachedFixpoint = true → 0 < budget ∧ g.Needed ∧ r.rounds = done + n + 1) ∧
      (f.numInsts < budget → r.reachedFixpoint = true) := by
  induction budget generalizing f removed done with
  | zero => exact ⟨⟨removed, done, false⟩, 0, f, rfl, .none f, by simp, by simp⟩
  | succ budget ih =>
    obtain ⟨out, g, hg, hround⟩ := hf.sweep
    rw [rounds_succ hg]
    cases out with
    | nil =>
      cases hround.dropped
      refine ⟨⟨removed, done + 1, true⟩, 0, f, rfl, .none f, fun _ => ⟨by simp, ?_, rfl⟩, fun _ => rfl⟩
      exact fun i hi hn => List.not_mem_nil (hround.all i hi hn)
    | cons i out =>
      have hfewer := (hround.dropped.swept hf.built).numInsts_add hf.places
      obtain ⟨r, n, h, hrun, hrest, hfix, hbudget⟩ := ih (hf.dropped hround.dropped).1
        (removed + (out.length + 1)) (done + 1)
      refine ⟨r, n + 1, h, hrun, .more hround (by simp) hrest, fun hr => ?_, fun hlt => hbudget ?_⟩
      · obtain ⟨-, hneeded, hcount⟩ := hfix hr
        exact ⟨by simp, hneeded, by omega⟩
      · rw [List.length_cons] at hfewer
        omega

/-- A function in which nothing is needless is left as it is, by the one round that finds this out. -/
theorem eliminate_of_needed (hf : f.Ready strategy) (hneeded : f.Needed) {limit : Option Nat}
    (hlimit : limit ≠ some 0) : Edit.eliminate ⟨strategy, limit⟩ f = .ok ⟨0, 1, true⟩ f := by
  obtain ⟨out, g, hg, hround⟩ := hf.sweep
  obtain rfl := hround.eq_nil_of_needed hf hneeded
  cases hround.dropped
  exact eliminate_of_sweep_eq_zero hg hlimit

end SsaPrune.Function
