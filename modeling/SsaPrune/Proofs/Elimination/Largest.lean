import Mathlib.Data.Finset.Dedup
import Mathlib.Order.Bounds.Basic
import SsaPrune.Proofs.Elimination.Sweeps

/-!
# Elimination keeps the largest part that supports itself

A set of instructions *supports itself* when each of them either stays in any case or defines a value
that is live after it, where liveness is that of the function with nothing else in its blocks. Such sets
may hold cycles of instructions that need only each other.

More instructions make more values live, `Thinned.liveAfter`: where control got before, it still gets,
past what was added. So no round takes out anything from a set that supports itself, and when the rounds
end, what is left supports itself. It is the largest part that does, `exists_eliminate_isGreatest`.
-/

namespace SsaPrune.Function

variable {f g h : Function} {out out' : List InstId} {b : BlockId} {i j : InstId} {v : ValueId}

/-! ## Liveness in a part of a function -/

/-- Control goes on within a block up to its terminator. -/
theorem walk_of_split {pre mid post : List InstId} (hlist : f.instsOf b = pre ++ i :: (mid ++ j :: post))
    (hterm : ∀ k ∈ i :: mid, f.isTerminator k = false) : f.Walk i mid j := by
  induction mid generalizing pre i with
  | nil => exact .one (.next (hterm i List.mem_cons_self) hlist)
  | cons k mid ih =>
    obtain ⟨hi, hmid⟩ := List.forall_mem_cons.mp hterm
    have hrest : f.instsOf b = (pre ++ [i]) ++ k :: (mid ++ j :: post) := by simp [hlist]
    exact .more (.next hi hlist) (ih hrest hmid)

theorem Orderly.isTerminator_of_split (ho : f.Orderly) {pre post : List InstId}
    (hlist : f.instsOf b = pre ++ j :: post) : ∀ k ∈ pre, f.isTerminator k = false := by
  intro k hk
  obtain ⟨before, after, rfl⟩ := List.append_of_mem hk
  cases hterm : f.isTerminator k with
  | false => rfl
  | true =>
    have hnil := ho.terminatorLast b before k (after ++ j :: post) (by simp [hlist]) hterm
    simp at hnil

/-- What `Thinned` says of the instructions ahead of one that was left. -/
theorem Thinned.exists_skipped (ht : f.Thinned g out) {post : List InstId}
    (hlist : g.instsOf b = j :: post) :
    ∃ mid after, f.instsOf b = mid ++ j :: after ∧ ∀ k ∈ mid, k ∈ out := by
  rw [ht.instsOf] at hlist
  obtain ⟨mid, after, hf, hmid, -⟩ := List.filter_eq_cons_iff.mp hlist
  exact ⟨mid, after, hf, fun k hk => by simpa using hmid k hk⟩

/-- Where control gets from one instruction to the next, it gets past what was taken out. -/
theorem Thinned.walk_of_follows (ht : f.Thinned g out) (ho : f.Orderly) (hij : g.Follows i j) :
    ∃ between, f.Walk i between j ∧ ∀ k ∈ between, k ∈ out := by
  cases hij with
  | @next b before after hi hlist =>
    obtain ⟨-, pre, post, hf, -, hpost⟩ := ht.exists_split hlist
    obtain ⟨mid, after', rfl, hmid, -⟩ := List.filter_eq_cons_iff.mp hpost
    refine ⟨mid, walk_of_split hf ?_, fun k hk => by simpa using hmid k hk⟩
    have hsplit : f.instsOf b = (pre ++ i :: mid) ++ j :: after' := by simp [hf]
    exact fun k hk => ho.isTerminator_of_split hsplit k (List.mem_append_right _ hk)
  | @jump c hi hc hj =>
    rw [ht.isTerminator] at hi
    rw [ht.successors] at hc
    obtain ⟨rest, hlist⟩ := List.head?_eq_some_iff.mp hj
    obtain ⟨mid, after, hf, hmid⟩ := ht.exists_skipped hlist
    cases mid with
    | nil => exact ⟨[], .one (.jump hi hc (by simp [first?, hf])), by simp⟩
    | cons k mid =>
      refine ⟨k :: mid, .more (.jump hi hc (by simp [first?, hf])) ?_, hmid⟩
      have hsplit : f.instsOf c = [] ++ k :: (mid ++ j :: after) := hf
      exact walk_of_split hsplit (ho.isTerminator_of_split hf)

/-- What is used on arrival was live there before anything was taken out. -/
theorem Thinned.liveAfter_of_usedOnArrival (ht : f.Thinned g out) (hp : g.PlacesAgree)
    (ho : f.Orderly) (hv : ∀ k ∈ out, f.result? k ≠ some v) (hij : g.Follows i j)
    (huse : g.UsedOnArrival i j v) : f.LiveAfter v i := by
  rcases huse with ⟨hphi, huse⟩ | ⟨hterm, -, b, c, hib, hjc, phi, hleading, hpair⟩
  · obtain ⟨between, hw, hout⟩ := ht.walk_of_follows ho hij
    rw [ht.isPhi] at hphi
    rw [ht.valueOperands] at huse
    exact .of_walk hw (fun k hk => hv k (hout k hk)) fun _ _ => .inl (.inl ⟨hphi, huse⟩)
  · cases hij with
    | next hi => exact absurd hterm (by simp [hi])
    | @jump c' _ hc hj =>
      obtain rfl := hp.eq_of_mem hjc (mem_of_first? hj)
      have hphi := isPhi_of_mem_leadingPhis hleading
      rw [ht.isPhi] at hphi
      rw [ht.incoming] at hpair
      rw [ht.isTerminator] at hterm
      rw [ht.successors] at hc
      -- the block may have started with a phi that was taken out
      have hleading' := ho.mem_leadingPhis
        (ht.mem_instsOf.mp (mem_instsOf_of_mem_leadingPhis hleading)).1 hphi
      obtain ⟨first, hfirst, hfirstphi⟩ := exists_first?_of_mem_leadingPhis hleading'
      refine liveAfter_iff.mpr ⟨first, .jump hterm hc hfirst, .inl (.inr ⟨hterm, hfirstphi, b, c, ?_⟩)⟩
      exact ⟨(ht.mem_instsOf.mp hib).1, mem_of_first? hfirst, phi, hleading', hpair⟩

/-- **What is live in a part of a function is live in all of it**, unless a definition was taken out. -/
theorem Thinned.liveAfter (ht : f.Thinned g out) (hp : g.PlacesAgree) (ho : f.Orderly)
    (hv : ∀ k ∈ out, f.result? k ≠ some v) (hlive : g.LiveAfter v i) : f.LiveAfter v i := by
  obtain ⟨between, j, hw, hkeep, huse⟩ := hlive
  induction hw with
  | one hij => exact ht.liveAfter_of_usedOnArrival hp ho hv hij huse
  | @more i k j between hik _ ih =>
    obtain ⟨hk, hkeep⟩ := List.forall_mem_cons.mp hkeep
    rw [List.getLastD_cons] at huse
    have hlive := ih hkeep huse
    obtain ⟨skipped, hskip, hout⟩ := ht.walk_of_follows ho hik
    rw [ht.result?] at hk
    exact .of_walk hskip (fun l hl => hv l (hout l hl)) fun _ _ => .inr ⟨hk, hlive⟩

/-- Two parts of a function, of which one holds the other. -/
theorem Thinned.of_subset (hp : f.PlacesAgree) (hg : f.Thinned g out) (hh : f.Thinned h out')
    (hsub : ∀ i ∈ h.attached, i ∈ g.attached) : g.Thinned h out' where
  name := hh.name.trans hg.name.symm
  label b := (hh.label b).trans (hg.label b).symm
  layout := hh.layout.trans hg.layout.symm
  params := hh.params.trans hg.params.symm
  values := hh.values.trans hg.values.symm
  results := hh.results.trans hg.results.symm
  has l := (hh.has l).trans (hg.has l).symm
  inst i := (hh.inst i).trans (hg.inst i).symm
  instsOf b := by
    rw [hh.instsOf, hg.instsOf, List.filter_filter]
    refine List.filter_congr fun i hi => ?_
    have hout : i ∉ out' → i ∉ out := fun hi' =>
      (hg.mem_attached.mp (hsub i (hh.mem_attached.mpr ⟨hp.mem_attached hi, hi'⟩))).2
    simpa using hout

/-! ## Sets that support themselves -/

/-- The instruction is a terminator, a phi, a store or a call. -/
def Stays (f : Function) (i : InstId) : Prop :=
  ∃ d, f.inst? i = some d ∧
    (d.opcode.isTerminator = true ∨ d.opcode = .phi ∨ d.opcode = .store ∨ d.opcode = .call)

/-- With only the instructions of `S` in its blocks, the function has the result of each of them live
after it, but for those that stay in any case. -/
def SelfSupporting (f : Function) (S : Finset InstId) : Prop :=
  S ⊆ f.attached.toFinset ∧ ∃ g l,
    Edit.detachAll (f.attached.filter (· ∉ S)) f = .ok () g ∧ g.computeLiveness = .ok l ∧
      ∀ i ∈ S, ¬f.Stays i → ∃ v, f.result? i = some v ∧ v ∈ l.liveOut i

theorem stays_iff (hi : f.Has (.inst i)) : f.Stays i ↔ f.isRemovable i = false := by
  obtain ⟨d, hd⟩ := has_inst_iff.mp hi
  rw [Stays, ← Bool.not_eq_true, isRemovable_iff, isTerminator_of_inst? hd, isPhi_of_inst? hd,
    hasSideEffects_of_inst? hd, hd]
  obtain ⟨o, _, _, _, _, _⟩ := d
  cases o <;> simp [Opcode.isTerminator, Opcode.isPhi, Opcode.hasSideEffects]

/-- The function with only the instructions of `S` in its blocks. -/
theorem exists_only (hf : f.Built) (ht : f.TargetsExist) {S : Finset InstId}
    (hS : S ⊆ f.attached.toFinset) : ∃ g, Edit.detachAll (f.attached.filter (· ∉ S)) f = .ok () g ∧
      g.Built ∧ f.Thinned g (f.attached.filter (· ∉ S)) ∧ (∀ i, i ∈ g.attached ↔ i ∈ S) ∧
      g.computeLiveness = .ok g.liveness := by
  have hp := hf.coherent.places
  have hall : ∀ i ∈ f.attached.filter (· ∉ S), f.Has (.inst i) :=
    fun i hi => hp.has_attached (List.mem_of_mem_filter hi)
  obtain ⟨g, hg, hgb, hfg⟩ := detachAll_eq_ok hf hall
  refine ⟨g, hg, hgb, hfg, fun i => ?_, computeLiveness_eq_ok (ht.thinned hfg)⟩
  have hmem : i ∈ S → i ∈ f.attached := fun hi => List.mem_toFinset.mp (hS hi)
  rw [hfg.mem_attached, List.mem_filter, decide_eq_true_iff]
  tauto

/-- No round takes out anything from a set that supports itself. -/
theorem SelfSupporting.subset_of_sweep {S : Finset InstId} (hS : f.SelfSupporting S) (hf : f.Built)
    (ht : f.TargetsExist) (hg : g.Built) (ho : g.Orderly) (hfg : f.Thinned g out)
    (hsub : S ⊆ g.attached.toFinset) (hgh : g.Thinned h (g.deadInsts g.liveness)) :
    S ⊆ h.attached.toFinset := by
  intro i hi
  obtain ⟨hSf, k, l, hk, hl, hlive⟩ := hS
  obtain ⟨k', hk', hkb, hfk, hmem, hl'⟩ := exists_only hf ht hSf
  obtain ⟨-, rfl⟩ := EStateM.Result.ok.inj (hk.symm.trans hk')
  obtain rfl := Except.ok.inj (hl.symm.trans hl')
  have hig := List.mem_toFinset.mp (hsub hi)
  rw [List.mem_toFinset, hgh.mem_attached]
  refine ⟨hig, fun hdead => ?_⟩
  obtain ⟨-, hremovable, hnone⟩ := (mem_deadInsts hg.coherent.places).mp hdead
  have hif := (hfg.mem_attached.mp hig).1
  have hstays : ¬f.Stays i := by
    rw [stays_iff (hf.coherent.places.has_attached hif), ← hfg.isRemovable, hremovable]
    simp
  obtain ⟨v, hv, hout⟩ := hlive i hi hstays
  have hkp := hkb.coherent.places
  have hafter := (hkp.isExact_liveness.liveOut_iff i ((hmem i).mpr hi) v).mp hout
  have hgk : g.Thinned k _ := hfg.of_subset hf.coherent.places hfk fun j hj =>
    List.mem_toFinset.mp (hsub ((hmem j).mp hj))
  have hstill : i ∉ f.attached.filter (· ∉ S) := by simp [hi]
  refine hnone v ((hfg.result? i).trans hv) (hgk.liveAfter hkp ho (fun j hj => ?_) hafter)
  rw [hfg.result?]
  exact hf.coherent.definitions.result?_ne hv hstill j hj

/-- What is left supports itself once a round takes nothing out. -/
theorem selfSupporting_of_deadInsts (hf : f.Built) (ht : f.TargetsExist) (ho : f.Orderly)
    (hg : g.Built) (hfg : f.Swept g out) (hdead : g.deadInsts g.liveness = []) :
    f.SelfSupporting g.attached.toFinset := by
  have hp := hf.coherent.places
  have hsub : g.attached.toFinset ⊆ f.attached.toFinset := fun i hi =>
    List.mem_toFinset.mpr (hfg.thinned.mem_attached.mp (List.mem_toFinset.mp hi)).1
  obtain ⟨h, hh, hhb, hfh, hmem, hl⟩ := exists_only hf ht hsub
  have hmem' : ∀ i, i ∈ h.attached ↔ i ∈ g.attached := fun i => by rw [hmem, List.mem_toFinset]
  refine ⟨hsub, h, h.liveness, hh, hl, fun i hi hstays => ?_⟩
  have hig := List.mem_toFinset.mp hi
  have hif := (hfg.thinned.mem_attached.mp hig).1
  rw [stays_iff (hp.has_attached hif), Bool.not_eq_false] at hstays
  have hlive : ∃ v, f.result? i = some v ∧ g.LiveAfter v i := by
    by_contra hnone
    have hmember : i ∈ g.deadInsts g.liveness := by
      refine (mem_deadInsts hg.coherent.places).mpr
        ⟨hig, (hfg.thinned.isRemovable i).trans hstays, fun v hv hlive => hnone ⟨v, ?_, hlive⟩⟩
      rwa [hfg.thinned.result?] at hv
    rw [hdead] at hmember
    cases hmember
  obtain ⟨v, hv, hlive⟩ := hlive
  refine ⟨v, hv, (hhb.coherent.places.isExact_liveness.liveOut_iff i ((hmem' i).mpr hig) v).mpr ?_⟩
  have hremovable : f.AllRemovable (f.attached.filter (· ∉ g.attached.toFinset)) := by
    intro j hj
    obtain ⟨hjf, hjg⟩ := List.mem_filter.mp hj
    rw [decide_eq_true_iff, List.mem_toFinset, hfg.thinned.mem_attached] at hjg
    exact hfg.removable j (by_contra fun hno => hjg ⟨hjf, hno⟩)
  have hhg := hfh.of_subset hp hfg.thinned fun j hj => (hmem' j).mpr hj
  have hstill := (hfg.thinned.mem_attached.mp hig).2
  refine hhg.liveAfter hg.coherent.places (ho.thinned hfh hremovable) (fun j hj => ?_) hlive
  rw [hfh.result?]
  exact hf.coherent.definitions.result?_ne hv hstill j hj

/-- **Elimination by liveness leaves the largest set that supports itself**, with everything that stays
in any case. -/
theorem exists_eliminate_isGreatest {text : String} {fs : List Function}
    (hparse : parseModule text = .ok fs) (hf : f ∈ fs) (hv : f.validate = .ok []) :
    ∃ r g, Edit.eliminate {} f = .ok r g ∧ r.reachedFixpoint = true ∧
      IsGreatest {S | f.SelfSupporting S} g.attached.toFinset ∧
      ∀ i ∈ f.attached, f.Stays i → i ∈ g.attached := by
  have hcomposed := composed_of_parseModule hparse f hf
  have hb := hcomposed.built
  have hp := hb.coherent.places
  have ht := hcomposed.closed.targetsExist
  have ho := ((validate_eq_ok_nil_iff hp).mp hv).1
  have hsweep : ∀ g, (g.Built ∧ g.Orderly ∧ (∃ out, f.Swept g out) ∧
        ∀ S, f.SelfSupporting S → S ⊆ g.attached.toFinset) →
      ∃ out h, Edit.sweep .liveness g = .ok out.length h ∧ g.Swept h out ∧ h.Built ∧ h.Orderly ∧
        (∃ out, f.Swept h out) ∧ ∀ S, f.SelfSupporting S → S ⊆ h.attached.toFinset := by
    rintro g ⟨hgb, hgo, ⟨out, hfg⟩, hall⟩
    obtain ⟨h, hh, hgh⟩ := sweep_liveness_eq_ok hgb (ht.thinned hfg.thinned)
    exact ⟨_, h, hh, hgh, hgh.built, hgo.thinned hgh.thinned hgh.removable, ⟨_, hfg.trans hgh⟩,
      fun S hS => hS.subset_of_sweep hb ht hgb hgo hfg.thinned (hall S hS) hgh.thinned⟩
  obtain ⟨r, out, g, hg, hfg, ⟨hgb, -, -, hall⟩, -, hfix, hend⟩ :=
    eliminate_keeps {} hsweep hb ⟨hb, ho, ⟨_, .refl hb⟩, fun S hS => hS.1⟩
  have hended := hend rfl
  obtain ⟨h, hh, -⟩ := sweep_liveness_eq_ok hgb (ht.thinned hfg.thinned)
  have hdead := (EStateM.Result.ok.inj (hh.symm.trans (hfix hended))).1
  refine ⟨r, g, hg, hended, ⟨?_, hall⟩, fun i hi hstays => ?_⟩
  · exact selfSupporting_of_deadInsts hb ht ho hgb hfg (List.eq_nil_of_length_eq_zero hdead)
  · refine hfg.thinned.mem_attached.mpr ⟨hi, fun hout => ?_⟩
    rw [stays_iff (hp.has_attached hi), hfg.removable i hout] at hstays
    cases hstays

/-- A loop with two instructions that use each other, and a chain that nothing uses. -/
def pairAndChain : String :=
  "func @f(%n) \x7b\n ^a:\n br [^b]\n ^b:\n %p = add %q, 1\n %q = add %p, 1\n" ++
    " %x = neg %p\n %y = not %x\n condbr %n [^b, ^c]\n ^c:\n ret %n\n\x7d"

/-- The pair stays, though nothing else needs it, and the chain goes. -/
theorem exists_eliminate_isGreatest_pairAndChain :
    ∃ fs, parseModule pairAndChain = .ok fs ∧ fs.length = 1 ∧
      ∀ f ∈ fs, ∃ r g, Edit.eliminate {} f = .ok r g ∧ g.attached.map (·.index) = [0, 1, 2, 5, 6] ∧
        IsGreatest {S | f.SelfSupporting S} g.attached.toFinset := by
  have hruns : (parseModule pairAndChain).toOption.any (fun fs => fs.length = 1 && fs.all fun f =>
      f.validate = .ok [] && Run.succeeds (Edit.eliminate {} f) fun g =>
        g.attached.map (·.index) = [0, 1, 2, 5, 6]) = true := by
    decide +kernel
  obtain ⟨fs, hparse, hfs⟩ := Run.exists_eq_ok_and hruns
  rw [Bool.and_eq_true, decide_eq_true_iff, List.all_eq_true] at hfs
  refine ⟨fs, hparse, hfs.1, fun f hf => ?_⟩
  have hchecks := Bool.and_eq_true_iff.mp (hfs.2 f hf)
  obtain ⟨r, g, hg, -, hgreatest, -⟩ :=
    exists_eliminate_isGreatest hparse hf (of_decide_eq_true hchecks.1)
  obtain ⟨r', g', hg', hleft⟩ := Run.exists_of_succeeds hchecks.2
  obtain ⟨-, rfl⟩ := EStateM.Result.ok.inj (hg.symm.trans hg')
  exact ⟨r, g, hg, of_decide_eq_true hleft, hgreatest⟩

end SsaPrune.Function
