import SsaPrune.Proofs.Elimination.Sweeps
import SsaPrune.Proofs.Execution.Simulation

/-!
# Elimination cannot be observed

By liveness it never can: each round takes out what does not matter. By the lists of uses it cannot
when no use is left behind of a definition that went. None is when the lists are complete, as they are
in every function that was read from a text; but placing an instruction again does not restore the uses
that were dropped when it was taken out, and then a definition may go before a use that can be observed
(`movedCall_distinguishable`).
-/

namespace SsaPrune

namespace Function

variable {f g k : Function} {out out' : List InstId}

/-! ## By liveness -/

theorem indistinguishable_of_liveness (h : f.Built) (ho : f.Orderly)
    (ht : f.Thinned g (f.deadInsts f.liveness)) : Indistinguishable f g := by
  have hp := h.coherent.places
  refine indistinguishable_of_dead ho (covers_liveAfter f _) hp ht fun i hi => ?_
  exact ((mem_deadInsts hp).mp hi).2

theorem exists_eliminate_liveness (limit : Option Nat) (h : f.Built) (ho : f.Orderly)
    (ht : f.TargetsExist) :
    ∃ r g, Edit.eliminate ⟨.liveness, limit⟩ f = .ok r g ∧ Indistinguishable f g := by
  have hround : ∀ g k, g.Built → g.Orderly → Indistinguishable f g → k.Built →
      g.Thinned k (g.deadInsts g.liveness) → Indistinguishable f k :=
    fun g k hgb hgo hfg _ hgk => hfg.trans (indistinguishable_of_liveness hgb hgo hgk)
  obtain ⟨r, g, hg, -, -, hfg⟩ := eliminate_liveness_keeps limit hround h ho ht (.refl f)
  exact ⟨r, g, hg, hfg⟩

/-! ## Uses that are left behind -/

/-- No instruction that is left in `g` uses the result of one of `out`. -/
def NoUseLeft (f g : Function) (out : List InstId) : Prop :=
  ∀ i ∈ out, ∀ v, f.result? i = some v → ∀ j ∈ g.attached, v ∉ f.valueOperands j

theorem NoUseLeft.trans (hu : f.NoUseLeft g out) (hu' : g.NoUseLeft k out')
    (ht : f.Thinned g out) (ht' : g.Thinned k out') : f.NoUseLeft k (out ++ out') := by
  intro i hi v hr j hj
  rcases List.mem_append.mp hi with hi | hi
  · exact hu i hi v hr j (ht'.mem_attached.mp hj).1
  · rw [← ht.result?] at hr
    rw [← ht.valueOperands]
    exact hu' i hi v hr j hj

/-- The values that some instruction uses which is left may matter everywhere. -/
theorem covers_used (hp : f.PlacesAgree) (ht : f.Thinned g out) (hr : f.AllRemovable out) :
    f.Covers out fun _ v => ∃ j ∈ g.attached, v ∈ f.valueOperands j := by
  rintro i j v - hf (⟨hjo, ⟨-, huse⟩ | ⟨-, -, b, c, -, -, phi, hphi, hpair⟩⟩ | ⟨-, hused⟩)
  · exact ⟨j, ht.mem_attached.mpr ⟨hf.mem_attached hp, hjo⟩, huse⟩
  · have hattached := hp.mem_attached (mem_instsOf_of_mem_leadingPhis hphi)
    have hleft := hr.not_mem_of_isPhi (isPhi_of_mem_leadingPhis hphi)
    exact ⟨phi, ht.mem_attached.mpr ⟨hattached, hleft⟩,
      Solver.mem_valueOperands_of_mem_incoming hpair⟩
  · exact hused

/-- What is not used any more cannot be observed. -/
theorem NoUseLeft.indistinguishable (hu : f.NoUseLeft g out) (ho : f.Orderly) (hp : f.PlacesAgree)
    (ht : f.Thinned g out) (hr : f.AllRemovable out) : Indistinguishable f g := by
  refine indistinguishable_of_dead ho (covers_used hp ht hr) hp ht fun i hi => ⟨hr i hi, ?_⟩
  rintro v hres ⟨j, hj, hv⟩
  exact hu i hi v hres j hj hv

theorem OperandsDefined.noUseLeft (hd : g.OperandsDefined) (hf : f.DefinitionsAgree)
    (hp : g.PlacesAgree) (ht : f.Thinned g out) : f.NoUseLeft g out := by
  intro i hi v hres j hj hv
  rw [← ht.valueOperands] at hv
  have hdef := (hf.result_iff i v).mp hres
  rw [← ht.definition?] at hdef
  have hattached := isDangling_eq_false_iff.mp (hd j hj v hv).2 i hdef
  exact (ht.mem_attached.mp (hp.isAttached_iff.mp hattached)).2 hi

/-! ## By the lists of uses -/

theorem isUnused_iff {i : InstId} : f.isUnused i = true ↔
    f.isRemovable i = true ∧ ∀ v, f.result? i = some v → f.usesOf v = [] := by
  rw [isUnused, Bool.and_eq_true]
  apply and_congr_right
  intro _
  cases f.result? i with
  | none => simp
  | some v => simp [hasUses]

/-- Every use by an instruction that a block holds stands in the list of its value. -/
def UsesComplete (f : Function) : Prop := ∀ i ∈ f.attached, f.UsesListed i

theorem Composed.usesComplete (h : f.Composed) : f.UsesComplete := fun i _ => h.usesListed i

/-- `g` is what is left of `f` without the removable instructions of `out`. If the lists of uses were
complete, they still are, and no use is left behind. -/
structure Reduced (f g : Function) (out : List InstId) : Prop where
  thinned : f.Thinned g out
  removable : f.AllRemovable out
  complete : f.UsesComplete → g.UsesComplete
  noUseLeft : f.UsesComplete → f.NoUseLeft g out

theorem Reduced.refl (f : Function) : f.Reduced f [] :=
  ⟨.refl f, by simp [AllRemovable], id, fun _ => by simp [NoUseLeft]⟩

theorem Reduced.trans (hfg : f.Reduced g out) (hgk : g.Reduced k out') :
    f.Reduced k (out ++ out') where
  thinned := hfg.thinned.trans hgk.thinned
  removable i hi := by
    rcases List.mem_append.mp hi with hi | hi
    · exact hfg.removable i hi
    · rw [← hfg.thinned.isRemovable]
      exact hgk.removable i hi
  complete hf := hgk.complete (hfg.complete hf)
  noUseLeft hf :=
    (hfg.noUseLeft hf).trans (hgk.noUseLeft (hfg.complete hf)) hfg.thinned hgk.thinned

/-- Taking out one unused instruction. -/
theorem reduced_of_isUnused {i : InstId} (h : f.Built) (hi : i ∈ f.attached)
    (hunused : f.isUnused i = true) (hg : Edit.detach i f = .ok () g) :
    g.Built ∧ f.Reduced g [i] := by
  obtain ⟨g', hg', hbuilt, ht, hlisted⟩ := detach_eq_ok h (h.coherent.places.has_attached hi)
  obtain ⟨-, rfl⟩ := EStateM.Result.ok.inj (hg.symm.trans hg')
  refine ⟨hbuilt, ht, fun j hj => ?_, fun hf j hj => ?_, fun hf j hj v hr u hu hv => ?_⟩
  · obtain rfl := List.mem_singleton.mp hj
    exact (isUnused_iff.mp hunused).1
  · obtain ⟨hjf, hji⟩ := ht.mem_attached.mp hj
    exact hlisted j (by simpa using hji) (hf j hjf)
  · obtain rfl := List.mem_singleton.mp hj
    obtain ⟨k, hk⟩ := List.mem_iff_getElem?.mp ((f.mem_valueOperands u).mp hv)
    have hmem := hf u (ht.mem_attached.mp hu).1 v k (mem_positionedValues.mpr hk)
    rw [(isUnused_iff.mp hunused).2 v hr] at hmem
    cases hmem

theorem Dropped.reduced (hd : f.Dropped out g) (h : f.Built) : g.Built ∧ f.Reduced g out := by
  induction hd with
  | none f => exact ⟨h, .refl f⟩
  | one hi hunused hg _ ih =>
    obtain ⟨hgb, hfg⟩ := reduced_of_isUnused h hi hunused hg
    obtain ⟨hkb, hgk⟩ := ih hgb
    exact ⟨hkb, hfg.trans hgk⟩

theorem exists_eliminate_useChain (limit : Option Nat) (h : f.Built) :
    ∃ r g out, Edit.eliminate ⟨.useChain, limit⟩ f = .ok r g ∧ g.Built ∧ f.Reduced g out := by
  have hsweep : ∀ g, (g.Built ∧ ∃ out, f.Reduced g out) →
      ∃ out k, Edit.sweep .useChain g = .ok out.length k ∧ g.Swept k out ∧
        k.Built ∧ ∃ out, f.Reduced k out := by
    rintro g ⟨hgb, out, hfg⟩
    obtain ⟨out', k, hk, hd, -⟩ := sweep_useChain_eq_ok hgb
    obtain ⟨hkb, hgk⟩ := hd.reduced hgb
    exact ⟨_, k, hk, hd.swept hgb, hkb, _, hfg.trans hgk⟩
  obtain ⟨r, -, g, hg, -, ⟨hgb, out, hfg⟩, -⟩ :=
    eliminate_keeps ⟨.useChain, limit⟩ hsweep h ⟨h, [], .refl f⟩
  exact ⟨r, g, out, hg, hgb, hfg⟩

/-! ## By either strategy -/

/-- **Elimination cannot be observed**, with any limit, by liveness or when the lists of uses are
complete, or at least no use is left behind. -/
theorem exists_eliminate_indistinguishable (config : EliminationConfig) (h : f.Built)
    (ht : config.strategy = .liveness → f.TargetsExist) (hv : f.validate = .ok []) :
    ∃ r g, Edit.eliminate config f = .ok r g ∧
      (config.strategy = .liveness ∨ f.UsesComplete ∨ g.validate = .ok [] →
        Indistinguishable f g) := by
  have hp := h.coherent.places
  have ho := ((validate_eq_ok_nil_iff hp).mp hv).1
  obtain ⟨strategy, limit⟩ := config
  cases strategy with
  | liveness =>
    obtain ⟨r, g, hg, hfg⟩ := exists_eliminate_liveness limit h ho (ht rfl)
    exact ⟨r, g, hg, fun _ => hfg⟩
  | useChain =>
    obtain ⟨r, g, out, hg, hgb, hfg⟩ := exists_eliminate_useChain limit h
    refine ⟨r, g, hg, fun hwhen => ?_⟩
    have hnone : f.NoUseLeft g out := by
      rcases hwhen with hstrategy | hcomplete | hvalid
      · cases hstrategy
      · exact hfg.noUseLeft hcomplete
      · have hgp := hgb.coherent.places
        have hd := ((validate_eq_ok_nil_iff hgp).mp hvalid).2
        exact hd.noUseLeft h.coherent.definitions hgp hfg.thinned
    exact hnone.indistinguishable ho hp hfg.thinned hfg.removable

/-- A loop with a dead instruction that uses another one, which was dead but for it, and with a call. -/
def deadBesideCall : String :=
  "func @f(%n) \x7b\n ^a:\n br [^b]\n ^b:\n %i = phi [0, ^a], [%j, ^b]\n %j = add %i, 1\n" ++
    " %x = mul %j, 2\n %y = neg %x\n call @g %j\n condbr %j [^b, ^c]\n ^c:\n ret %n\n\x7d"

/-- Both dead instructions go in the end, by either strategy. -/
theorem exists_eliminate_indistinguishable_loop : ∃ f, parseModule deadBesideCall = .ok [f] ∧
    f.validate = .ok [] ∧
    (∀ config, ∃ r g, Edit.eliminate config f = .ok r g ∧ Indistinguishable f g) ∧
    ∀ strategy ∈ [Strategy.liveness, .useChain], ∃ r g, Edit.eliminate ⟨strategy, none⟩ f = .ok r g ∧
      g.attached = [⟨0⟩, ⟨1⟩, ⟨2⟩, ⟨5⟩, ⟨6⟩, ⟨7⟩] := by
  have hruns : Run.yieldsOne (parseModule deadBesideCall) (fun f =>
      f.validate = .ok [] ∧ ∀ strategy ∈ [Strategy.liveness, .useChain],
        Run.succeeds (Edit.eliminate ⟨strategy, none⟩ f) (fun g =>
          g.attached = [⟨0⟩, ⟨1⟩, ⟨2⟩, ⟨5⟩, ⟨6⟩, ⟨7⟩]) = true) = true := by
    decide +kernel
  obtain ⟨f, hparse, hchecks⟩ := Run.exists_of_yieldsOne hruns
  obtain ⟨hv, hleft⟩ := of_decide_eq_true hchecks
  have hcomposed := composed_of_parseModule hparse f (by simp)
  refine ⟨f, hparse, hv, fun config => ?_, fun strategy hstrategy => ?_⟩
  · obtain ⟨r, g, hg, hfg⟩ := exists_eliminate_indistinguishable config hcomposed.built
      (fun _ => hcomposed.closed.targetsExist) hv
    exact ⟨r, g, hg, hfg (.inr (.inl hcomposed.usesComplete))⟩
  · obtain ⟨r, g, hg, hattached⟩ := Run.exists_of_succeeds (hleft strategy hstrategy)
    exact ⟨r, g, hg, of_decide_eq_true hattached⟩

/-! ## A use that is missing from its list -/

/-- A call with `%x`, which was placed again after it had been taken out. -/
def movedCall : List Request :=
  [.addBlock (some "entry"),
    .create { opcode := .copy, operands := [.imm 1] }, .defineResult ⟨0⟩ (some "x"),
    .append ⟨0⟩ ⟨0⟩,
    .create { opcode := .call, operands := [.value ⟨0⟩], callee := some "g" },
    .create { opcode := .ret }, .append ⟨0⟩ ⟨2⟩,
    .insertBefore ⟨2⟩ ⟨1⟩, .detach ⟨1⟩, .insertBefore ⟨2⟩ ⟨1⟩]

theorem Built.requests (h : f.Built) {rs : List Request}
    (hg : rs.forM Request.run f = .ok () g) : g.Built := by
  induction rs generalizing f with
  | nil =>
    obtain ⟨-, rfl⟩ := EStateM.Result.ok.inj hg
    exact h
  | cons r rs ih =>
    obtain ⟨_, k, hk, hg⟩ := Run.bind_eq_ok.mp hg
    exact ih (.request r h hk) hg

/-- Numbers, with calls that are only recorded. -/
def numbers : Interpretation Int64 Unit (List Int64) where
  imm n := n
  initial _ := 0
  memory := ()
  compute _ _ xs _ := xs.headD 0
  effect _ _ xs _ := ((), 0, xs)
  branch x := x ≠ 0
  unpaired _ := 0

/-- By the lists of uses, `%x` goes although the call is still there. -/
theorem movedCall_distinguishable : ∃ f : Function, f.Built ∧ f.validate = .ok [] ∧
    ∃ r g, Edit.eliminate ⟨.useChain, none⟩ f = .ok r g ∧ ¬Indistinguishable f g := by
  have hruns : Run.succeeds (movedCall.forM Request.run (.empty "f")) (fun f =>
      f.validate = .ok [] && Run.succeeds (Edit.eliminate ⟨.useChain, none⟩ f) fun g =>
        (numbers.run f 1).map State.effects ≠ (numbers.run g 1).map State.effects) = true := by
    decide +kernel
  obtain ⟨_, f, hf, hrun⟩ := Run.exists_of_succeeds hruns
  rw [Bool.and_eq_true, decide_eq_true_iff] at hrun
  obtain ⟨r, g, hg, hne⟩ := Run.exists_of_succeeds hrun.2
  refine ⟨f, .requests (.empty "f") hf, hrun.1, r, g, hg, fun hfg => ?_⟩
  exact of_decide_eq_true hne (hfg _ _ _ numbers 1)

end Function

end SsaPrune
