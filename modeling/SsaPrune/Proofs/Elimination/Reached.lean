import SsaPrune.Proofs.Elimination.Sweeps

/-!
# Uses that control gets to

Liveness looks along the control flow; the validator does not. So an instruction whose result is used
only where control cannot get to from it is dead, and when it goes, the use is left behind.

Where control gets from each instruction that may be removed to every use of its result, such a result
is live as long as it is used (`UsesReached.liveAfter`), and then elimination by liveness leaves a well
formed function (`exists_eliminate_validate`). In general, what it leaves is well formed exactly when
no use was left behind.
-/

namespace SsaPrune

namespace Function

/-- Control can get from each instruction that may be removed to every use of its result: to the
instruction itself, or, if that is a phi, to the end of the block that it pairs the value with. -/
structure UsesReached (f : Function) : Prop where
  walk_use : ∀ d ∈ f.attached, f.isRemovable d = true → ∀ v, f.result? d = some v →
    ∀ u ∈ f.attached, f.isPhi u = false → v ∈ f.valueOperands u → ∃ between, f.Walk d between u
  walk_phi : ∀ d ∈ f.attached, f.isRemovable d = true → ∀ v, f.result? d = some v →
    ∀ u ∈ f.attached, f.isPhi u = true → ∀ b, (b, .value v) ∈ f.incoming u →
      ∃ t, f.last? b = some t ∧ (d = t ∨ ∃ between, f.Walk d between t)

variable {f g : Function} {out : List InstId}

/-! ## The edges of a phi -/

/-- Each value of a phi is paired with a block. -/
theorem Orderly.exists_mem_incoming (ho : f.Orderly) (hp : f.PlacesAgree) {c : BlockId}
    {u : InstId} {v : ValueId} (hu : u ∈ f.instsOf c) (hphi : f.isPhi u = true)
    (hv : v ∈ f.valueOperands u) : ∃ b, (b, .value v) ∈ f.incoming u := by
  obtain ⟨d, hd⟩ := hp.exists_inst? hu
  rw [isPhi_of_inst? hd] at hphi
  rw [mem_valueOperands, operands_of_inst? hd] at hv
  have hlength := (shape_of_isPhi (ho.flawless c u hu d hd) hphi).2.1
  obtain ⟨k, hk⟩ := List.mem_iff_getElem?.mp hv
  have hlt : k < d.phiBlocks.length := by
    have := (List.getElem?_eq_some_iff.mp hk).1
    omega
  refine ⟨d.phiBlocks[k], List.mem_iff_getElem?.mpr ⟨k, ?_⟩⟩
  rw [incoming_of_inst? hd, Instruction.incoming, List.getElem?_zip_eq_some]
  exact ⟨List.getElem?_eq_getElem hlt, hk⟩

/-- A block that a phi names ends with a terminator that leads to the phi. -/
theorem Orderly.exists_exit? (ho : f.Orderly) (hp : f.PlacesAgree) {b c : BlockId} {u : InstId}
    {x : Operand} (hu : u ∈ f.instsOf c) (hphi : f.isPhi u = true)
    (hpair : (b, x) ∈ f.incoming u) : ∃ t, f.exit? b = some t ∧ c ∈ f.successors t := by
  obtain ⟨d, hd⟩ := hp.exists_inst? hu
  rw [isPhi_of_inst? hd] at hphi
  rw [incoming_of_inst? hd] at hpair
  have hpred := ho.incoming c u hu d hd hphi b (List.of_mem_zip hpair).1
  rw [preds, List.mem_filter, decide_eq_true_iff, targets_eq] at hpred
  cases ht : f.exit? b with
  | none => simp [ht] at hpred
  | some t =>
    rw [ht] at hpred
    exact ⟨t, rfl, hpred.2⟩

theorem last?_of_exit? {b : BlockId} {t : InstId} (h : f.exit? b = some t) :
    f.last? b = some t ∧ f.isTerminator t = true :=
  Option.filter_eq_some_iff.mp h

/-! ## Uses keep results alive -/

/-- The phi at the end of an edge needs its value where control takes the edge. -/
theorem liveAfter_of_phi (ho : f.Orderly) {b c : BlockId} {t u : InstId} {v : ValueId}
    (ht : f.exit? b = some t) (hc : c ∈ f.successors t) (hu : u ∈ f.instsOf c)
    (hphi : f.isPhi u = true) (hpair : (b, .value v) ∈ f.incoming u) : f.LiveAfter v t := by
  obtain ⟨hlast, hterm⟩ := last?_of_exit? ht
  have hleading := ho.mem_leadingPhis hu hphi
  obtain ⟨j, hj, hjphi⟩ := exists_first?_of_mem_leadingPhis hleading
  refine liveAfter_iff.mpr ⟨j, .jump hterm hc hj, .inl (.inr ⟨hterm, hjphi, b, c, ?_, ?_, ?_⟩)⟩
  · exact List.mem_of_getLast? hlast
  · exact mem_of_first? hj
  · exact ⟨u, hleading, hpair⟩

/-- **A result that is used is live**, where control gets to all uses. -/
theorem UsesReached.liveAfter (hr : f.UsesReached) (h : f.Built) (ho : f.Orderly) {d u : InstId}
    {v : ValueId} (hd : d ∈ f.attached) (hremovable : f.isRemovable d = true)
    (hres : f.result? d = some v) (hu : u ∈ f.attached) (hv : v ∈ f.valueOperands u) :
    f.LiveAfter v d := by
  obtain ⟨hp, hdefs⟩ := h.coherent
  have hcut : ∀ {j}, (∃ between, f.Walk d between j) →
      ∃ between, f.Walk d between j ∧ ∀ k ∈ between, f.result? k ≠ some v := by
    rintro j ⟨between, hw⟩
    obtain ⟨short, hshort, hno⟩ := hw.exists_not_mem
    exact ⟨short, hshort, hdefs.result?_ne hres hno⟩
  cases hphi : f.isPhi u with
  | false =>
    obtain ⟨between, hw, hkeep⟩ := hcut (hr.walk_use d hd hremovable v hres u hu hphi hv)
    exact .of_walk hw hkeep fun _ _ => .inl (.inl ⟨hphi, hv⟩)
  | true =>
    obtain ⟨c, -, huc⟩ := List.mem_flatMap.mp hu
    obtain ⟨b, hpair⟩ := ho.exists_mem_incoming hp huc hphi hv
    obtain ⟨t, ht, hc⟩ := ho.exists_exit? hp huc hphi hpair
    have hlive := liveAfter_of_phi ho ht hc huc hphi hpair
    obtain ⟨hlast, hterm⟩ := last?_of_exit? ht
    obtain ⟨t', hlast', hwalk⟩ := hr.walk_phi d hd hremovable v hres u hu hphi b hpair
    obtain rfl := Option.some.inj (hlast.symm.trans hlast')
    have hdt : d ≠ t := by
      rintro rfl
      rw [(isRemovable_iff.mp hremovable).1] at hterm
      cases hterm
    obtain ⟨between, hw, hkeep⟩ := hcut (hwalk.resolve_left hdt)
    refine .of_walk hw hkeep fun _ _ => .inr ⟨fun htv => hdt (hdefs.eq_of_result? hres htv), hlive⟩

/-! ## One round -/

theorem UsesReached.thinned (hr : f.UsesReached) (ho : f.Orderly) (ht : f.Thinned g out)
    (hout : f.AllRemovable out) (hp : f.PlacesAgree) : g.UsesReached where
  walk_use d hd hremovable v hres u hu hphi hv := by
    obtain ⟨hdf, hdo⟩ := ht.mem_attached.mp hd
    obtain ⟨huf, huo⟩ := ht.mem_attached.mp hu
    rw [ht.isRemovable] at hremovable
    rw [ht.result?] at hres
    rw [ht.isPhi] at hphi
    rw [ht.valueOperands] at hv
    obtain ⟨between, hw⟩ := hr.walk_use d hdf hremovable v hres u huf hphi hv
    exact ht.walk hp hout hdo huo hw
  walk_phi d hd hremovable v hres u hu hphi b hpair := by
    obtain ⟨hdf, hdo⟩ := ht.mem_attached.mp hd
    obtain ⟨huf, huo⟩ := ht.mem_attached.mp hu
    rw [ht.isRemovable] at hremovable
    rw [ht.result?] at hres
    rw [ht.isPhi] at hphi
    rw [ht.incoming] at hpair
    obtain ⟨c, -, huc⟩ := List.mem_flatMap.mp huf
    obtain ⟨t, hexit, -⟩ := ho.exists_exit? hp huc hphi hpair
    obtain ⟨hlast, hterm⟩ := last?_of_exit? hexit
    rw [← ht.exit? ho hout] at hexit
    refine ⟨t, (last?_of_exit? hexit).1, ?_⟩
    obtain ⟨t', hlast', hwalk⟩ := hr.walk_phi d hdf hremovable v hres u huf hphi b hpair
    obtain rfl := Option.some.inj (hlast.symm.trans hlast')
    refine hwalk.imp_right fun ⟨between, hw⟩ => ?_
    exact ht.walk hp hout hdo (hout.not_mem_of_isTerminator hterm) hw

/-- Operands stay defined exactly when no definition goes before a use of it. -/
theorem Thinned.operandsDefined_iff (ht : f.Thinned g out) (hpg : g.PlacesAgree)
    (hd : f.OperandsDefined) : g.OperandsDefined ↔
      ∀ i ∈ g.attached, ∀ v ∈ f.valueOperands i, ∀ j, f.definition? v = some (.result j) →
        j ∈ g.attached := by
  have hdangling : ∀ v, g.isDangling v = false ↔
      ∀ j, f.definition? v = some (.result j) → j ∈ g.attached := by
    intro v
    rw [isDangling_eq_false_iff, ht.definition?]
    simp only [hpg.isAttached_iff]
  unfold OperandsDefined
  simp only [ht.valueOperands, hdangling]
  constructor
  · intro h i hi v hv
    exact (h i hi v hv).2
  · intro h i hi v hv
    have hif := (ht.mem_attached.mp hi).1
    exact ⟨(ht.has _).mpr (hd i hif v hv).1, h i hi v hv⟩

/-- A round by liveness leaves no use behind that control got to. -/
theorem UsesReached.operandsDefined (hr : f.UsesReached) (h : f.Built) (ho : f.Orderly)
    (hd : f.OperandsDefined) (ht : f.Thinned g (f.deadInsts f.liveness)) (hg : g.Built) :
    g.OperandsDefined := by
  have hp := h.coherent.places
  rw [ht.operandsDefined_iff hg.coherent.places hd]
  intro i hi v hv j hj
  have hif := (ht.mem_attached.mp hi).1
  have hjf : j ∈ f.attached :=
    hp.isAttached_iff.mp (isDangling_eq_false_iff.mp (hd i hif v hv).2 j hj)
  refine ht.mem_attached.mpr ⟨hjf, fun hdead => ?_⟩
  obtain ⟨-, hremovable, hnot⟩ := (mem_deadInsts hp).mp hdead
  have hres := (h.coherent.definitions.result_iff j v).mpr hj
  exact hnot v hres (hr.liveAfter h ho hjf hremovable hres hif hv)

/-! ## All rounds -/

/-- **What elimination by liveness leaves** is well formed exactly when every definition that is still
used is still there. So it is where control gets to all uses. -/
theorem exists_eliminate_validate (limit : Option Nat)
    (h : (∃ text fs, parseModule text = .ok fs ∧ f ∈ fs) ∨ f.Built ∧ f.TargetsExist)
    (hv : f.validate = .ok []) :
    ∃ r g, Edit.eliminate ⟨.liveness, limit⟩ f = .ok r g ∧
      (g.validate = .ok [] ↔ ∀ i ∈ g.attached, ∀ v ∈ f.valueOperands i, ∀ j,
        f.definition? v = some (.result j) → j ∈ g.attached) ∧
      (f.UsesReached → g.validate = .ok []) := by
  have hboth : f.Built ∧ f.TargetsExist := by
    rcases h with ⟨text, fs, hparse, hf⟩ | h
    · have hcomposed := composed_of_parseModule hparse f hf
      exact ⟨hcomposed.built, hcomposed.closed.targetsExist⟩
    · exact h
  obtain ⟨hb, ht⟩ := hboth
  have hp := hb.coherent.places
  obtain ⟨ho, hd⟩ := (validate_eq_ok_nil_iff hp).mp hv
  have hround : ∀ g k, g.Built → g.Orderly →
      ((∃ out, f.Thinned g out) ∧ (f.UsesReached → g.OperandsDefined ∧ g.UsesReached)) →
      k.Built → g.Thinned k (g.deadInsts g.liveness) →
      (∃ out, f.Thinned k out) ∧ (f.UsesReached → k.OperandsDefined ∧ k.UsesReached) := by
    rintro g k hgb hgo ⟨⟨out, hfg⟩, hreached⟩ hkb hgk
    refine ⟨⟨_, hfg.trans hgk⟩, fun hr => ?_⟩
    obtain ⟨hgd, hgr⟩ := hreached hr
    exact ⟨hgr.operandsDefined hgb hgo hgd hgk hkb, hgr.thinned hgo hgk
      (allRemovable_deadInsts hgb.coherent.places) hgb.coherent.places⟩
  obtain ⟨r, g, hg, hgb, hgo, ⟨out, hfg⟩, hreached⟩ :=
    eliminate_liveness_keeps limit hround hb ho ht ⟨⟨[], .refl f⟩, fun hr => ⟨hd, hr⟩⟩
  have hgp := hgb.coherent.places
  refine ⟨r, g, hg, ?_, fun hr => ?_⟩
  · rw [validate_eq_ok_nil_iff hgp, ← hfg.operandsDefined_iff hgp hd]
    exact and_iff_right hgo
  · exact (validate_eq_ok_nil_iff hgp).mpr ⟨hgo, (hreached hr).1⟩

/-- A loop in which control gets from a definition to the branch that uses its result, and with it to a
phi; another definition is not used. -/
def usedInLoop : String :=
  "func @f(%n) \x7b\n ^a:\n br [^b]\n ^b:\n %i = phi [0, ^a], [%j, ^b]\n" ++
    " %j = add %i, 1\n condbr %j [^b, ^c]\n ^c:\n %x = neg %i\n ret %n\n\x7d"

/-- Only the definition that is not used goes. -/
theorem exists_eliminate_validate_loop : ∃ f, parseModule usedInLoop = .ok [f] ∧
    f.validate = .ok [] ∧ f.UsesReached ∧
    (∀ limit, ∃ r g, Edit.eliminate ⟨.liveness, limit⟩ f = .ok r g ∧ g.validate = .ok []) ∧
    ∃ g, Edit.eliminate ⟨.liveness, none⟩ f = .ok ⟨1, 2, true⟩ g ∧
      g.attached = [⟨0⟩, ⟨1⟩, ⟨2⟩, ⟨3⟩, ⟨5⟩] := by
  have hruns : Run.yieldsOne (parseModule usedInLoop) (fun f =>
      decide (f.validate = .ok [] ∧ f.instsOf ⟨1⟩ = [⟨1⟩, ⟨2⟩, ⟨3⟩] ∧ f.isTerminator ⟨2⟩ = false) &&
      decide (∀ d ∈ f.attached, f.isRemovable d = true → ∀ v ∈ f.result? d, ∀ u ∈ f.attached,
        (f.isPhi u = false → v ∈ f.valueOperands u → d = ⟨2⟩ ∧ u = ⟨3⟩) ∧
        ∀ pair ∈ f.incoming u, pair.2 = .value v → d = ⟨2⟩ ∧ pair.1 = ⟨1⟩) &&
      Run.returns (Edit.eliminate ⟨.liveness, none⟩ f) fun r g =>
        r = ⟨1, 2, true⟩ ∧ g.attached = [⟨0⟩, ⟨1⟩, ⟨2⟩, ⟨3⟩, ⟨5⟩]) = true := by
    decide +kernel
  obtain ⟨f, hparse, hchecks⟩ := Run.exists_of_yieldsOne hruns
  simp only [Bool.and_eq_true, decide_eq_true_iff] at hchecks
  obtain ⟨⟨⟨hv, hlist, hterm⟩, huses⟩, hrun⟩ := hchecks
  have hsplit : f.instsOf ⟨1⟩ = [⟨1⟩] ++ ⟨2⟩ :: ⟨3⟩ :: [] := hlist
  have hwalk : f.Walk ⟨2⟩ [] ⟨3⟩ := .one (.next hterm hsplit)
  have hreached : f.UsesReached := by
    constructor
    · intro d hd hremovable v hres u hu hphi huse
      obtain ⟨rfl, rfl⟩ := (huses d hd hremovable v hres u hu).1 hphi huse
      exact ⟨[], hwalk⟩
    · intro d hd hremovable v hres u hu _ b hpair
      obtain ⟨rfl, rfl⟩ := (huses d hd hremovable v hres u hu).2 _ hpair rfl
      exact ⟨⟨3⟩, by rw [last?, hlist]; rfl, .inr ⟨[], hwalk⟩⟩
  obtain ⟨r, g, hg, hchecks⟩ := Run.exists_of_returns hrun
  obtain ⟨rfl, hleft⟩ := of_decide_eq_true hchecks
  refine ⟨f, hparse, hv, hreached, fun limit => ?_, g, hg, hleft⟩
  obtain ⟨r, g, hg, -, hvalid⟩ :=
    exists_eliminate_validate limit (.inl ⟨_, [f], hparse, by simp⟩) hv
  exact ⟨r, g, hg, hvalid hreached⟩

/-- Control does not get from `%x` to its use, in a block that is not reached; so `%x` goes, and the
use is left behind. -/
theorem use_left_behind : ∃ fs, parseModule ("func @f() \x7b\n ^entry:\n %x = copy 1\n ret\n" ++
      " ^orphan:\n ret %x\n\x7d") = .ok fs ∧ fs ≠ [] ∧
    ∀ f ∈ fs, f.validate = .ok [] ∧
      ∃ r g, Edit.eliminate ⟨.liveness, none⟩ f = .ok r g ∧ g.validate ≠ .ok [] := by
  refine (Run.exists_eq_ok_and (p := fun fs => fs ≠ [] && fs.all fun f => f.validate = .ok [] &&
    Run.succeeds (Edit.eliminate ⟨.liveness, none⟩ f) fun g => g.validate ≠ .ok []) ?_).imp
    fun fs hfs => ⟨hfs.1, ?_⟩
  · decide +kernel
  · have hall := hfs.2
    simp only [Bool.and_eq_true, decide_eq_true_iff, List.all_eq_true] at hall
    refine ⟨hall.1, fun f hf => ⟨(hall.2 f hf).1, ?_⟩⟩
    obtain ⟨r, g, hg, hne⟩ := Run.exists_of_succeeds (hall.2 f hf).2
    exact ⟨r, g, hg, of_decide_eq_true hne⟩

end Function

end SsaPrune
