import SsaPrune.Liveness.EdgeUses
import SsaPrune.Validation
import SsaPrune.Proofs.Function.Built

/-!
# Functions without violations

What it means that the validator finds nothing, without the pass that it makes. A function is
`Orderly` when its instructions have their right places and shapes, and `OperandsDefined` when what
they use is still defined by something that is part of the function.

`validate_eq_ok_nil_iff` is the result. The two parts stand apart because an orderly function stays
orderly whatever becomes of the instructions that may be removed, but an operand does not stay
defined.
-/

namespace SsaPrune

namespace Function

/-- Every place and every shape is as it should be. -/
structure Orderly (f : Function) : Prop where
  layout_ne_nil : f.layout ≠ []
  ends : ∀ b ∈ f.layout, b ∈ f.reachable → (f.last? b).any f.isTerminator = true
  terminatorLast : ∀ b pre i post, f.instsOf b = pre ++ i :: post → f.isTerminator i = true →
    post = []
  phisFirst : ∀ b pre i post, f.instsOf b = pre ++ i :: post → f.isPhi i = true →
    ∀ j ∈ pre, f.isPhi j = true
  incoming : ∀ b, ∀ i ∈ f.instsOf b, ∀ d, f.inst? i = some d → d.opcode.isPhi = true →
    ∀ c ∈ d.phiBlocks, c ∈ f.preds b
  flawless : ∀ b, ∀ i ∈ f.instsOf b, ∀ d, f.inst? i = some d → d.flaws (f.result? i).isSome = []

/-- No operand is the result of an instruction that was taken out. -/
def OperandsDefined (f : Function) : Prop :=
  ∀ i ∈ f.attached, ∀ v ∈ f.valueOperands i, f.Has (.value v) ∧ f.isDangling v = false

variable {f : Function}

theorem isDangling_eq_false_iff {v : ValueId} :
    f.isDangling v = false ↔ ∀ i, f.definition? v = some (.result i) → f.isAttached i = true := by
  unfold isDangling
  cases hd : f.definition? v with
  | none => simp
  | some d =>
    cases d with
    | result i => simp
    | param k => simp

theorem PlacesAgree.exists_inst? (h : f.PlacesAgree) {b : BlockId} {i : InstId}
    (hi : i ∈ f.instsOf b) : ∃ d, f.inst? i = some d := by
  obtain ⟨d, hd, -⟩ := (f.parent?_eq_some i).mp ((h.parent_iff i b).mpr hi)
  exact ⟨d, hd⟩

/-! ## The pass over a block -/

/-- The pass gives what is said of each instruction, by what stands before and after it. -/
theorem mem_overInsts {α : Type} {judge : Bool → Bool → InstId → Instruction → List α}
    {afterOther : Bool} {is : List InstId} (h : ∀ i ∈ is, ∃ d, f.inst? i = some d) {x : α} :
    x ∈ f.overInsts judge afterOther is ↔ ∃ pre i post d, is = pre ++ i :: post ∧
      f.inst? i = some d ∧
      x ∈ judge (afterOther || pre.any fun j => !f.isPhi j) post.isEmpty i d := by
  induction is generalizing afterOther with
  | nil => simp [overInsts]
  | cons j rest ih =>
    obtain ⟨e, he⟩ := h j List.mem_cons_self
    have hphi := (isPhi_of_inst? he).symm
    rw [overInsts, he]
    simp only [List.mem_append, ih fun i hi => h i (List.mem_cons_of_mem _ hi)]
    constructor
    · rintro (hx | ⟨pre, i, post, d, rfl, hd, hx⟩)
      · exact ⟨[], j, rest, e, rfl, he, by simpa using hx⟩
      · refine ⟨j :: pre, i, post, d, rfl, hd, ?_⟩
        rwa [List.any_cons, ← Bool.or_assoc, ← hphi]
    · rintro ⟨pre, i, post, d, hlist, hd, hx⟩
      cases pre with
      | nil =>
        obtain ⟨rfl, rfl⟩ := List.cons.inj hlist
        obtain rfl := Option.some.inj (he.symm.trans hd)
        exact .inl (by simpa using hx)
      | cons k pre =>
        obtain ⟨rfl, rfl⟩ := List.cons.inj hlist
        refine .inr ⟨pre, i, post, d, rfl, hd, ?_⟩
        rwa [List.any_cons, ← Bool.or_assoc, ← hphi] at hx

theorem overInsts_eq_nil_iff {α : Type} {judge : Bool → Bool → InstId → Instruction → List α}
    {is : List InstId} (h : ∀ i ∈ is, ∃ d, f.inst? i = some d) :
    f.overInsts judge false is = [] ↔ ∀ pre i post d, is = pre ++ i :: post → f.inst? i = some d →
      judge (pre.any fun j => !f.isPhi j) post.isEmpty i d = [] := by
  simp only [List.eq_nil_iff_forall_not_mem, mem_overInsts h, Bool.false_or]
  constructor
  · exact fun hall pre i post d hlist hd x hx => hall x ⟨pre, i, post, d, hlist, hd, hx⟩
  · exact fun hall x ⟨pre, i, post, d, hlist, hd, hx⟩ => hall pre i post d hlist hd x hx

/-! ## One instruction -/

section Instruction

variable {b : BlockId} {afterOther isLast : Bool} {i : InstId} {d : Instruction}

theorem placeViolations_eq_nil_iff : f.placeViolations b afterOther isLast i d = [] ↔
    (d.opcode.isTerminator = true → isLast = true) ∧
      (d.opcode.isPhi = true → afterOther = false ∧ ∀ c ∈ d.phiBlocks, c ∈ f.preds b) := by
  unfold placeViolations
  cases d.opcode.isPhi <;> cases afterOther <;> simp

theorem shapeViolations_eq_nil_iff :
    f.shapeViolations i d = [] ↔ d.flaws (f.result? i).isSome = [] := by
  simp [shapeViolations]

theorem operandViolations_eq_nil_iff (hd : f.inst? i = some d) : f.operandViolations i d = [] ↔
    ∀ v ∈ f.valueOperands i, f.isDangling v = false := by
  simp only [operandViolations, List.map_eq_nil_iff, List.filter_eq_nil_iff, Prod.forall,
    mem_positionedValues, mem_valueOperands, operands_of_inst? hd, Bool.not_eq_true]
  constructor
  · intro h v hv
    obtain ⟨k, hk⟩ := List.mem_iff_getElem?.mp hv
    exact h v k hk
  · exact fun h v k hk => h v (List.mem_iff_getElem?.mpr ⟨k, hk⟩)

end Instruction

/-- A phi pairs each of its operands with a block; there is at least one, and no successor. -/
theorem shape_of_isPhi {d : Instruction} {hasResult : Bool} (h : d.flaws hasResult = [])
    (hphi : d.opcode.isPhi = true) :
    d.operands ≠ [] ∧ d.phiBlocks.length = d.operands.length ∧ d.successors = [] := by
  have hopcode : d.opcode = .phi := of_decide_eq_true hphi
  simp only [Instruction.flaws, List.append_eq_nil_iff, hopcode] at h
  obtain ⟨⟨⟨⟨⟨hoperands, hsuccessors⟩, hpairs⟩, -⟩, -⟩, -⟩ := h
  refine ⟨fun hnil => ?_, ?_, ?_⟩
  · rw [hnil] at hoperands
    cases hoperands
  · by_contra hne
    simp [Opcode.isPhi, hne] at hpairs
  · by_contra hne
    simp [Opcode.arity, hne] at hsuccessors

/-! ## Blocks and functions -/

theorem endViolations_eq_nil_iff {b : BlockId} : f.endViolations b = [] ↔
    (b ∈ f.reachable → (f.last? b).any f.isTerminator = true) := by
  unfold endViolations
  cases (f.last? b).any f.isTerminator <;> simp

theorem any_not_isPhi_eq_false_iff {is : List InstId} :
    (is.any fun j => !f.isPhi j) = false ↔ ∀ j ∈ is, f.isPhi j = true := by
  simp

theorem PlacesAgree.mem_layout_of_mem_instsOf (h : f.PlacesAgree) {b : BlockId} {i : InstId}
    (hi : i ∈ f.instsOf b) : b ∈ f.layout :=
  h.mem_layout_iff.mpr (has_block_of_mem_instsOf hi)

theorem blockViolations_eq_nil_iff (hp : f.PlacesAgree) {b : BlockId} : f.blockViolations b = [] ↔
    (∀ pre i post d, f.instsOf b = pre ++ i :: post → f.inst? i = some d →
      f.instViolations b (pre.any fun j => !f.isPhi j) post.isEmpty i d = []) ∧
    (b ∈ f.reachable → (f.last? b).any f.isTerminator = true) := by
  rw [blockViolations, List.append_eq_nil_iff, overInsts_eq_nil_iff fun i => hp.exists_inst?,
    endViolations_eq_nil_iff]

theorem violations_eq_nil_iff_forall : f.violations = [] ↔
    f.layout ≠ [] ∧ ∀ b ∈ f.layout, f.blockViolations b = [] := by
  unfold violations
  cases f.layout <;> simp

/-- **Nothing is wrong** exactly with an orderly function whose operands do not dangle. -/
theorem violations_eq_nil_iff (hp : f.PlacesAgree) : f.violations = [] ↔
    f.Orderly ∧ ∀ i ∈ f.attached, ∀ v ∈ f.valueOperands i, f.isDangling v = false := by
  have hinst : ∀ b, ∀ i ∈ f.instsOf b, ∃ d, f.inst? i = some d := fun _ _ => hp.exists_inst?
  simp only [violations_eq_nil_iff_forall, blockViolations_eq_nil_iff hp, instViolations,
    List.append_eq_nil_iff, placeViolations_eq_nil_iff, shapeViolations_eq_nil_iff,
    any_not_isPhi_eq_false_iff, List.isEmpty_iff]
  constructor
  · rintro ⟨hne, hall⟩
    have hat : ∀ {b pre i post d}, f.instsOf b = pre ++ i :: post → f.inst? i = some d → _ :=
      fun {b pre i post d} hlist hd =>
        (hall b (hp.mem_layout_of_mem_instsOf (i := i) (by simp [hlist]))).1 pre i post d hlist hd
    refine ⟨⟨hne, fun b hb => (hall b hb).2, ?_, ?_, ?_, ?_⟩, ?_⟩
    · intro b pre i post hlist hterm
      obtain ⟨d, hd⟩ := hinst b i (by simp [hlist])
      rw [isTerminator_of_inst? hd] at hterm
      exact (hat hlist hd).1.1.1 hterm
    · intro b pre i post hlist hphi
      obtain ⟨d, hd⟩ := hinst b i (by simp [hlist])
      rw [isPhi_of_inst? hd] at hphi
      exact ((hat hlist hd).1.1.2 hphi).1
    · intro b i hi d hd hphi
      obtain ⟨pre, post, hlist⟩ := List.append_of_mem hi
      exact ((hat hlist hd).1.1.2 hphi).2
    · intro b i hi d hd
      obtain ⟨pre, post, hlist⟩ := List.append_of_mem hi
      exact (hat hlist hd).1.2
    · intro i hi
      obtain ⟨b, hb, hib⟩ := List.mem_flatMap.mp hi
      obtain ⟨d, hd⟩ := hinst b i hib
      obtain ⟨pre, post, hlist⟩ := List.append_of_mem hib
      exact (operandViolations_eq_nil_iff hd).mp (hat hlist hd).2
  · rintro ⟨ho, hdangling⟩
    refine ⟨ho.layout_ne_nil, fun b hb => ⟨fun pre i post d hlist hd => ?_, ho.ends b hb⟩⟩
    have hi : i ∈ f.instsOf b := by simp [hlist]
    refine ⟨⟨⟨fun ht => ?_, fun hphi => ⟨?_, ho.incoming b i hi d hd hphi⟩⟩,
      ho.flawless b i hi d hd⟩, ?_⟩
    · exact ho.terminatorLast b pre i post hlist ((isTerminator_of_inst? hd).trans ht)
    · exact ho.phisFirst b pre i post hlist ((isPhi_of_inst? hd).trans hphi)
    · exact (operandViolations_eq_nil_iff hd).mpr (hdangling i (List.mem_flatMap.mpr ⟨b, hb, hi⟩))

/-! ## The validator -/

theorem mem_definitionLookups {i : InstId} {d : Instruction} (hd : f.inst? i = some d)
    (h : ∀ v ∈ f.valueOperands i, f.isDangling v = false) {l : Lookup} :
    l ∈ f.definitionLookups i d ↔ ∃ v ∈ f.valueOperands i,
      l = .value v ∨ ∃ j, f.definition? v = some (.result j) ∧ l = .inst j := by
  have hvalues : ∀ {v : ValueId}, v ∈ f.valueOperands i ↔
      ∃ k, (v, k) ∈ positionedValues d.operands := fun {v} => by
    rw [mem_valueOperands, operands_of_inst? hd, List.mem_iff_getElem?]
    simp only [mem_positionedValues]
  simp only [definitionLookups, List.mem_flatMap, Prod.exists]
  constructor
  · rintro ⟨v, k, hk, hl⟩
    have hv := hvalues.mpr ⟨k, hk⟩
    refine ⟨v, hv, ?_⟩
    simp only [h v hv, Bool.false_eq_true, if_false, List.append_nil, List.mem_cons] at hl
    refine hl.imp_right fun hl => ?_
    split at hl
    · rename_i j hdef
      exact ⟨j, hdef, List.mem_singleton.mp hl⟩
    · cases hl
  · rintro ⟨v, hv, hl⟩
    obtain ⟨k, hk⟩ := hvalues.mp hv
    refine ⟨v, k, hk, List.mem_append_left _ ?_⟩
    rcases hl with rfl | ⟨j, hdef, rfl⟩
    · exact List.mem_cons_self
    · rw [hdef]
      exact List.mem_cons_of_mem _ List.mem_cons_self

/-- What the validator reads of a function in which nothing is wrong: the values that are used, and
the instructions that define them. -/
theorem mem_violationLookups (hp : f.PlacesAgree) (h : f.violations = []) {l : Lookup} :
    l ∈ f.violationLookups ↔ ∃ i ∈ f.attached, ∃ v ∈ f.valueOperands i,
      l = .value v ∨ ∃ j, f.definition? v = some (.result j) ∧ l = .inst j := by
  have hblocks := (violations_eq_nil_iff_forall.mp h).2
  have hdangling := ((violations_eq_nil_iff hp).mp h).2
  have hjudge : ∀ {b pre i post d}, b ∈ f.layout → f.instsOf b = pre ++ i :: post →
      f.inst? i = some d →
      (l ∈ f.judgeLookups b (pre.any fun j => !f.isPhi j) post.isEmpty i d ↔
        ∃ v ∈ f.valueOperands i,
          l = .value v ∨ ∃ j, f.definition? v = some (.result j) ∧ l = .inst j) := by
    intro b pre i post d hb hlist hd
    have hi : i ∈ f.attached := List.mem_flatMap.mpr ⟨b, hb, by simp [hlist]⟩
    have hnone := ((blockViolations_eq_nil_iff hp).mp (hblocks b hb)).1 pre i post d hlist hd
    rw [instViolations, List.append_eq_nil_iff] at hnone
    rw [judgeLookups, hnone.1, List.flatMap_nil, List.nil_append,
      mem_definitionLookups hd (hdangling i hi)]
  simp only [violationLookups, List.mem_flatMap]
  constructor
  · rintro ⟨b, hb, hl⟩
    have hend := endViolations_eq_nil_iff.mpr
      ((blockViolations_eq_nil_iff hp).mp (hblocks b hb)).2
    rw [hend, List.flatMap_nil, List.append_nil, mem_overInsts fun i => hp.exists_inst?] at hl
    obtain ⟨pre, i, post, d, hlist, hd, hl⟩ := hl
    rw [Bool.false_or, hjudge hb hlist hd] at hl
    exact ⟨i, List.mem_flatMap.mpr ⟨b, hb, by simp [hlist]⟩, hl⟩
  · rintro ⟨i, hi, hl⟩
    obtain ⟨b, hb, hib⟩ := List.mem_flatMap.mp hi
    obtain ⟨d, hd⟩ := hp.exists_inst? hib
    obtain ⟨pre, post, hlist⟩ := List.append_of_mem hib
    refine ⟨b, hb, List.mem_append_left _ ?_⟩
    rw [mem_overInsts fun i => hp.exists_inst?]
    refine ⟨pre, i, post, d, hlist, hd, ?_⟩
    rwa [Bool.false_or, hjudge hb hlist hd]

/-- **The validator accepts** exactly the orderly functions whose operands are defined. -/
theorem validate_eq_ok_nil_iff (hp : f.PlacesAgree) :
    f.validate = .ok [] ↔ f.Orderly ∧ f.OperandsDefined := by
  have hvalidate : f.validate = .ok [] ↔
      (∀ l ∈ f.violationLookups, f.Has l) ∧ f.violations = [] := by
    have hrequire : f.require f.violationLookups = .ok () ↔ ∀ l ∈ f.violationLookups, f.Has l :=
      f.require_eq_ok_iff
    unfold validate
    rw [← hrequire]
    cases f.require f.violationLookups with
    | error e => exact iff_of_false (fun h => nomatch h) fun h => nomatch h.1
    | ok u => exact ⟨fun h => ⟨rfl, Except.ok.inj h⟩, fun h => congrArg Except.ok h.2⟩
  rw [hvalidate]
  constructor
  · rintro ⟨hhas, hnone⟩
    obtain ⟨ho, hdangling⟩ := (violations_eq_nil_iff hp).mp hnone
    refine ⟨ho, fun i hi v hv => ⟨hhas _ ?_, hdangling i hi v hv⟩⟩
    exact (mem_violationLookups hp hnone).mpr ⟨i, hi, v, hv, .inl rfl⟩
  · rintro ⟨ho, hdefined⟩
    have hnone := (violations_eq_nil_iff hp).mpr ⟨ho, fun i hi v hv => (hdefined i hi v hv).2⟩
    refine ⟨fun l hl => ?_, hnone⟩
    obtain ⟨i, hi, v, hv, rfl | ⟨j, hj, rfl⟩⟩ := (mem_violationLookups hp hnone).mp hl
    · exact (hdefined i hi v hv).1
    · have hattached := isDangling_eq_false_iff.mp (hdefined i hi v hv).2 j hj
      obtain ⟨b, hb⟩ := Option.isSome_iff_exists.mp hattached
      exact has_inst_of_parent hb

/-! ## Reading an orderly function -/

namespace Orderly

variable {b : BlockId} {i : InstId}

theorem result?_of_isTerminator (ho : f.Orderly) (hp : f.PlacesAgree) (hi : i ∈ f.instsOf b)
    (hterm : f.isTerminator i = true) : f.result? i = none := by
  obtain ⟨d, hd⟩ := hp.exists_inst? hi
  have hmay : d.opcode.mayDefine = false := by
    rw [isTerminator_of_inst? hd] at hterm
    simp [Opcode.mayDefine, hterm]
  have hflaws := ho.flawless b i hi d hd
  cases hr : f.result? i with
  | none => rfl
  | some v =>
    rw [hr] at hflaws
    simp [Instruction.flaws, hmay] at hflaws

/-- Behind the phis at the start of a block there are no others. -/
theorem isPhi_of_mem_dropWhile (ho : f.Orderly) (hi : i ∈ (f.instsOf b).dropWhile f.isPhi) :
    f.isPhi i = false := by
  obtain ⟨k, rest, hlist⟩ := List.exists_cons_of_ne_nil (List.ne_nil_of_mem hi)
  have hk : f.isPhi k = false := by
    have := List.head_dropWhile_not f.isPhi (List.ne_nil_of_mem hi)
    simpa only [hlist, List.head_cons] using this
  obtain ⟨pre, post, hsplit⟩ := List.append_of_mem hi
  have hall : f.instsOf b = ((f.instsOf b).takeWhile f.isPhi ++ pre) ++ i :: post := by
    rw [List.append_assoc, ← hsplit, List.takeWhile_append_dropWhile]
  cases hphi : f.isPhi i with
  | false => rfl
  | true =>
    have hpre := ho.phisFirst b _ i post hall hphi
    rw [hlist] at hsplit
    cases pre with
    | nil =>
      obtain ⟨rfl, -⟩ := List.cons.inj hsplit
      rw [hphi] at hk
      cases hk
    | cons j pre =>
      obtain ⟨rfl, -⟩ := List.cons.inj hsplit
      rw [hpre k (by simp)] at hk
      cases hk

theorem mem_leadingPhis (ho : f.Orderly) (hi : i ∈ f.instsOf b) (hphi : f.isPhi i = true) :
    i ∈ f.leadingPhis b := by
  rw [← List.takeWhile_append_dropWhile (p := f.isPhi) (l := f.instsOf b), List.mem_append] at hi
  rcases hi with hi | hi
  · exact hi
  · rw [ho.isPhi_of_mem_dropWhile hi] at hphi
    cases hphi

end Orderly

end Function

end SsaPrune
