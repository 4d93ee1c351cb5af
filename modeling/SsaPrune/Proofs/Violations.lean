import Mathlib.Data.List.Count
import SsaPrune.Proofs.Reachability
import SsaPrune.Proofs.Verdict

/-!
# Every violation is found once

`Violated f` says what the violations of a function are, without the pass over its blocks: the places
and shapes of its instructions, the edges and the reachable blocks are those of the function itself.

`validate_exact` says that the validator of a sound function finds just these. Each is found once,
except that a phi which names a block several times, without an edge from there, is found as often as
it names the block.
-/

namespace SsaPrune

/-! ## What is wrong -/

/-- The shape of an instruction is not that which its opcode takes. -/
inductive Instruction.HasFlaw (d : Instruction) (hasResult : Bool) : Flaw → Prop
  | operandCount (h : d.operands.length < d.opcode.arity.least ∨
      ∃ most, d.opcode.arity.most = some most ∧ most < d.operands.length) :
      HasFlaw d hasResult (.operandCount d.operands.length)
  | successorCount (h : d.successors.length ≠ d.opcode.arity.successors) :
      HasFlaw d hasResult (.successorCount d.successors.length)
  | unpairedIncoming (hphi : d.opcode.isPhi = true) (h : d.phiBlocks.length ≠ d.operands.length) :
      HasFlaw d hasResult (.unpairedIncoming d.phiBlocks.length d.operands.length)
  | missingResult (hmust : d.opcode.mustDefine = true) (h : hasResult = false) :
      HasFlaw d hasResult .missingResult
  | forbiddenResult (hmay : d.opcode.mayDefine = false) (h : hasResult = true) :
      HasFlaw d hasResult .forbiddenResult
  | missingCallee (hcall : d.opcode.isCall = true) (h : d.callee = none) :
      HasFlaw d hasResult .missingCallee

namespace Function

/-- The violations of the structure of a function. -/
inductive Violated (f : Function) : Violation → Prop
  | emptyFunction (h : f.layout = []) : Violated f .emptyFunction
  | missingTerminator {b : BlockId} (hb : f.Reaches b)
      (h : ∀ i, f.last? b = some i → f.isTerminator i = false) : Violated f (.missingTerminator b)
  | misplacedTerminator {b : BlockId} {i : InstId} {before after : List InstId}
      (hi : f.instsOf b = before ++ i :: after) (hterm : f.isTerminator i = true)
      (h : after ≠ []) : Violated f (.misplacedTerminator b i)
  | misplacedPhi {b : BlockId} {i j : InstId} {before after : List InstId}
      (hi : f.instsOf b = before ++ i :: after) (hphi : f.isPhi i = true) (hj : j ∈ before)
      (h : f.isPhi j = false) : Violated f (.misplacedPhi b i)
  | foreignIncoming {b c : BlockId} {i : InstId} {d : Instruction} (hi : i ∈ f.instsOf b)
      (hd : f.inst? i = some d) (hphi : d.opcode.isPhi = true) (hc : c ∈ d.phiBlocks)
      (h : ¬f.Edge c b) : Violated f (.foreignIncoming b i c)
  | danglingOperand {i j : InstId} {v : ValueId} {k : Nat} (hi : i ∈ f.attached)
      (hv : (f.operands i)[k]? = some (.value v)) (hdef : f.definition? v = some (.result j))
      (h : f.isAttached j = false) : Violated f (.danglingOperand i k v)
  | misshapen {i : InstId} {d : Instruction} {flaw : Flaw} (hi : i ∈ f.attached)
      (hd : f.inst? i = some d) (h : d.HasFlaw (f.result? i).isSome flaw) :
      Violated f (.misshapen i d.opcode flaw)

/-- How often a violation is found. -/
def occurrences (f : Function) : Violation → Nat
  | .foreignIncoming _ i c => ((f.inst? i).map fun d => d.phiBlocks.count c).getD 0
  | _ => 1

end Function

/-- The instruction with which something is wrong, if it is not a whole block or function. -/
def Violation.inst? : Violation → Option InstId
  | emptyFunction | missingTerminator _ => none
  | misplacedTerminator _ i | misplacedPhi _ i | foreignIncoming _ i _ | danglingOperand i _ _ |
    misshapen i _ _ => some i

/-! ## Shapes -/

theorem Arity.admits_eq_false_iff {a : Arity} {n : Nat} :
    a.admits n = false ↔ n < a.least ∨ ∃ most, a.most = some most ∧ most < n := by
  unfold admits
  cases a.most with
  | none => simp
  | some most => simp [Classical.or_iff_not_imp_left]

theorem Instruction.mem_flaws {d : Instruction} {hasResult : Bool} {flaw : Flaw} :
    flaw ∈ d.flaws hasResult ↔ d.HasFlaw hasResult flaw := by
  simp only [flaws, List.mem_append, List.mem_ite_nil_left, List.mem_ite_nil_right,
    List.mem_singleton, Bool.not_eq_true, Bool.and_eq_true, Bool.not_eq_true', Option.isNone_iff_eq_none,
    decide_eq_true_iff, Arity.admits_eq_false_iff]
  constructor
  · rintro (((((⟨h, rfl⟩ | ⟨h, rfl⟩) | ⟨⟨hphi, h⟩, rfl⟩) | ⟨⟨hmust, h⟩, rfl⟩) | ⟨⟨hmay, h⟩, rfl⟩) |
      ⟨⟨hcall, h⟩, rfl⟩)
    · exact .operandCount h
    · exact .successorCount h
    · exact .unpairedIncoming hphi h
    · exact .missingResult hmust h
    · exact .forbiddenResult hmay h
    · exact .missingCallee hcall h
  · intro h
    cases h <;> simp [*]

/-- No flaw is listed twice. -/
theorem Instruction.nodup_flaws {d : Instruction} {hasResult : Bool} : (d.flaws hasResult).Nodup := by
  unfold flaws
  split_ifs <;> simp

namespace Function

variable {f : Function} {b c : BlockId} {i : InstId} {d : Instruction} {afterOther isLast : Bool}
  {v : Violation}

/-! ## One instruction -/

theorem mem_placeViolations : v ∈ f.placeViolations b afterOther isLast i d ↔
    (d.opcode.isTerminator = true ∧ isLast = false ∧ v = .misplacedTerminator b i) ∨
    (d.opcode.isPhi = true ∧ afterOther = true ∧ v = .misplacedPhi b i) ∨
    d.opcode.isPhi = true ∧ ∃ c ∈ d.phiBlocks, c ∉ f.preds b ∧ v = .foreignIncoming b i c := by
  simp only [placeViolations, List.mem_append, List.mem_ite_nil_right, List.mem_singleton,
    List.mem_map, List.mem_filter, Bool.and_eq_true, Bool.not_eq_true', decide_eq_true_iff,
    and_or_left, and_assoc, eq_comm (a := v)]

theorem mem_shapeViolations : v ∈ f.shapeViolations i d ↔
    ∃ flaw, d.HasFlaw (f.result? i).isSome flaw ∧ v = .misshapen i d.opcode flaw := by
  simp only [shapeViolations, List.mem_map, Instruction.mem_flaws, eq_comm]

theorem mem_operandViolations : v ∈ f.operandViolations i d ↔
    ∃ w k, d.operands[k]? = some (.value w) ∧ f.isDangling w = true ∧
      v = .danglingOperand i k w := by
  simp only [operandViolations, List.mem_map, List.mem_filter, Prod.exists, mem_positionedValues,
    and_assoc, eq_comm (a := v)]

theorem isDangling_eq_true_iff {w : ValueId} :
    f.isDangling w = true ↔ ∃ j, f.definition? w = some (.result j) ∧ f.isAttached j = false := by
  rw [← Bool.not_eq_false, isDangling_eq_false_iff]
  simp

/-- Each finding on an instruction names it. -/
theorem inst?_of_mem_instViolations (hv : v ∈ f.instViolations b afterOther isLast i d) :
    v.inst? = some i := by
  simp only [instViolations, List.mem_append, mem_placeViolations, mem_shapeViolations,
    mem_operandViolations] at hv
  rcases hv with ((⟨-, -, rfl⟩ | ⟨-, -, rfl⟩ | ⟨-, c, -, -, rfl⟩) | ⟨flaw, -, rfl⟩) |
    ⟨w, k, -, -, rfl⟩ <;> rfl

/-- A phi that names a block more than once is found as often. -/
theorem count_placeViolations (hd : f.inst? i = some d)
    (hv : v ∈ f.placeViolations b afterOther isLast i d) :
    (f.placeViolations b afterOther isLast i d).count v = f.occurrences v := by
  have hother : ∀ {u : Violation} {cs : List BlockId}, (∀ c, u ≠ .foreignIncoming b i c) →
      (cs.map (Violation.foreignIncoming b i)).count u = 0 := by
    intro u cs hu
    refine List.count_eq_zero.mpr fun hmem => ?_
    obtain ⟨c, -, rfl⟩ := List.mem_map.mp hmem
    exact hu c rfl
  unfold placeViolations
  rcases mem_placeViolations.mp hv with ⟨hterm, hlast, rfl⟩ | ⟨hphi, hafter, rfl⟩ |
    ⟨hphi, c, hc, hno, rfl⟩
  · cases d.opcode.isPhi <;> cases afterOther <;> simp [hterm, hlast, hother, occurrences]
  · cases d.opcode.isTerminator <;> cases isLast <;> simp [hphi, hafter, hother, occurrences]
  · have hinj : Function.Injective (Violation.foreignIncoming b i) :=
      fun _ _ heq => (Violation.foreignIncoming.inj heq).2.2
    have hcount : ((d.phiBlocks.filter (· ∉ f.preds b)).map (Violation.foreignIncoming b i)).count
        (.foreignIncoming b i c) = d.phiBlocks.count c := by
      rw [List.count_map_of_injective _ _ hinj, List.count_filter (by simpa using hno)]
    rw [if_pos hphi, List.count_append, List.count_append, hcount]
    cases d.opcode.isTerminator <;> cases isLast <;> cases afterOther <;> simp [occurrences, hd]

theorem nodup_shapeViolations : (f.shapeViolations i d).Nodup :=
  Instruction.nodup_flaws.map fun _ _ heq => (Violation.misshapen.inj heq).2.2

theorem nodup_operandViolations : (f.operandViolations i d).Nodup := by
  refine ((nodup_positionedValues d.operands).filter _).map ?_
  rintro ⟨v, k⟩ ⟨w, m⟩ heq
  obtain ⟨-, rfl, rfl⟩ := Violation.danglingOperand.inj heq
  rfl

theorem count_instViolations (hd : f.inst? i = some d)
    (hv : v ∈ f.instViolations b afterOther isLast i d) :
    (f.instViolations b afterOther isLast i d).count v = f.occurrences v := by
  have hnone : ∀ {l : List Violation}, v ∉ l → l.count v = 0 := List.count_eq_zero.mpr
  rw [instViolations, List.count_append, List.count_append]
  rcases List.mem_append.mp hv with hv | hv
  · rcases List.mem_append.mp hv with hv | hv
    · have hno : v ∉ f.shapeViolations i d ∧ v ∉ f.operandViolations i d := by
        rw [mem_shapeViolations, mem_operandViolations]
        rcases mem_placeViolations.mp hv with ⟨-, -, rfl⟩ | ⟨-, -, rfl⟩ | ⟨-, c, -, -, rfl⟩ <;> simp
      rw [count_placeViolations hd hv, hnone hno.1, hnone hno.2, Nat.add_zero]
    · rw [List.count_eq_one_of_mem nodup_shapeViolations hv]
      obtain ⟨flaw, -, rfl⟩ := mem_shapeViolations.mp hv
      rw [hnone (by simp [mem_placeViolations]), hnone (by simp [mem_operandViolations])]
      rfl
  · rw [List.count_eq_one_of_mem nodup_operandViolations hv]
    obtain ⟨w, k, -, -, rfl⟩ := mem_operandViolations.mp hv
    rw [hnone (by simp [mem_placeViolations]), hnone (by simp [mem_shapeViolations])]
    rfl

/-! ## Blocks -/

theorem mem_endViolations : v ∈ f.endViolations b ↔
    (∀ i, f.last? b = some i → f.isTerminator i = false) ∧ b ∈ f.reachable ∧
      v = .missingTerminator b := by
  simp only [endViolations, List.mem_ite_nil_right, List.mem_singleton, and_assoc,
    Bool.not_eq_true', Option.any_eq_false]

/-- What is said of one instruction alone is found as often as the pass finds it there. -/
theorem count_overInsts {α : Type} [DecidableEq α] {judge : Bool → Bool → InstId → Instruction → List α}
    {x : α} {pre post : List InstId} (h : ∀ j ∈ pre ++ i :: post, ∃ e, f.inst? j = some e)
    (hnodup : (pre ++ i :: post).Nodup) (hd : f.inst? i = some d)
    (howner : ∀ {ao il j e}, x ∈ judge ao il j e → j = i) :
    (f.overInsts judge afterOther (pre ++ i :: post)).count x =
      (judge (afterOther || pre.any fun j => !f.isPhi j) post.isEmpty i d).count x := by
  induction pre generalizing afterOther with
  | nil =>
    have hafter : x ∉ f.overInsts judge (afterOther || !d.opcode.isPhi) post := by
      rw [mem_overInsts fun j hj => h j (List.mem_cons_of_mem _ hj)]
      rintro ⟨pre, j, rest, e, rfl, -, hx⟩
      obtain rfl := howner hx
      exact (List.nodup_cons.mp hnodup).1 (by simp)
    rw [List.nil_append, overInsts, hd]
    simp [List.count_eq_zero.mpr hafter]
  | cons j pre ih =>
    obtain ⟨e, he⟩ := h j List.mem_cons_self
    have hbefore : x ∉ judge afterOther (pre ++ i :: post).isEmpty j e := by
      intro hx
      obtain rfl := howner hx
      exact (List.nodup_cons.mp hnodup).1 (by simp)
    rw [List.cons_append, overInsts, he]
    simp only [List.count_append, List.count_eq_zero.mpr hbefore, Nat.zero_add]
    rw [ih (fun k hk => h k (List.mem_cons_of_mem _ hk)) (List.nodup_cons.mp hnodup).2,
      List.any_cons, ← Bool.or_assoc, isPhi_of_inst? he]

theorem mem_blockViolations (hp : f.PlacesAgree) : v ∈ f.blockViolations b ↔
    (∃ pre i post d, f.instsOf b = pre ++ i :: post ∧ f.inst? i = some d ∧
      v ∈ f.instViolations b (pre.any fun j => !f.isPhi j) post.isEmpty i d) ∨
    v ∈ f.endViolations b := by
  rw [blockViolations, List.mem_append, mem_overInsts fun i => hp.exists_inst?]
  rfl

/-- A violation is found in one block only. -/
theorem PlacesAgree.eq_of_mem_blockViolations (hp : f.PlacesAgree) (hb : v ∈ f.blockViolations b)
    (hc : v ∈ f.blockViolations c) : b = c := by
  rcases (mem_blockViolations hp).mp hb with ⟨pre, i, post, d, hbi, hd, hv⟩ | hv
  · have hi := inst?_of_mem_instViolations hv
    rcases (mem_blockViolations hp).mp hc with ⟨pre', j, post', e, hcj, -, hv'⟩ | hv'
    · obtain rfl := Option.some.inj (hi.symm.trans (inst?_of_mem_instViolations hv'))
      exact hp.eq_of_mem (i := i) (by simp [hbi]) (by simp [hcj])
    · obtain ⟨-, -, rfl⟩ := mem_endViolations.mp hv'
      cases hi
  · obtain ⟨-, -, rfl⟩ := mem_endViolations.mp hv
    rcases (mem_blockViolations hp).mp hc with ⟨pre', j, post', e, -, -, hv'⟩ | hv'
    · cases inst?_of_mem_instViolations hv'
    · obtain ⟨-, -, heq⟩ := mem_endViolations.mp hv'
      exact Violation.missingTerminator.inj heq

theorem count_blockViolations (hp : f.PlacesAgree) (hv : v ∈ f.blockViolations b) :
    (f.blockViolations b).count v = f.occurrences v := by
  have hinst : ∀ j ∈ f.instsOf b, ∃ e, f.inst? j = some e := fun j => hp.exists_inst?
  rw [blockViolations, List.count_append]
  rcases (mem_blockViolations hp).mp hv with ⟨pre, i, post, d, hlist, hd, hv⟩ | hv
  · have hi := inst?_of_mem_instViolations hv
    have hend : v ∉ f.endViolations b := by
      intro hv'
      obtain ⟨-, -, rfl⟩ := mem_endViolations.mp hv'
      cases hi
    have howner : ∀ {ao il j e}, v ∈ f.instViolations b ao il j e → j = i := fun hv' =>
      Option.some.inj ((inst?_of_mem_instViolations hv').symm.trans hi)
    rw [hlist] at hinst ⊢
    rw [count_overInsts hinst (hlist ▸ hp.nodup b) hd howner, List.count_eq_zero.mpr hend,
      Nat.add_zero, Bool.false_or]
    exact count_instViolations hd hv
  · have hinsts : v ∉ f.overInsts (f.instViolations b) false (f.instsOf b) := by
      rw [mem_overInsts hinst]
      rintro ⟨pre, i, post, d, -, -, hv'⟩
      obtain ⟨-, -, rfl⟩ := mem_endViolations.mp hv
      cases inst?_of_mem_instViolations hv'
    obtain ⟨-, -, rfl⟩ := mem_endViolations.mp hv
    rw [List.count_eq_zero.mpr hinsts]
    simp only [endViolations] at hv ⊢
    split at hv
    · simp [*, occurrences]
    · cases hv

/-! ## Functions -/

theorem mem_violations_iff_exists (h : f.layout ≠ []) :
    v ∈ f.violations ↔ ∃ b ∈ f.layout, v ∈ f.blockViolations b := by
  rw [violations, if_neg (by simpa using h), List.mem_flatMap]

theorem PlacesAgree.mem_layout_of_reaches (hp : f.PlacesAgree) (hclosed : f.Closed)
    (hb : f.Reaches b) : b ∈ f.layout := by
  obtain ⟨e, he, hpath⟩ := hb
  induction hpath with
  | refl => exact List.mem_of_head? he
  | tail _ hedge _ =>
    obtain ⟨i, hi, -, hc⟩ := hedge
    obtain ⟨d, hd⟩ := hp.exists_inst? (List.mem_of_getLast? hi)
    rw [successors, hd] at hc
    exact hp.mem_layout_iff.mpr (hclosed.has_block hd (List.mem_append_left _ hc))

theorem PlacesAgree.violated_of_mem_instViolations {before after : List InstId} (hp : f.PlacesAgree)
    (hlist : f.instsOf b = before ++ i :: after) (hd : f.inst? i = some d)
    (hv : v ∈ f.instViolations b (before.any fun j => !f.isPhi j) after.isEmpty i d) :
    f.Violated v := by
  have hi : i ∈ f.instsOf b := by simp [hlist]
  have hatt : i ∈ f.attached :=
    List.mem_flatMap.mpr ⟨b, hp.mem_layout_of_mem_instsOf hi, hi⟩
  rw [instViolations, List.mem_append, List.mem_append] at hv
  rcases hv with (hv | hv) | hv
  · rcases mem_placeViolations.mp hv with ⟨hterm, hlast, rfl⟩ | ⟨hphi, hafter, rfl⟩ |
      ⟨hphi, c, hc, hno, rfl⟩
    · refine .misplacedTerminator hlist ((isTerminator_of_inst? hd).trans hterm) ?_
      simpa using hlast
    · obtain ⟨j, hj, hno⟩ := List.any_eq_true.mp hafter
      exact .misplacedPhi hlist ((isPhi_of_inst? hd).trans hphi) hj (by simpa using hno)
    · exact .foreignIncoming hi hd hphi hc fun hedge => hno ((mem_preds_iff hp).mpr hedge)
  · obtain ⟨flaw, hflaw, rfl⟩ := mem_shapeViolations.mp hv
    exact .misshapen hatt hd hflaw
  · obtain ⟨w, k, hk, hw, rfl⟩ := mem_operandViolations.mp hv
    obtain ⟨j, hdef, hj⟩ := isDangling_eq_true_iff.mp hw
    exact .danglingOperand hatt (by rwa [operands_of_inst? hd]) hdef hj

theorem PlacesAgree.mem_violations_of_mem {before after : List InstId} (hp : f.PlacesAgree)
    (hlist : f.instsOf b = before ++ i :: after) (hd : f.inst? i = some d)
    (hv : v ∈ f.instViolations b (before.any fun j => !f.isPhi j) after.isEmpty i d) :
    v ∈ f.violations := by
  have hb := hp.mem_layout_of_mem_instsOf (b := b) (i := i) (by simp [hlist])
  refine (mem_violations_iff_exists (List.ne_nil_of_mem hb)).mpr ⟨b, hb, ?_⟩
  exact (mem_blockViolations hp).mpr (.inl ⟨before, i, after, d, hlist, hd, hv⟩)

theorem PlacesAgree.violated_of_mem (hp : f.PlacesAgree) (hv : v ∈ f.violations) : f.Violated v := by
  by_cases hempty : f.layout = []
  · have hlist : f.violations = [.emptyFunction] := by rw [violations, hempty]; rfl
    rw [hlist, List.mem_singleton] at hv
    exact hv ▸ .emptyFunction hempty
  · obtain ⟨b, -, hv⟩ := (mem_violations_iff_exists hempty).mp hv
    rcases (mem_blockViolations hp).mp hv with ⟨before, i, after, d, hlist, hd, hv⟩ | hv
    · exact hp.violated_of_mem_instViolations hlist hd hv
    · obtain ⟨hno, hb, rfl⟩ := mem_endViolations.mp hv
      exact .missingTerminator ((mem_reachable_iff hp).mp hb) hno

theorem PlacesAgree.mem_of_violated (hp : f.PlacesAgree) (hclosed : f.Closed) (hv : f.Violated v) :
    v ∈ f.violations := by
  cases hv with
  | emptyFunction hempty => simp [violations, hempty]
  | @missingTerminator b hb hno =>
    have hlayout := hp.mem_layout_of_reaches hclosed hb
    refine (mem_violations_iff_exists (List.ne_nil_of_mem hlayout)).mpr ⟨b, hlayout, ?_⟩
    refine (mem_blockViolations hp).mpr (.inr (mem_endViolations.mpr ⟨hno, ?_, rfl⟩))
    exact (mem_reachable_iff hp).mpr hb
  | @misplacedTerminator b i before after hlist hterm hafter =>
    obtain ⟨d, hd⟩ := hp.exists_inst? (i := i) (b := b) (by simp [hlist])
    refine hp.mem_violations_of_mem hlist hd (List.mem_append_left _ (List.mem_append_left _ ?_))
    rw [isTerminator_of_inst? hd] at hterm
    exact mem_placeViolations.mpr (.inl ⟨hterm, by simpa using hafter, rfl⟩)
  | @misplacedPhi b i j before after hlist hphi hj hno =>
    obtain ⟨d, hd⟩ := hp.exists_inst? (i := i) (b := b) (by simp [hlist])
    refine hp.mem_violations_of_mem hlist hd (List.mem_append_left _ (List.mem_append_left _ ?_))
    rw [isPhi_of_inst? hd] at hphi
    have hafter : (before.any fun j => !f.isPhi j) = true :=
      List.any_eq_true.mpr ⟨j, hj, by simp [hno]⟩
    exact mem_placeViolations.mpr (.inr (.inl ⟨hphi, hafter, rfl⟩))
  | @foreignIncoming b c i d hi hd hphi hc hno =>
    obtain ⟨before, after, hlist⟩ := List.append_of_mem hi
    refine hp.mem_violations_of_mem hlist hd (List.mem_append_left _ (List.mem_append_left _ ?_))
    have hpred : c ∉ f.preds b := fun hmem => hno ((mem_preds_iff hp).mp hmem)
    exact mem_placeViolations.mpr (.inr (.inr ⟨hphi, c, hc, hpred, rfl⟩))
  | @danglingOperand i j v k hi hv hdef hj =>
    obtain ⟨b, -, hib⟩ := List.mem_flatMap.mp hi
    obtain ⟨before, after, hlist⟩ := List.append_of_mem hib
    obtain ⟨d, hd⟩ := hp.exists_inst? hib
    rw [operands_of_inst? hd] at hv
    refine hp.mem_violations_of_mem hlist hd (List.mem_append_right _ ?_)
    exact mem_operandViolations.mpr ⟨v, k, hv, isDangling_eq_true_iff.mpr ⟨j, hdef, hj⟩, rfl⟩
  | @misshapen i d flaw hi hd hflaw =>
    obtain ⟨b, -, hib⟩ := List.mem_flatMap.mp hi
    obtain ⟨before, after, hlist⟩ := List.append_of_mem hib
    refine hp.mem_violations_of_mem hlist hd (List.mem_append_left _ (List.mem_append_right _ ?_))
    exact mem_shapeViolations.mpr ⟨flaw, hflaw, rfl⟩

theorem count_violations (hp : f.PlacesAgree) (hv : v ∈ f.violations) :
    f.violations.count v = f.occurrences v := by
  by_cases hempty : f.layout = []
  · have hlist : f.violations = [.emptyFunction] := by rw [violations, hempty]; rfl
    rw [hlist] at hv ⊢
    obtain rfl := List.mem_singleton.mp hv
    rfl
  · obtain ⟨b, hb, hvb⟩ := (mem_violations_iff_exists hempty).mp hv
    obtain ⟨before, after, hlayout⟩ := List.append_of_mem hb
    have hnodup := hp.nodup_layout
    have hother : ∀ {bs : List BlockId}, b ∉ bs → (bs.flatMap f.blockViolations).count v = 0 := by
      intro bs hno
      refine List.count_eq_zero.mpr fun hmem => ?_
      obtain ⟨c, hc, hvc⟩ := List.mem_flatMap.mp hmem
      exact hno (hp.eq_of_mem_blockViolations hvc hvb ▸ hc)
    rw [hlayout, List.nodup_append] at hnodup
    rw [violations, if_neg (by simpa using hempty), hlayout, List.flatMap_append, List.flatMap_cons,
      List.count_append, List.count_append, count_blockViolations hp hvb,
      hother fun hmem => hnodup.2.2 b hmem b List.mem_cons_self rfl,
      hother (List.nodup_cons.mp hnodup.2.1).1, Nat.add_zero, Nat.zero_add]

/-- **The validator finds each violation once**, and nothing else; a phi that names a block without an
edge to its own is found as often as it names the block.

It answers whenever the parts of the function agree and all that is named exists. Without blocks there
is nothing else to find. -/
theorem validate_exact (h : f.Coherent) (hclosed : f.Closed) : ∃ vs, f.validate = .ok vs ∧
    (∀ v, v ∈ vs ↔ f.Violated v) ∧ (∀ v ∈ vs, vs.count v = f.occurrences v) ∧
    (f.layout = [] → vs = [.emptyFunction]) := by
  have hp := h.places
  refine ⟨f.violations, h.validate_eq_ok hclosed,
    fun v => ⟨hp.violated_of_mem, hp.mem_of_violated hclosed⟩, fun v => count_violations hp, ?_⟩
  intro hempty
  rw [violations, hempty]
  rfl

/-- A phi stands behind a terminator and names an empty block twice; what is not reached may end as it
likes. -/
def ruined : String :=
  "func @f(%n) \x7b\n ^a:\n %x = add %n\n br [^b]\n %p = phi [%n, ^c], [%x, ^c]\n" ++
    " ^b:\n %q = copy 1\n ^c:\n\x7d"

/-- The first block has everything that is wrong, since no edge leaves it. -/
theorem validate_exact_ruined : ∃ f, parseModule ruined = .ok [f] ∧ f.Coherent ∧ f.Closed ∧
    f.violations = [.misshapen ⟨0⟩ .add (.operandCount 1), .misplacedTerminator ⟨0⟩ ⟨1⟩,
      .misplacedPhi ⟨0⟩ ⟨2⟩, .foreignIncoming ⟨0⟩ ⟨2⟩ ⟨2⟩, .foreignIncoming ⟨0⟩ ⟨2⟩ ⟨2⟩,
      .missingTerminator ⟨0⟩] ∧
    ∃ vs, f.validate = .ok vs ∧ (∀ v, v ∈ vs ↔ f.Violated v) ∧
      (∀ v ∈ vs, vs.count v = f.occurrences v) ∧ (f.layout = [] → vs = [.emptyFunction]) := by
  have hruns : Run.yieldsOne (parseModule ruined) (fun f =>
      f.layout = [⟨0⟩, ⟨1⟩, ⟨2⟩] ∧ f.stock = [⟨0⟩, ⟨1⟩, ⟨2⟩] ∧ f.succs ⟨0⟩ = [] ∧
      (f.last? ⟨0⟩).any f.isTerminator = false ∧
      [0, 1, 2].map (fun n => f.overInsts (f.instViolations ⟨n⟩) false (f.instsOf ⟨n⟩)) =
        [[.misshapen ⟨0⟩ .add (.operandCount 1), .misplacedTerminator ⟨0⟩ ⟨1⟩,
          .misplacedPhi ⟨0⟩ ⟨2⟩, .foreignIncoming ⟨0⟩ ⟨2⟩ ⟨2⟩, .foreignIncoming ⟨0⟩ ⟨2⟩ ⟨2⟩],
        [], []]) = true := by
    decide +kernel
  obtain ⟨f, hparse, hchecks⟩ := Run.exists_of_yieldsOne hruns
  obtain ⟨hlayout, hstock, hsuccs, hopen, hinsts⟩ := of_decide_eq_true hchecks
  simp only [List.map_cons, List.map_nil, List.cons.injEq, and_true] at hinsts
  have hreachable : f.reachable = [⟨0⟩] := by
    rw [reachable, hstock, entry?, hlayout]
    simp [preorder, hsuccs]
  have hsound := sound_of_parseModule hparse f (by simp)
  have hcoherent := hsound.built.coherent
  refine ⟨f, hparse, hcoherent, hsound.closed, ?_, validate_exact hcoherent hsound.closed⟩
  simp [violations, blockViolations, endViolations, hlayout, hinsts, hreachable, hopen]

end Function

end SsaPrune
