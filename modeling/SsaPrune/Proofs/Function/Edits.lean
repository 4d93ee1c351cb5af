import SsaPrune.Proofs.Function.Updates
import SsaPrune.Proofs.Runs

/-!
# The outcome of each edit

One equation for each edit: which checks it makes, in which order, what it refuses with, and the
function that it leaves. Everything else about edits is drawn from these equations.
-/

namespace SsaPrune.Edit

open Run

variable (f : Function) (i anchor : InstId) (b : BlockId)

/-! ## Checks -/

theorem demand_apply (l : Lookup) :
    demand l f = (f.fault? l).elim (.ok () f) fun e => .error e f := by
  unfold demand
  rw [bind_get]
  cases f.fault? l <;> rfl

theorem demand_block : demand (.block b) f =
    if b.index < f.blocks.size then .ok () f
    else .error (.outOfBounds f.blocks.size b.index) f := by
  rw [demand_apply, Function.fault?]
  by_cases h : b.index < f.blocks.size <;> simp [h]

theorem inst_apply : inst i f =
    match f.inst? i with
    | some d => .ok d f
    | none => .error (.outOfBounds f.insts.size i.index) f := by
  change (match f.inst? i with | some d => _ | none => _ : Edit Instruction) f = _
  cases f.inst? i <;> rfl

theorem ofReading_of_ok {α : Type} {read : Function → Except Fault α} {a : α}
    (h : read f = .ok a) : ofReading read f = .ok a f := by
  unfold ofReading
  rw [bind_get, h]
  rfl

/-! ## Creation -/

theorem create_apply (d : Instruction) : create d f =
    if d.parent.isSome then .error .createAttached f
    else .ok f.insts.next
      ({ f with insts := f.insts.push d }.registerUses f.insts.next d.operands) := by
  unfold create
  split <;> rfl

theorem defineResult_apply (name : Option String) : defineResult i name f =
    if (f.result? i).isSome then .error (.resultDefined i) f
    else .ok f.values.next { f with
      values := f.values.push ⟨.result i, name⟩
      results := f.results.set i (some f.values.next) } := by
  change (if (f.result? i).isSome then _ else _ : Edit ValueId) f = _
  split <;> rfl

theorem eq_next_of_defineResult {name : Option String} {v : ValueId} {g : Function}
    (h : defineResult i name f = .ok v g) : v = f.values.next := by
  rw [defineResult_apply] at h
  split at h
  · cases h
  · exact (EStateM.Result.ok.inj h).1.symm

/-! ## Operands and places -/

theorem setOperands_apply (operands : List Operand) : setOperands i operands f =
    if i.index < f.insts.size then
      .ok () (((f.dropUses i).registerUses i operands).withOperands i operands)
    else .error (.outOfBounds f.insts.size i.index) f := by
  unfold setOperands
  rw [bind_apply, demand_apply, Function.fault?]
  by_cases h : i.index < f.insts.size
  · simp only [h, if_true]
    rfl
  · simp only [h, if_false]
    rfl

theorem append_apply : append b i f =
    match f.inst? i with
    | none => .error (.outOfBounds f.insts.size i.index) f
    | some d =>
      match d.parent with
      | some parent => .error (.appendAttached i parent) f
      | none =>
        if b.index < f.blocks.size then
          .ok () ((f.withParent i (some b)).editBlock b (· ++ [i]))
        else .error (.outOfBounds f.blocks.size b.index) (f.withParent i (some b)) := by
  unfold append
  rw [bind_apply, inst_apply]
  cases f.inst? i with
  | none => rfl
  | some d =>
    cases hd : d.parent with
    | some parent =>
      simp only [hd]
      rfl
    | none =>
      simp only [hd]
      change (demand (.block b) >>= _ : Edit Unit) (f.withParent i (some b)) = _
      rw [bind_apply, demand_block, Function.blocks_withParent]
      by_cases hb : b.index < f.blocks.size
      · simp only [hb, if_true]
        rfl
      · simp only [hb, if_false]

theorem insertBefore_apply : insertBefore anchor i f =
    match f.inst? i with
    | none => .error (.outOfBounds f.insts.size i.index) f
    | some d =>
      match d.parent with
      | some parent => .error (.insertAttached i parent) f
      | none =>
        match f.inst? anchor with
        | none => .error (.outOfBounds f.insts.size anchor.index) f
        | some d =>
          match d.parent with
          | none => .error .anchorDetached f
          | some b =>
            if b.index < f.blocks.size then
              if anchor ∈ f.instsOf b then
                .ok () ((f.editBlock b (putBefore anchor i)).withParent i (some b))
              else .error .anchorMissing f
            else .error (.outOfBounds f.blocks.size b.index) f := by
  unfold insertBefore
  rw [bind_apply, inst_apply]
  cases f.inst? i with
  | none => rfl
  | some d =>
    cases hd : d.parent with
    | some parent =>
      simp only [hd]
      rfl
    | none =>
      simp only [hd]
      rw [bind_apply, inst_apply]
      cases f.inst? anchor with
      | none => rfl
      | some d =>
        cases hd : d.parent with
        | none =>
          simp only [hd]
          rfl
        | some b =>
          simp only [hd]
          rw [bind_apply, demand_block]
          by_cases hb : b.index < f.blocks.size
          · simp only [hb, if_true]
            change (if anchor ∉ f.instsOf b then _ else _ : Edit Unit) f = _
            by_cases ha : anchor ∈ f.instsOf b
            · simp only [ha, not_true, if_true, if_false]
              rfl
            · simp only [ha, not_false_iff, if_true, if_false]
              rfl
          · simp only [hb, if_false]

theorem detach_apply : detach i f =
    match f.inst? i with
    | none => .error (.outOfBounds f.insts.size i.index) f
    | some d =>
      match d.parent with
      | none => .ok () f
      | some b =>
        if b.index < f.blocks.size then
          .ok () (((f.withParent i none).editBlock b (·.filter (· ≠ i))).dropUses i)
        else .error (.outOfBounds f.blocks.size b.index) (f.withParent i none) := by
  unfold detach
  rw [bind_apply, inst_apply]
  cases f.inst? i with
  | none => rfl
  | some d =>
    cases hd : d.parent with
    | none =>
      simp only [hd]
      rfl
    | some b =>
      simp only [hd]
      change (demand (.block b) >>= _ : Edit Unit) (f.withParent i none) = _
      rw [bind_apply, demand_block, Function.blocks_withParent]
      by_cases hb : b.index < f.blocks.size
      · simp only [hb, if_true]
        rfl
      · simp only [hb, if_false]

end SsaPrune.Edit
