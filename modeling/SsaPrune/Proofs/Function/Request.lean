import SsaPrune.Proofs.Function.Edits

/-!
# Requests

The edits as data: what each asks for, which entities it names, and the function that it leads to.
`Request.run_eq_ok_iff` says that a request succeeds exactly when it leads somewhere, and where.
-/

namespace SsaPrune

namespace Function

variable (f : Function)

/-- The entity of a reading was created. -/
def Has (l : Lookup) : Prop := f.fault? l = none

instance (l : Lookup) : Decidable (f.Has l) := inferInstanceAs (Decidable (_ = _))

@[simp] theorem has_inst {i : InstId} : f.Has (.inst i) ↔ i.index < f.insts.size := by
  simp [Has, fault?]

@[simp] theorem has_value {v : ValueId} : f.Has (.value v) ↔ v.index < f.values.size := by
  simp [Has, fault?]

@[simp] theorem has_block {b : BlockId} : f.Has (.block b) ↔ b.index < f.blocks.size := by
  simp [Has, fault?]

theorem Has.mono {f : Function} {l : Lookup} (h : f.Has l) {g : Function}
    (hi : f.insts.size ≤ g.insts.size) (hv : f.values.size ≤ g.values.size)
    (hb : f.blocks.size ≤ g.blocks.size) : g.Has l := by
  cases l with
  | inst i => exact (g.has_inst).mpr (Nat.lt_of_lt_of_le ((f.has_inst).mp h) hi)
  | value v => exact (g.has_value).mpr (Nat.lt_of_lt_of_le ((f.has_value).mp h) hv)
  | block b => exact (g.has_block).mpr (Nat.lt_of_lt_of_le ((f.has_block).mp h) hb)

end Function

/-- The entities that an instruction names. -/
def Instruction.lookups (d : Instruction) : List Lookup :=
  d.values.map .value ++ (d.successors ++ d.phiBlocks).map .block

/-! ## Requests -/

/-- An edit, with the entities that it is about. -/
inductive Request
  | addParam (name : Option String)
  | addBlock (label : Option String)
  | create (d : Instruction)
  | defineResult (i : InstId) (name : Option String)
  | setOperands (i : InstId) (operands : List Operand)
  | append (b : BlockId) (i : InstId)
  | insertBefore (anchor i : InstId)
  | detach (i : InstId)
  deriving DecidableEq

namespace Request

def run : Request → Edit Unit
  | addParam name => do let _ ← Edit.addParam name
  | addBlock label => do let _ ← Edit.addBlock label
  | create d => do let _ ← Edit.create d
  | defineResult i name => do let _ ← Edit.defineResult i name
  | setOperands i operands => Edit.setOperands i operands
  | append b i => Edit.append b i
  | insertBefore anchor i => Edit.insertBefore anchor i
  | detach i => Edit.detach i

/-- The entity that a request adds to a function. -/
def adds (f : Function) : Request → Option Lookup
  | create _ => some (.inst f.insts.next)
  | addParam _ | defineResult _ _ => some (.value f.values.next)
  | addBlock _ => some (.block f.blocks.next)
  | _ => none

/-- The entities that a request names. -/
def lookups : Request → List Lookup
  | addParam _ | addBlock _ => []
  | create d => d.lookups
  | defineResult i _ | detach i => [.inst i]
  | setOperands i operands => .inst i :: (operands.filterMap (·.value?)).map .value
  | append b i => [.block b, .inst i]
  | insertBefore anchor i => [.inst anchor, .inst i]

/-- When a request succeeds, and with which function. -/
def Leads (f g : Function) : Request → Prop
  | addParam name => g = { f with
      values := f.values.push ⟨.param f.params.length, name⟩
      params := f.params ++ [f.values.next] }
  | addBlock label => g = { f with
      blocks := f.blocks.push ⟨label, []⟩
      layout := f.layout ++ [f.blocks.next] }
  | create d => d.parent = none ∧
      g = { f with insts := f.insts.push d }.registerUses f.insts.next d.operands
  | defineResult i name => f.result? i = none ∧ g = { f with
      values := f.values.push ⟨.result i, name⟩
      results := f.results.set i (some f.values.next) }
  | setOperands i operands => f.Has (.inst i) ∧
      g = ((f.dropUses i).registerUses i operands).withOperands i operands
  | append b i => f.Has (.inst i) ∧ f.parent? i = none ∧ f.Has (.block b) ∧
      g = (f.withParent i (some b)).editBlock b (· ++ [i])
  | insertBefore anchor i => f.Has (.inst i) ∧ f.parent? i = none ∧
      ∃ b, f.parent? anchor = some b ∧ anchor ∈ f.instsOf b ∧
        g = (f.withParent i (some b)).editBlock b (putBefore anchor i)
  | detach i => f.Has (.inst i) ∧ f.parent? i = none ∧ g = f ∨
      ∃ b, f.parent? i = some b ∧ f.Has (.block b) ∧
        g = ((f.withParent i none).editBlock b (·.filter (· ≠ i))).dropUses i

end Request

theorem Function.has_block_of_mem_instsOf {f : Function} {i : InstId} {b : BlockId}
    (h : i ∈ f.instsOf b) : f.Has (.block b) := by
  unfold Function.instsOf at h
  cases hb : f.block? b with
  | none => simp [hb] at h
  | some info =>
    exact (f.has_block).mpr ((Arena.get?_isSome_iff _ _).mp (by rw [← Function.block?, hb]; rfl))

theorem Function.has_inst_iff {f : Function} {i : InstId} :
    f.Has (.inst i) ↔ ∃ d, f.inst? i = some d := by
  rw [has_inst, ← f.inst?_isSome_iff, Option.isSome_iff_exists]

namespace Request

variable {f g : Function} {r : Request}

theorem run_eq_ok_iff : r.run f = .ok () g ↔ r.Leads f g := by
  cases r with
  | addParam name =>
    change EStateM.Result.ok () _ = _ ↔ _
    simp [Leads, eq_comm]
  | addBlock label =>
    change EStateM.Result.ok () _ = _ ↔ _
    simp [Leads, eq_comm]
  | create d =>
    rw [run, Run.bind_apply, Edit.create_apply, Leads]
    cases hd : d.parent with
    | none =>
      change EStateM.Result.ok () _ = _ ↔ _
      simp [eq_comm]
    | some b => simp
  | defineResult i name =>
    rw [run, Run.bind_apply, Edit.defineResult_apply, Leads]
    cases hi : f.result? i with
    | none =>
      change EStateM.Result.ok () _ = _ ↔ _
      simp [eq_comm]
    | some v => simp
  | setOperands i operands =>
    rw [run, Edit.setOperands_apply, Leads, Function.has_inst]
    by_cases hi : i.index < f.insts.size <;> simp [hi, eq_comm]
  | append b i =>
    rw [run, Edit.append_apply, Leads, Function.has_inst_iff, Function.has_block,
      Function.parent?]
    cases f.inst? i with
    | none => simp
    | some d =>
      cases hd : d.parent with
      | some p => simp [hd]
      | none => by_cases hb : b.index < f.blocks.size <;> simp [hd, hb, eq_comm]
  | insertBefore anchor i =>
    rw [run, Edit.insertBefore_apply, Leads, Function.has_inst_iff, Function.parent?,
      Function.parent?]
    cases f.inst? i with
    | none => simp
    | some d =>
      cases hd : d.parent with
      | some p => simp [hd]
      | none =>
        simp only [hd]
        cases f.inst? anchor with
        | none => simp
        | some e =>
          cases he : e.parent with
          | none => simp [he]
          | some b =>
            simp only [he]
            by_cases ha : anchor ∈ f.instsOf b
            · have hb := (f.has_block).mp (Function.has_block_of_mem_instsOf ha)
              simp only [ha, hb, if_true, EStateM.Result.ok.injEq, true_and, Option.bind_some, hd,
                he, Option.some.injEq, exists_eq_left']
              exact ⟨fun h => ⟨⟨d, rfl⟩, h.symm⟩, fun h => h.2.symm⟩
            · by_cases hb : b.index < f.blocks.size <;> simp [ha, hb, hd, he]
  | detach i =>
    rw [run, Edit.detach_apply, Leads, Function.has_inst_iff, Function.parent?]
    cases f.inst? i with
    | none => simp
    | some d =>
      cases hd : d.parent with
      | none => simp [hd, eq_comm]
      | some b => by_cases hb : b.index < f.blocks.size <;> simp [hd, hb, eq_comm]

end Request

end SsaPrune
