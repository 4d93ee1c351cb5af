import SsaPrune.Function.Edit
import SsaPrune.Text.ParseError
import SsaPrune.Text.Source

/-!
# From names to entities

A source tree becomes a function in four steps: the parameters, the blocks, the instructions with
their results, and last the operands. A block or a value may thus be named before it is declared.
Values and blocks have names of their own, and each function starts with none.
-/

namespace SsaPrune

/-- A cause and the text that starts at its place. -/
structure Problem where
  cause : ParseCause
  start : List Char
  deriving DecidableEq

/-- A function under construction, and the names declared in it so far. -/
structure Scope where
  function : Function
  values : List (String × ValueId)
  blocks : List (String × BlockId)

/-- A step of the construction. -/
abbrev Build := StateT Scope (Except Problem)

namespace Build

/-- Edit the function. The step is for the sake of what starts at `start`. -/
def edit {α : Type} (start : List Char) (e : Edit α) : Build α := fun scope =>
  match e scope.function with
  | .ok a function => .ok (a, { scope with function })
  | .error fault _ => .error ⟨.refused fault, start⟩

def declareValue (start : List Char) (name : String) (v : ValueId) : Build Unit := do
  let scope ← get
  if (scope.values.lookup name).isSome then
    throw ⟨.duplicateValue name, start⟩
  set { scope with values := (name, v) :: scope.values }

def resolveBlock (start : List Char) (label : String) : Build BlockId := do
  match (← get).blocks.lookup label with
  | some b => return b
  | none => throw ⟨.undefinedBlock label, start⟩

def resolveOperand (start : List Char) : Source.Operand → Build Operand
  | .imm n => return .imm n
  | .name name => do
    match (← get).values.lookup name with
    | some v => return .value v
    | none => throw ⟨.undefinedValue name, start⟩

def addParam (start : List Char) (name : String) : Build Unit := do
  let v ← edit start (Edit.addParam (some name))
  declareValue start name v

def addBlock (block : Source.Block) : Build BlockId := do
  if ((← get).blocks.lookup block.label).isSome then
    throw ⟨.duplicateBlock block.label, block.start⟩
  let b ← edit block.start (Edit.addBlock (some block.label))
  modify fun scope => { scope with blocks := (block.label, b) :: scope.blocks }
  return b

/-- Add an instruction without its operands at the end of `b`. -/
def addInst (b : BlockId) (inst : Source.Inst) : Build InstId := do
  let some opcode := Opcode.ofName? inst.opcode
    | throw ⟨.unknownOpcode inst.opcode, inst.start⟩
  let successors ← inst.arguments.successors.mapM (resolveBlock inst.start)
  let phiBlocks ← inst.arguments.incomingLabels.mapM (resolveBlock inst.start)
  let i ← edit inst.start (Edit.create { opcode, successors, phiBlocks, callee := inst.callee })
  if let some name := inst.result then
    let v ← edit inst.start (Edit.defineResult i (some name))
    declareValue inst.start name v
  edit inst.start (Edit.append b i)
  return i

def addOperands (i : InstId) (inst : Source.Inst) : Build Unit := do
  let operands ← inst.arguments.operands.mapM (resolveOperand inst.start)
  edit inst.start (Edit.setOperands i operands)

/-- Put a function together from its written form. -/
def addFunction (source : Source.Function) : Build Unit := do
  source.params.forM (addParam source.start)
  let blocks ← source.blocks.mapM fun block => return (← addBlock block, block)
  let insts ← blocks.mapM fun (b, block) =>
    block.insts.mapM fun inst => return (← addInst b inst, inst)
  insts.flatten.forM fun (i, inst) => addOperands i inst

end Build

namespace Source

/-- The function that a source tree stands for. -/
def Function.resolve (source : Source.Function) : Except Problem SsaPrune.Function := do
  let (_, scope) ← Build.addFunction source ⟨.empty source.name, [], []⟩
  return scope.function

/-- The functions of a module, one after the other; the names in `seen` are taken. -/
def resolveAll (seen : List String) : List Source.Function → Except Problem (List SsaPrune.Function)
  | [] => return []
  | source :: rest => do
    if source.name ∈ seen then
      throw ⟨.duplicateFunction source.name, source.start⟩
    let f ← source.resolve
    let fs ← resolveAll (source.name :: seen) rest
    return f :: fs

end Source

end SsaPrune
