import SsaPrune.Function

/-!
# Editing a function

An edit is a request to change a function. It either answers or is refused with a fault; the
function that comes with a refusal shows what had been done by then.

The list of uses of a value follows the operands. Creating an instruction or giving it new operands
registers its uses, at the end of each list; taking it out of its block drops them. Where an
instruction stands is another matter: placing it in a block leaves the uses alone.

The first sections hold the changes themselves, each a total function. The edits below add what has
to be checked and in which order.
-/

namespace SsaPrune

/-- The list with `i` put in front of the first `anchor`. -/
def putBefore (anchor i : InstId) : List InstId → List InstId
  | [] => []
  | j :: rest => if j = anchor then i :: j :: rest else j :: putBefore anchor i rest

namespace Function

/-! ## Changes to the uses -/

/-- Register `i` as a user of each value among `operands`, in their order. -/
def registerUses (f : Function) (i : InstId) (operands : List Operand) : Function :=
  { f with
    uses := (positionedValues operands).foldl
      (fun uses (v, position) => uses.modify v (· ++ [Use.mk i position])) f.uses }

/-- Drop the uses that come from the operands which `i` has now. -/
def dropUses (f : Function) (i : InstId) : Function :=
  { f with
    uses := (positionedValues (f.operands i)).foldl
      (fun uses (v, position) => uses.modify v (·.filter (· ≠ Use.mk i position))) f.uses }

/-! ## Changes to instructions and blocks -/

def withOperands (f : Function) (i : InstId) (operands : List Operand) : Function :=
  { f with insts := f.insts.modify i ({ · with operands }) }

def withParent (f : Function) (i : InstId) (parent : Option BlockId) : Function :=
  { f with insts := f.insts.modify i ({ · with parent }) }

/-- Change the list of instructions that a block holds. -/
def editBlock (f : Function) (b : BlockId) (change : List InstId → List InstId) : Function :=
  { f with blocks := f.blocks.modify b fun info => { info with insts := change info.insts } }

end Function

/-- A request to change a function. -/
abbrev Edit := EStateM Fault Function

namespace Edit

/-! ## Checks -/

/-- Refuse a reading that cannot be answered. -/
def demand (l : Lookup) : Edit Unit := do
  if let some e := (← get).fault? l then
    throw e

def inst (i : InstId) : Edit Instruction := do
  let f ← get
  match f.inst? i with
  | some d => return d
  | none => throw (.outOfBounds f.insts.size i.index)

/-- Take over the outcome of a reading of the function. -/
def ofReading {α : Type} (read : Function → Except Fault α) : Edit α := do
  match read (← get) with
  | .ok a => return a
  | .error e => throw e

/-! ## Creation -/

def addParam (name : Option String) : Edit ValueId :=
  modifyGet fun f =>
    let v := f.values.next
    (v, { f with
      values := f.values.push ⟨.param f.params.length, name⟩
      params := f.params ++ [v] })

/-- Add an empty block at the end of the layout. -/
def addBlock (label : Option String) : Edit BlockId :=
  modifyGet fun f =>
    let b := f.blocks.next
    (b, { f with blocks := f.blocks.push ⟨label, []⟩, layout := f.layout ++ [b] })

/-- Add an instruction that no block holds, and register its uses. -/
def create (d : Instruction) : Edit InstId := do
  if d.parent.isSome then
    throw .createAttached
  modifyGet fun f =>
    let i := f.insts.next
    (i, { f with insts := f.insts.push d }.registerUses i d.operands)

/-- Add the value that `i` defines. Whether `i` was ever created is not asked. -/
def defineResult (i : InstId) (name : Option String) : Edit ValueId := do
  if ((← get).result? i).isSome then
    throw (.resultDefined i)
  modifyGet fun f =>
    let v := f.values.next
    (v, { f with
      values := f.values.push ⟨.result i, name⟩
      results := f.results.set i (some v) })

/-! ## Operands and places -/

/-- Replace the operands of `i`, and register its uses anew. -/
def setOperands (i : InstId) (operands : List Operand) : Edit Unit := do
  demand (.inst i)
  modify fun f => ((f.dropUses i).registerUses i operands).withOperands i operands

/-- Place `i` at the end of a block. The instruction names its new block before the block is looked
up, so a refused lookup leaves it naming a block that was never created. -/
def append (b : BlockId) (i : InstId) : Edit Unit := do
  if let some parent := (← inst i).parent then
    throw (.appendAttached i parent)
  modify (·.withParent i (some b))
  demand (.block b)
  modify (·.editBlock b (· ++ [i]))

/-- Place `i` in front of `anchor`, in the block that holds `anchor`. -/
def insertBefore (anchor i : InstId) : Edit Unit := do
  if let some parent := (← inst i).parent then
    throw (.insertAttached i parent)
  let some b := (← inst anchor).parent | throw .anchorDetached
  demand (.block b)
  if anchor ∉ (← get).instsOf b then
    throw .anchorMissing
  modify fun f => (f.editBlock b (putBefore anchor i)).withParent i (some b)

/-- Take `i` out of its block and drop its uses; who uses its result is left alone. Nothing happens
to an instruction that no block holds. -/
def detach (i : InstId) : Edit Unit := do
  let some b := (← inst i).parent | return
  modify (·.withParent i none)
  demand (.block b)
  modify fun f => (f.editBlock b (·.filter (· ≠ i))).dropUses i

end Edit

/-- An instruction being put together, with the result that it is to define: none, an unnamed one or
a named one. -/
structure Draft where
  inst : Instruction
  result : Option (Option String) := none
  deriving DecidableEq

namespace Draft

def ofOpcode (o : Opcode) : Draft := ⟨{ opcode := o }, none⟩

def addOperand (d : Draft) (x : Operand) : Draft :=
  { d with inst := { d.inst with operands := d.inst.operands ++ [x] } }

/-- Add an incoming pair of a phi. -/
def addIncoming (d : Draft) (x : Operand) (b : BlockId) : Draft :=
  { d.addOperand x with
    inst := { (d.addOperand x).inst with phiBlocks := d.inst.phiBlocks ++ [b] } }

def addSuccessor (d : Draft) (b : BlockId) : Draft :=
  { d with inst := { d.inst with successors := d.inst.successors ++ [b] } }

def withCallee (d : Draft) (name : String) : Draft :=
  { d with inst := { d.inst with callee := some name } }

/-- Define a result, under a name if one is given. -/
def withResult (d : Draft) (name : Option String) : Draft := { d with result := some name }

/-- Create the instruction and its result; no block holds it yet. -/
def build (d : Draft) : Edit InstId := do
  let i ← Edit.create d.inst
  if let some name := d.result then
    let _ ← Edit.defineResult i name
  return i

/-- Create the instruction and its result, and place it at the end of `b`. -/
def buildIn (d : Draft) (b : BlockId) : Edit InstId := do
  let i ← d.build
  Edit.append b i
  return i

end Draft

end SsaPrune
