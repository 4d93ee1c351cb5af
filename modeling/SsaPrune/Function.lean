import SsaPrune.Function.Fault
import SsaPrune.Opcode

/-!
# Functions in static single assignment form

A function owns its parameters, its blocks in layout order, and an arena of every instruction and
value ever created for it. The first block of the layout is the entry. An instruction that was
taken out of its block stays in the arena, so nothing that names it is left without meaning.

Beside the arenas stand two side tables: the result of each instruction, and for each value the
list of its uses.

This module holds the data and the ways to read it. A reading that names an entity outside its
arena has an empty answer; `Function.require` is for the places where such a reading is an error.
-/

namespace SsaPrune

/-- One use of a value: the instruction that uses it, and at which operand. -/
structure Use where
  user : InstId
  operandIndex : Nat
  deriving DecidableEq

/-- What an instruction works on: a value, or an integer written in place. -/
inductive Operand
  | value (v : ValueId)
  | imm (n : Int64)
  deriving DecidableEq

def Operand.value? : Operand → Option ValueId
  | value v => some v
  | imm _ => none

/-- One instruction. The list `phiBlocks` runs parallel to the operands of a phi and says over
which edge each comes in; `successors` are the targets of a terminator. -/
structure Instruction where
  opcode : Opcode
  operands : List Operand := []
  successors : List BlockId := []
  phiBlocks : List BlockId := []
  callee : Option String := none
  /-- The block that holds the instruction. -/
  parent : Option BlockId := none
  deriving DecidableEq

/-- The values among some operands, each with its position. -/
def positionedValues (operands : List Operand) : List (ValueId × Nat) :=
  operands.zipIdx.filterMap fun (x, position) => x.value?.map (·, position)

namespace Instruction

/-- The values among the operands. -/
def values (d : Instruction) : List ValueId := d.operands.filterMap (·.value?)

/-- The incoming pairs of a phi. -/
def incoming (d : Instruction) : List (BlockId × Operand) := d.phiBlocks.zip d.operands

end Instruction

/-- Where a value comes from. -/
inductive Definition
  | result (i : InstId)
  | param (position : Nat)
  deriving DecidableEq

def Definition.text : Definition → String
  | result i => i.text
  | param position => s!"param#{position}"

structure ValueInfo where
  definition : Definition
  name : Option String
  deriving DecidableEq

structure BlockInfo where
  label : Option String
  insts : List InstId
  deriving DecidableEq

structure Function where
  name : String
  insts : Arena .inst Instruction
  values : Arena .value ValueInfo
  blocks : Arena .block BlockInfo
  /-- The blocks in the order in which they are written. -/
  layout : List BlockId
  params : List ValueId
  results : SideTable .inst (Option ValueId)
  uses : SideTable .value (List Use)
  deriving DecidableEq

/-- The element that follows the first `x` of a list. -/
def follower? {α : Type} [DecidableEq α] (x : α) : List α → Option α
  | y :: z :: rest => if y = x then some z else follower? x (z :: rest)
  | _ => none

/-- The reading of one entity from its arena. -/
inductive Lookup
  | inst (i : InstId)
  | value (v : ValueId)
  | block (b : BlockId)
  deriving DecidableEq

namespace Function

/-- A function with a name and nothing else. -/
def empty (name : String) : Function where
  name := name
  insts := .empty
  values := .empty
  blocks := .empty
  layout := []
  params := []
  results := .empty
  uses := .empty

instance : Inhabited Function := ⟨empty ""⟩

variable (f : Function)

/-! ## Instructions -/

def inst? (i : InstId) : Option Instruction := f.insts.get? i

def operands (i : InstId) : List Operand := ((f.inst? i).map (·.operands)).getD []

/-- The values that an instruction uses, one entry for each operand. -/
def valueOperands (i : InstId) : List ValueId := ((f.inst? i).map (·.values)).getD []

/-- The targets of a terminator. -/
def successors (i : InstId) : List BlockId := ((f.inst? i).map (·.successors)).getD []

/-- The incoming pairs of a phi. -/
def incoming (i : InstId) : List (BlockId × Operand) := ((f.inst? i).map (·.incoming)).getD []

/-- The block that holds an instruction. -/
def parent? (i : InstId) : Option BlockId := (f.inst? i).bind (·.parent)

def isAttached (i : InstId) : Bool := (f.parent? i).isSome

/-- The value that an instruction defines. -/
def result? (i : InstId) : Option ValueId := f.results.get i

def isTerminator (i : InstId) : Bool := (f.inst? i).any (·.opcode.isTerminator)

def hasSideEffects (i : InstId) : Bool := (f.inst? i).any (·.opcode.hasSideEffects)

def isCall (i : InstId) : Bool := (f.inst? i).any (·.opcode.isCall)

def isPhi (i : InstId) : Bool := (f.inst? i).any (·.opcode.isPhi)

/-! ## Values -/

def value? (v : ValueId) : Option ValueInfo := f.values.get? v

def definition? (v : ValueId) : Option Definition := (f.value? v).map (·.definition)

def valueName? (v : ValueId) : Option String := (f.value? v).bind (·.name)

def usesOf (v : ValueId) : List Use := f.uses.get v

def hasUses (v : ValueId) : Bool := !(f.usesOf v).isEmpty

/-! ## Blocks and the order of instructions -/

def block? (b : BlockId) : Option BlockInfo := f.blocks.get? b

def blockLabel? (b : BlockId) : Option String := (f.block? b).bind (·.label)

def entry? : Option BlockId := f.layout.head?

/-- The instructions of a block, in order. -/
def instsOf (b : BlockId) : List InstId := ((f.block? b).map (·.insts)).getD []

/-- Every instruction that a block holds: blocks in layout order, each from first to last. -/
def attached : List InstId := f.layout.flatMap f.instsOf

def numInsts : Nat := f.attached.length

def first? (b : BlockId) : Option InstId := (f.instsOf b).head?

def last? (b : BlockId) : Option InstId := (f.instsOf b).getLast?

/-- The instruction after `i` in its block. -/
def next? (i : InstId) : Option InstId :=
  (f.parent? i).bind fun b => follower? i (f.instsOf b)

/-- Where control goes from the end of a block: the targets of its last instruction, if that is a
terminator. -/
def targets (b : BlockId) : List BlockId :=
  match f.last? b with
  | some i => if f.isTerminator i then f.successors i else []
  | none => []

/-! ## Readings that must succeed -/

/-- The fault of a reading, if its entity was never created. -/
def fault? : Lookup → Option Fault
  | .inst i => if i.index < f.insts.size then none else some (.outOfBounds f.insts.size i.index)
  | .value v => if v.index < f.values.size then none else some (.outOfBounds f.values.size v.index)
  | .block b => if b.index < f.blocks.size then none else some (.outOfBounds f.blocks.size b.index)

/-- Refuse the first reading, in order, that cannot be answered. -/
def require (ls : List Lookup) : Except Fault Unit :=
  match ls.findSome? f.fault? with
  | some e => .error e
  | none => .ok ()

/-- What `i` reads when its follower is looked for: itself, and the block that it names. -/
def nextLookups (i : InstId) : List Lookup :=
  .inst i :: (f.parent? i).toList.map .block

theorem require_eq_ok_iff {ls : List Lookup} :
    f.require ls = .ok () ↔ ∀ l ∈ ls, f.fault? l = none := by
  unfold require
  rw [← List.findSome?_eq_none_iff]
  cases ls.findSome? f.fault? <;> simp

end Function

end SsaPrune
