import SsaPrune.Function

/-!
# Writing functions as text

```text
func @main(%a) {
  ^entry:
    %x = add %a, 1
    ret %x
}
```

Named values and blocks are written by name; the others by the text of the entity, as in `%v3` and
`^block1`. A text is a total function of the function that is written, in which an entity that was
never created looks like one without a name. `print` and `printInst` refuse such entities instead:
they make every reading of `lookups`, in the order in which the text mentions the entities.
-/

namespace SsaPrune.Function

variable (f : Function)

/-! ## Labels and operands -/

def valueLabel (v : ValueId) : String := "%" ++ (f.valueName? v).getD v.text

def blockLabel (b : BlockId) : String := "^" ++ (f.blockLabel? b).getD b.text

def operandText : Operand → String
  | .value v => f.valueLabel v
  | .imm n => toString n.toInt

def operandLookups : Operand → List Lookup
  | .value v => [.value v]
  | .imm _ => []

/-- Items after a blank, with commas between them; nothing at all when there are none. -/
def spaced : List String → String
  | [] => ""
  | items => " " ++ ", ".intercalate items

/-! ## Instructions -/

/-- An incoming pair of a phi. -/
def incomingText (pair : BlockId × Operand) : String :=
  "[" ++ f.operandText pair.2 ++ ", " ++ f.blockLabel pair.1 ++ "]"

def successorsText : List BlockId → String
  | [] => ""
  | bs => " [" ++ ", ".intercalate (bs.map f.blockLabel) ++ "]"

/-- What follows the opcode and the callee. -/
def argumentsText (d : Instruction) : String :=
  if d.opcode.isPhi then
    spaced (d.incoming.map f.incomingText)
  else
    spaced (d.operands.map f.operandText) ++ f.successorsText d.successors

def resultText : Option ValueId → String
  | some v => f.valueLabel v ++ " = "
  | none => ""

def calleeText : Option String → String
  | some name => " @" ++ name
  | none => ""

def instructionText (result : Option ValueId) (d : Instruction) : String :=
  f.resultText result ++ d.opcode.name ++ calleeText d.callee ++ f.argumentsText d

/-- One instruction, without indentation and without a line end. -/
def instText (i : InstId) : String :=
  match f.inst? i with
  | some d => f.instructionText (f.result? i) d
  | none => ""

def argumentLookups (d : Instruction) : List Lookup :=
  if d.opcode.isPhi then
    d.incoming.flatMap fun pair => operandLookups pair.2 ++ [.block pair.1]
  else
    d.operands.flatMap operandLookups ++ d.successors.map .block

/-- What the text of an instruction reads, in order. -/
def instLookups (i : InstId) : List Lookup :=
  .inst i :: ((f.result? i).toList.map .value ++ ((f.inst? i).map argumentLookups).getD [])

def printInst (i : InstId) : Except Fault String := do
  f.require (f.instLookups i)
  return f.instText i

def printValue (v : ValueId) : Except Fault String := do
  f.require [.value v]
  return f.valueLabel v

def printBlockLabel (b : BlockId) : Except Fault String := do
  f.require [.block b]
  return f.blockLabel b

/-! ## Functions and modules -/

def blockText (b : BlockId) : String :=
  "  " ++ f.blockLabel b ++ ":\n" ++
    String.join ((f.instsOf b).map fun i => "    " ++ f.instText i ++ "\n")

def text : String :=
  "func @" ++ f.name ++ "(" ++ ", ".intercalate (f.params.map f.valueLabel) ++ ") \x7b\n" ++
    String.join (f.layout.map f.blockText) ++ "\x7d\n"

/-- What the text of the function reads, in order. -/
def lookups : List Lookup :=
  f.params.map .value ++
    f.layout.flatMap fun b => .block b :: (f.instsOf b).flatMap f.instLookups

def print : Except Fault String := do
  f.require f.lookups
  return f.text

/-- Several functions, with an empty line between them. -/
def moduleText (fs : List Function) : String := "\n".intercalate (fs.map text)

def printModule (fs : List Function) : Except Fault String := do
  fs.forM fun f => f.require f.lookups
  return moduleText fs

end SsaPrune.Function
