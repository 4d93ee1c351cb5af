import SsaPrune.Opcode
import SsaPrune.Text.Reader

/-!
# The written form of a module

```text
module   := function*
function := "func" "@" name "(" [%param ("," %param)*] ")" "{" block* "}"
block    := "^" name ":" inst*
inst     := [%name "="] opcode ["@" callee] [operand ("," operand)*] ["[" ^succ, ... "]"]
          | %name "=" "phi" "[" operand "," ^block "]" ("," "[" ... "]")*
operand  := %name | integer
```

A source tree is what such a text says, with names in the place of values and blocks. Every part
keeps the text from where it starts, so that what is found wrong with it later can be located.

An instruction stands on one line, and a semicolon starts a comment between instructions. A function
body that does not start with a block label starts with a block named `entry`.
-/

namespace SsaPrune.Source

/-- An operand as it is written. -/
inductive Operand
  | name (name : String)
  | imm (n : Int64)
  deriving DecidableEq

/-- What follows the opcode: the operands and successors of an ordinary instruction, or the incoming
pairs of a phi. -/
inductive Arguments
  | plain (operands : List Operand) (successors : List String)
  | incoming (pairs : List (Operand × String))
  deriving DecidableEq

structure Inst where
  /-- The text from the instruction on. -/
  start : List Char
  result : Option String
  opcode : String
  callee : Option String
  arguments : Arguments
  deriving DecidableEq

structure Block where
  /-- The text from the label on, or from the first instruction when the label is left out. -/
  start : List Char
  label : String
  insts : List Inst
  deriving DecidableEq

structure Function where
  /-- The text from the word `func` on. -/
  start : List Char
  name : String
  params : List String
  blocks : List Block
  deriving DecidableEq

namespace Arguments

def operands : Arguments → List Operand
  | plain operands _ => operands
  | incoming pairs => pairs.map (·.1)

def successors : Arguments → List String
  | plain _ successors => successors
  | incoming _ => []

def incomingLabels : Arguments → List String
  | plain _ _ => []
  | incoming pairs => pairs.map (·.2)

end Arguments

open Reader

/-! ## Names -/

def isNameChar (c : Char) : Bool := c.isAlphanum || c = '_'

def isOpcodeChar (c : Char) : Bool := isNameChar c || c = '.'

/-- A name after the sign that says what it names. -/
def readName (sign : Char) : Reader String := do
  literal sign
  word isNameChar

/-! ## Instructions -/

def readOperand : Reader Operand := do
  if startsWith '%' (← get) then
    return .name (← readName '%')
  else
    return .imm (← integer)

/-- Whether an operand list comes next; a plus sign does not count. -/
def startsOperand (s : List Char) : Bool :=
  s.head?.any fun c => c = '%' || c = '-' || c.isDigit

/-- The targets of a terminator, as in `[^a, ^b]`. -/
def readSuccessors : Reader (List String) := do
  literal '['
  padding
  let successors ← items1 (padded (readName '^'))
  padding
  literal ']'
  return successors

/-- An incoming pair of a phi, as in `[%a, ^b]`. -/
def readPair : Reader (Operand × String) := do
  literal '['
  padding
  let operand ← readOperand
  padding
  literal ','
  padding
  let block ← readName '^'
  padding
  literal ']'
  return (operand, block)

def readPlain : Reader Arguments := do
  let operands ← if startsOperand (← get) then items1 (padded readOperand) else pure []
  padding
  let successors ← if startsWith '[' (← get) then readSuccessors else pure []
  return .plain operands successors

def readIncoming : Reader Arguments := do
  return .incoming (← items1 (padded readPair))

def readResult : Reader String := do
  let name ← readName '%'
  padding
  literal '='
  padding
  return name

def readCallee : Reader String := do
  let name ← readName '@'
  padding
  return name

def readInst : Reader Inst := do
  let start ← get
  let result ← attempt readResult
  let opcode ← word isOpcodeChar
  padding
  let callee ← attempt readCallee
  let arguments ← if opcode = Opcode.phi.name then readIncoming else readPlain
  return { start, result, opcode, callee, arguments }

/-! ## Blocks and functions -/

/-- Whether a block ends here: at a label, at the closing brace or at the end of the text. -/
def endsBlock (s : List Char) : Bool :=
  s.isEmpty || startsWith '^' s || startsWith '\x7d' s

/-- The instructions up to the end of the block. -/
def readInsts : Reader (List Inst) := itemsUntil endsBlock readInst

def readBlock : Reader Block := do
  blanks
  let start ← get
  let label ← readName '^'
  padding
  literal ':'
  let insts ← readInsts
  return { start, label, insts }

/-- The block at the start of a body whose label is left out. -/
def readFirstBlock : Reader (List Block) := do
  let start ← get
  if startsWith '^' start || startsWith '\x7d' start then
    return []
  let insts ← readInsts
  return [{ start, label := "entry", insts }]

/-- The parameters of a function, in parentheses. -/
def readParams : Reader (List String) := do
  literal '('
  blanks
  let params ← items do
    blanks
    let name ← readName '%'
    blanks
    return name
  blanks
  literal ')'
  return params

def readFunction : Reader Function := do
  blanks
  let start ← get
  keyword "func"
  blanks
  let name ← readName '@'
  blanks
  let params ← readParams
  blanks
  literal '\x7b'
  blanks
  let first ← readFirstBlock
  let labelled ← itemsUntil (fun s => !startsWith '^' s) readBlock
  literal '\x7d'
  return { start, name, params, blocks := first ++ labelled }

def readModule : Reader (List Function) := itemsUntil List.isEmpty readFunction

end SsaPrune.Source
