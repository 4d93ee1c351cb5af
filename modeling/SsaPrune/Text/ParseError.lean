import SsaPrune.Function.Fault

/-!
# What is wrong with a text

A text is refused because it does not follow the grammar, because a name in it is declared twice or
not at all, or because it holds the wrong number of functions. Each error says where, in bytes.
-/

namespace SsaPrune

inductive ParseCause
  /-- The text does not follow the grammar. -/
  | malformed
  | duplicateFunction (name : String)
  | duplicateValue (name : String)
  | duplicateBlock (label : String)
  | unknownOpcode (name : String)
  | undefinedBlock (label : String)
  | undefinedValue (name : String)
  /-- One function was asked for and the text holds another number of them. -/
  | functionCount (found : Nat)
  /-- An edit was refused while a function was put together. -/
  | refused (fault : Fault)
  deriving DecidableEq

def ParseCause.message : ParseCause → String
  | malformed =>
    "expected function: Parsing Error: ContextError \x7b context: [], cause: None \x7d"
  | duplicateFunction name => s!"duplicate function '@{name}'"
  | duplicateValue name => s!"duplicate value name '%{name}'"
  | duplicateBlock label => s!"duplicate block label '^{label}'"
  | unknownOpcode name => s!"unknown opcode '{name}'"
  | undefinedBlock label => s!"undefined block '^{label}'"
  | undefinedValue name => s!"undefined value '%{name}'"
  | functionCount found => s!"expected exactly one function, found {found}"
  | refused fault => fault.message

/-- A cause and its place: the number of bytes in front of it. -/
structure ParseError where
  cause : ParseCause
  offset : Nat
  deriving DecidableEq

namespace ParseError

def message (e : ParseError) : String := e.cause.message

def text (e : ParseError) : String := s!"parse error at offset {e.offset}: {e.message}"

end ParseError

end SsaPrune
