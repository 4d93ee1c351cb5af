import SsaPrune.Text.Resolve

/-!
# Reading functions from text

The whole text is read as source trees before the first name is looked up, so a break of the grammar
anywhere comes before every other error. The place of an error is the size of what stands in front
of it.
-/

namespace SsaPrune

/-- The error that a problem found within `input` amounts to. -/
def Problem.locate (input : List Char) (p : Problem) : ParseError :=
  ⟨p.cause, utf8Size input - utf8Size p.start⟩

/-- The source trees of a text. -/
def Source.ofText (input : List Char) : Except Problem (List Source.Function) :=
  match Source.readModule input with
  | .ok sources _ => .ok sources
  | .error _ rest => .error ⟨.malformed, rest⟩

/-- The functions of a module, given as characters. -/
def parseChars (input : List Char) : Except ParseError (List Function) :=
  ((Source.ofText input).bind (Source.resolveAll [])).mapError (·.locate input)

/-- The functions of a module. -/
def parseModule (text : String) : Except ParseError (List Function) :=
  parseChars text.toList

/-- The function of a text that holds exactly one. -/
def parseFunction (text : String) : Except ParseError Function := do
  match ← parseModule text with
  | [f] => return f
  | fs => throw ⟨.functionCount fs.length, 0⟩

/-- What to say when a text that was meant to hold one function is refused. -/
def ParseError.report (e : ParseError) (text : String) : String :=
  s!"Failed to parse test IR at offset {e.offset}:\n  {e.message}\n\nInput:\n{text}"

end SsaPrune
