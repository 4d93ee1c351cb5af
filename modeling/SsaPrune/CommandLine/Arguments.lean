/-!
# Command-line arguments

The arguments of a command are options and positional arguments in any order. An option is a flag,
or takes a value, which is written after an equals sign or as the next argument. Two hyphens end the
options. Whatever the given options do not provide for is refused, and so is an option given twice.
-/

namespace SsaPrune

/-- The options of a command. -/
structure OptionNames where
  flags : List String
  /-- The options that take a value. -/
  valued : List String

/-- The arguments of a command, sorted out. -/
structure Arguments where
  positional : List String := []
  flags : List String := []
  values : List (String × String) := []

namespace Arguments

/-- Whether an argument looks like an option. A single hyphen does not. -/
def isOption (arg : String) : Bool :=
  match arg.toList with
  | '-' :: _ :: _ => true
  | _ => false

/-- The name of a long option, and the value that is written after an equals sign. -/
def splitOption (arg : String) : String × Option String :=
  let cs := arg.toList
  let name := String.ofList (cs.takeWhile (· ≠ '='))
  match cs.dropWhile (· ≠ '=') with
  | _ :: value => (name, some (String.ofList value))
  | [] => (name, none)

def addFlag? (a : Arguments) (name : String) : Option Arguments :=
  if name ∈ a.flags then none else some { a with flags := a.flags ++ [name] }

def addValue? (a : Arguments) (name value : String) : Option Arguments :=
  if (a.values.lookup name).isSome then none
  else some { a with values := a.values ++ [(name, value)] }

def addPositional (a : Arguments) (args : List String) : Arguments :=
  { a with positional := a.positional ++ args }

/-- Sort out arguments after those in `a`. Without `spread`, the first positional argument ends the
command, and what follows is left over. -/
def collect (names : OptionNames) (spread : Bool) (a : Arguments) :
    List String → Option (Arguments × List String)
  | [] => some (a, [])
  | arg :: rest =>
    if arg = "--" then
      if spread then some (a.addPositional rest, []) else none
    else if isOption arg then
      match splitOption arg with
      | (name, none) =>
        if name ∈ names.flags then
          (a.addFlag? name).bind fun a => collect names spread a rest
        else if name ∈ names.valued then
          match rest with
          | value :: rest =>
            if isOption value then none
            else (a.addValue? name value).bind fun a => collect names spread a rest
          | [] => none
        else none
      | (name, some value) =>
        if name ∈ names.valued then
          (a.addValue? name value).bind fun a => collect names spread a rest
        else none
    else if spread then collect names spread (a.addPositional [arg]) rest
    else some (a.addPositional [arg], rest)

end Arguments

end SsaPrune
