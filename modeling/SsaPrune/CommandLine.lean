import SsaPrune.CommandLine.Arguments
import SsaPrune.Pipeline

/-!
# The command line

Three commands work on one file each: `liveness` writes the live sets of its functions, `dce` writes
the module without its dead instructions, and `check` only says that the module is in order. What
goes wrong is said on the error stream. The exit code is 1 for a file that cannot be processed, and
2 for arguments that make no sense.
-/

namespace SsaPrune

inductive Command
  | liveness (file : String) (validate : Bool)
  | dce (file : String) (config : EliminationConfig) (printLiveness validate : Bool)
  | check (file : String)
  deriving DecidableEq

/-- What a run of the program leaves behind. -/
structure Outcome where
  code : Nat
  stdout : String := ""
  stderr : String := ""
  deriving DecidableEq

namespace Command

def file : Command → String
  | liveness file _ => file
  | dce file _ _ _ => file
  | check file => file

/-! ## Reading the arguments -/

/-- Accepted everywhere. It is for the log, and no output depends on it. -/
def logLevel : String := "--log-level"

/-- A number below 2^64 in decimal digits, which may follow a plus sign. -/
def parseRounds? (s : String) : Option Nat :=
  let digits := match s.toList with
    | '+' :: rest => rest
    | cs => cs
  if !digits.isEmpty && digits.all Char.isDigit then
    let n := digits.foldl (fun n d => 10 * n + (d.toNat - '0'.toNat)) 0
    if n < UInt64.size then some n else none
  else none

def parseStrategy? : String → Option Strategy
  | "liveness" => some .liveness
  | "use-chain" => some .useChain
  | _ => none

/-- An option that may be left out, read by `parse` if it is there. -/
def optional? {α : Type} (value : Option String) (parse : String → Option α) :
    Option (Option α) :=
  match value with
  | some s => (parse s).map some
  | none => some none

/-- The options of a command, by its name. -/
def optionNames? : String → Option OptionNames
  | "liveness" => some ⟨["--no-validate"], [logLevel]⟩
  | "dce" => some ⟨["--print-liveness", "--no-validate"], ["--strategy", "--max-rounds", logLevel]⟩
  | "check" => some ⟨[], [logLevel]⟩
  | _ => none

/-- The command of a given name with the given arguments. Its only positional argument is a file,
which has a name. -/
def ofArguments? (name : String) (a : Arguments) : Option Command := do
  let [file] := a.positional | none
  if file.isEmpty then none
  let validate := "--no-validate" ∉ a.flags
  match name with
  | "liveness" => return .liveness file validate
  | "dce" =>
    let strategy ← optional? (a.values.lookup "--strategy") parseStrategy?
    let maxRounds ← optional? (a.values.lookup "--max-rounds") parseRounds?
    let config : EliminationConfig := { strategy := strategy.getD .liveness, maxRounds }
    return .dce file config ("--print-liveness" ∈ a.flags) validate
  | "check" => return .check file
  | _ => none

/-- The command that the arguments of the program ask for. -/
def parse? (args : List String) : Option Command := do
  let (first, rest) ← Arguments.collect ⟨[], [logLevel]⟩ false {} args
  let [name] := first.positional | none
  let names ← optionNames? name
  let (a, _) ← Arguments.collect names true {} rest
  ofArguments? name a

/-! ## Running a command -/

def config : Command → PipelineConfig
  | liveness _ validate => { elimination := none, printLiveness := true, validate }
  | dce _ config printLiveness validate => { elimination := some config, printLiveness, validate }
  | check _ => { elimination := none, printLiveness := false, validate := true }

/-- The live sets of a function under its name. -/
def livenessSection (r : FunctionReport) : String :=
  match r.liveness with
  | some text => s!"; @{r.name}\n" ++ text
  | none => ""

/-- What was eliminated from a function, in one line. -/
def eliminationLine (r : FunctionReport) : String :=
  match r.elimination with
  | some e =>
    let early := if e.reachedFixpoint then "" else " (stopped early)"
    s!"@{r.name}: removed {e.removed} instruction(s) in {e.rounds} round(s){early}\n"
  | none => ""

/-- The outcome for a module that was processed. -/
def succeed (c : Command) (ps : List Processed) : Outcome :=
  match c with
  | liveness _ _ =>
    { code := 0, stdout := String.join (ps.map fun p => livenessSection p.report) }
  | dce _ _ _ _ =>
    { code := 0
      stdout := Function.moduleText (ps.map (·.function))
      stderr := String.join (ps.map fun p => livenessSection p.report ++ eliminationLine p.report) }
  | check file => { code := 0, stdout := s!"{file}: {ps.length} function(s) ok\n" }

def fail (e : Failure) : Outcome := { code := 1, stderr := s!"error: {e.message}\n" }

/-- The text of a file. -/
def decode (bytes : ByteArray) : Except FileProblem String :=
  match String.fromUTF8? bytes with
  | some text => .ok text
  | none => .error .notText

/-- The outcome of a command, given what reading its file came to. -/
def run (c : Command) (contents : Except FileProblem ByteArray) : Outcome :=
  match contents.bind decode with
  | .error p => fail (.file p)
  | .ok text =>
    match processModule c.config text with
    | .error e => fail e
    | .ok ps => c.succeed ps

/-- The outcome for arguments that make no sense. -/
def usage : Outcome where
  code := 2
  stderr :=
    "usage: ssaprune liveness FILE [--no-validate]\n" ++
    "       ssaprune dce FILE [--strategy liveness|use-chain] [--max-rounds N]\n" ++
    "                         [--print-liveness] [--no-validate]\n" ++
    "       ssaprune check FILE\n"

end Command

end SsaPrune
