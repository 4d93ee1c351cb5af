import SsaPrune.Elimination
import SsaPrune.Liveness.Report
import SsaPrune.Text.Parse
import SsaPrune.Validation

/-!
# From text to optimised functions

Each function of a module is checked, its liveness is written down, and its dead instructions are
eliminated; any of the three may be left out. The liveness is that of the function as it was read.
The first function that fails ends the run.
-/

namespace SsaPrune

structure PipelineConfig where
  /-- How to eliminate dead instructions, if at all. -/
  elimination : Option EliminationConfig := some {}
  printLiveness : Bool := true
  /-- Whether a malformed function is refused before anything else is done with it. -/
  validate : Bool := true
  deriving DecidableEq

/-- Why a file could not be read as text. -/
inductive FileProblem
  /-- The operating system refused. -/
  | system (message : String) (code : Nat)
  | notText
  deriving DecidableEq

namespace FileProblem

def notFound : FileProblem := .system "No such file or directory" 2

def notDirectory : FileProblem := .system "Not a directory" 20

def isDirectory : FileProblem := .system "Is a directory" 21

def nameTooLong : FileProblem := .system "File name too long" 36

def message : FileProblem → String
  | system message code => s!"{message} (os error {code})"
  | notText => "stream did not contain valid UTF-8"

end FileProblem

/-- Why a run of the pipeline failed. -/
inductive Failure
  | file (p : FileProblem)
  | parse (e : ParseError)
  | invalid (f : Function) (violations : List Violation)
  | fault (e : Fault)
  deriving DecidableEq

def Failure.message : Failure → String
  | file p => s!"I/O error: {p.message}"
  | parse e => e.text
  | invalid f violations => violationsText f violations
  | fault e => e.message

/-- What was done with one function. -/
structure FunctionReport where
  name : String
  /-- The live sets as text, if they were asked for. -/
  liveness : Option String
  elimination : Option EliminationResult
  deriving DecidableEq

/-- A function after the run, with its report. -/
structure Processed where
  function : Function
  report : FunctionReport
  deriving DecidableEq

/-- A step of the pipeline, which may change the function. -/
abbrev Pipeline := EStateM Failure Function

namespace Pipeline

def ofEdit {α : Type} (e : Edit α) : Pipeline α := fun f =>
  match e f with
  | .ok a f => .ok a f
  | .error fault f => .error (.fault fault) f

/-- Refuse a function with violations. -/
def check : Pipeline Unit := do
  match ← ofEdit (Edit.ofReading (·.validate)) with
  | [] => return
  | violations => throw (.invalid (← get) violations)

def liveness : Pipeline String :=
  ofEdit (Edit.ofReading fun f => do f.printLiveness (← f.computeLiveness))

/-- Do with one function what the configuration asks for. -/
def run (config : PipelineConfig) : Pipeline FunctionReport := do
  if config.validate then
    check
  let liveness ← if config.printLiveness then some <$> liveness else pure none
  let elimination ← config.elimination.mapM fun c => ofEdit (Edit.eliminate c)
  return { name := (← get).name, liveness, elimination }

end Pipeline

/-- Run the pipeline on one function. -/
def processFunction (config : PipelineConfig) (f : Function) : Except Failure Processed :=
  match Pipeline.run config f with
  | .ok report function => .ok { function, report }
  | .error e _ => .error e

/-- Run the pipeline on each function of a module. -/
def processModule (config : PipelineConfig) (text : String) : Except Failure (List Processed) := do
  let fs ← (parseModule text).mapError .parse
  fs.mapM (processFunction config)

end SsaPrune
