import SsaPrune.Liveness.Solver

/-!
# Reporting liveness

The sets that are live before the instructions, phis left out, are handed in layout order to a sink,
which may stop at any time. The sink for text writes one set to a line, followed by a line with an
empty pair of braces; `Function.livenessText` is the text that it writes when nothing stops it.
-/

namespace SsaPrune

/-- Why a report ended early. -/
inductive Stop
  /-- The sink would not take any more. -/
  | refused
  | fault (e : Fault)
  deriving DecidableEq

/-- A receiver of the live sets of a function, with a state of its own. -/
structure Sink (σ : Type) where
  /-- Called for each instruction that is not a phi. -/
  liveIn : Function → InstId → ValueSet → EStateM Stop σ Unit
  /-- Called after the last instruction. -/
  finish : Function → EStateM Stop σ Unit := fun _ => pure ()

/-- Take over the outcome of a reading. -/
def Stop.ofReading {α σ : Type} : Except Fault α → EStateM Stop σ α
  | .ok a => pure a
  | .error e => throw (.fault e)

namespace Function

variable (f : Function)

/-- The instructions that a report goes through. -/
def reported : List InstId := f.attached.filter fun i => !f.isPhi i

/-- Hand the live sets to a sink, up to the first call that it refuses. -/
def report {σ : Type} (l : Liveness) (sink : Sink σ) : EStateM Stop σ Unit := do
  f.reported.forM fun i => sink.liveIn f i (l.liveIn i)
  sink.finish f

end Function

/-! ## Text -/

/-- A text under construction, which may have a limit on its size in bytes. -/
structure Writer where
  written : String := ""
  limit : Option Nat := none
  deriving DecidableEq

namespace Writer

/-- Append a fragment, unless it would take the text past its limit. -/
def write (fragment : String) : EStateM Stop Writer Unit := fun w =>
  if w.limit.all (w.written.utf8ByteSize + fragment.utf8ByteSize ≤ ·) then
    .ok () { w with written := w.written ++ fragment }
  else .error .refused w

/-- Write the labels of values, with commas between them. -/
def writeLabels (f : Function) : List ValueId → EStateM Stop Writer Unit
  | [] => pure ()
  | [v] => do write (← Stop.ofReading (f.printValue v))
  | v :: rest => do
    write (← Stop.ofReading (f.printValue v))
    write ", "
    writeLabels f rest

def writeSet (f : Function) (s : ValueSet) : EStateM Stop Writer Unit := do
  write "\x7b"
  writeLabels f s.toList
  write "\x7d"

/-- The sink that writes text. -/
def sink : Sink Writer where
  liveIn f _ s := do
    writeSet f s
    write "\n"
  finish _ := write "\x7b\x7d\n"

end Writer

namespace Function

variable (f : Function)

/-- The whole report as text. -/
def livenessText (l : Liveness) : String :=
  String.join (f.reported.map fun i => (l.liveIn i).text f ++ "\n") ++ "\x7b\x7d\n"

/-- What the text of the report reads, in order. -/
def livenessLookups (l : Liveness) : List Lookup := f.reported.flatMap fun i => (l.liveIn i).lookups

def printLiveness (l : Liveness) : Except Fault String := do
  f.require (f.livenessLookups l)
  return f.livenessText l

end Function

end SsaPrune
