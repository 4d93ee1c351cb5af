import SsaPrune.Liveness.EdgeUses

/-!
# Liveness

For every instruction `i` that a block holds,

```text
liveIn i  = uses of i ∪ (liveOut i − result of i)
liveOut i = ⋃ what each successor of i contributes
```

The successor of an instruction is the one after it; the successors of a terminator are the first
instructions of its targets. An instruction contributes what is live before it. A phi contributes
what is live after the phis of its block and what they use along the edge that is taken.

The solver starts from empty sets and makes passes over all instructions in layout order, each
transfer at once visible to the next, until a pass changes nothing. The sets only grow, and hold
only values that are operands somewhere, so `Function.passBound` passes are enough.
-/

namespace SsaPrune

inductive Phase
  /-- No pass was made, and all sets are empty. -/
  | uninitialized
  /-- The last pass changed something. -/
  | iterating
  /-- The last pass changed nothing. -/
  | converged
  deriving DecidableEq

structure Solver where
  liveIn : SideTable .inst ValueSet
  liveOut : SideTable .inst ValueSet
  phase : Phase
  /-- The number of passes made. -/
  passes : Nat
  deriving DecidableEq

namespace Solver

def initial : Solver := ⟨.empty, .empty, .uninitialized, 0⟩

variable (f : Function)

/-- A set without the result of `i`. -/
def withoutResult (i : InstId) (s : ValueSet) : ValueSet :=
  match f.result? i with
  | some v => s.erase v
  | none => s

/-- What `succ` contributes to the instruction before it, when control comes over the edge from
`edge`, or from the instruction in front when there is no edge. -/
def contribution (s : Solver) (succ : InstId) (edge : Option BlockId) : ValueSet :=
  if f.isPhi succ then
    let after := withoutResult f succ (s.liveOut.get succ)
    match edge.bind (f.edgeUsesFrom? succ) with
    | some used => after ∪ used
    | none => after
  else s.liveIn.get succ

/-- What is live after `i`, by the contributions of its successors. -/
def outOf (s : Solver) (i : InstId) : ValueSet :=
  if f.isTerminator i then
    ((f.successors i).filterMap f.first?).foldl
      (fun out first => out ∪ s.contribution f first (f.parent? i)) ∅
  else
    match f.next? i with
    | some next => s.contribution f next none
    | none => ∅

/-- What is live before `i`, given what is live after it. -/
def inOf (i : InstId) (out : ValueSet) : ValueSet :=
  if f.isPhi i then withoutResult f i out
  else (withoutResult f i out).insertAll (f.valueOperands i)

/-- Bring the sets of one instruction up to date. -/
def transfer (s : Solver) (i : InstId) : Solver :=
  let out := s.outOf f i
  { s with liveIn := s.liveIn.set i (inOf f i out), liveOut := s.liveOut.set i out }

/-- One transfer for each instruction, in layout order. -/
def pass (s : Solver) : Solver := f.attached.foldl (transfer f) s

/-- Whether the sets of some instruction differ. -/
def differs (s t : Solver) : Bool :=
  f.attached.any fun i => s.liveIn.get i ≠ t.liveIn.get i || s.liveOut.get i ≠ t.liveOut.get i

/-- Make one pass; once converged, do nothing. -/
def step (s : Solver) : Solver :=
  if s.phase = .converged then s
  else
    let t := s.pass f
    { t with
      phase := if t.differs f s then .iterating else .converged
      passes := s.passes + 1 }

/-- Make passes until one changes nothing, at most `bound` of them. -/
def iterate (s : Solver) : Nat → Solver
  | 0 => s
  | bound + 1 =>
    let t := s.step f
    if t.phase = .converged then t else t.iterate bound

/-- The solver after each of the next `limit` steps, ending with the first step that is made when it
has converged already. -/
def trace (s : Solver) : Nat → List Solver
  | 0 => []
  | limit + 1 =>
    let t := s.step f
    t :: if s.phase = .converged then [] else t.trace limit

end Solver

/-- The converged sets of a function. -/
structure Liveness where
  liveIn : InstId → ValueSet
  liveOut : InstId → ValueSet
  /-- The number of passes made, with the last one that changed nothing. -/
  passes : Nat

def Solver.liveness (s : Solver) : Liveness := ⟨s.liveIn.get, s.liveOut.get, s.passes⟩

namespace Function

variable (f : Function)

/-- A number of passes after which every solver has converged: each pass but the last adds a value
to one of the two sets of an instruction, and every value added is an operand. -/
def passBound : Nat :=
  2 * f.numInsts * (f.attached.flatMap f.valueOperands).length + 1

/-- Bring a solver to convergence. -/
def finish (s : Solver) : Solver := s.iterate f f.passBound

def liveness : Liveness := (f.finish .initial).liveness

/-- What the passes read beside the instructions: the targets of every terminator. -/
def passLookups : List Lookup :=
  ((f.attached.filter f.isTerminator).flatMap f.successors).map .block

/-- The liveness of a function, if the targets of its terminators exist. -/
def computeLiveness : Except Fault Liveness := do
  f.require f.passLookups
  return f.liveness

end Function

/-- Whether the result of `i` is needed after it. An instruction without a result never is. -/
def Liveness.resultIsLive (l : Liveness) (f : Function) (i : InstId) : Bool :=
  (f.result? i).any (· ∈ l.liveOut i)

end SsaPrune
