import SsaPrune.Function.Edit
import SsaPrune.Liveness.Solver

/-!
# Elimination of dead instructions

An instruction may be removed when it is neither a terminator nor a phi and has no side effects. It
is removed when its result is not needed, which each strategy judges in its own way. Taking out one
instruction may leave the operands of others without a user, so rounds are made until one removes
nothing.
-/

namespace SsaPrune

/-- How a round finds what to remove. -/
inductive Strategy
  /-- By liveness: the result is not live after the instruction. -/
  | liveness
  /-- By the lists of uses: the result has no user left. -/
  | useChain
  deriving DecidableEq

structure EliminationConfig where
  strategy : Strategy := .liveness
  /-- The number of rounds after which to give up, if there is one. -/
  maxRounds : Option Nat := none
  deriving DecidableEq

structure EliminationResult where
  removed : Nat
  /-- The number of rounds made, with the last one that removed nothing. -/
  rounds : Nat
  reachedFixpoint : Bool
  deriving DecidableEq

namespace Function

variable (f : Function)

def isRemovable (i : InstId) : Bool :=
  !f.isTerminator i && !f.isPhi i && !f.hasSideEffects i

/-- The instruction is dead by liveness; without a result it is dead too. -/
def isTriviallyDead (l : Liveness) (i : InstId) : Bool :=
  f.isRemovable i && !l.resultIsLive f i

/-- The instruction is dead by the lists of uses. -/
def isUnused (i : InstId) : Bool :=
  f.isRemovable i && (f.result? i).all fun v => !f.hasUses v

/-- The instructions that are dead by the given liveness, in layout order. -/
def deadInsts (l : Liveness) : List InstId := f.attached.filter (f.isTriviallyDead l)

end Function

namespace Edit

/-- Take out each instruction of a list. -/
def detachAll (is : List InstId) : Edit Unit := is.forM detach

/-- Take out each instruction of a list that is unused when its turn comes, and count them. -/
def detachUnused : List InstId → Edit Nat
  | [] => return 0
  | i :: rest => do
    if (← get).isUnused i then
      detach i
      return (← detachUnused rest) + 1
    else
      detachUnused rest

/-- One round. By liveness, everything dead is found first and then taken out; by the lists of uses,
each instruction is judged in its turn, from the last to the first, so that a chain of dead
instructions within a block goes at once. -/
def sweep : Strategy → Edit Nat
  | .liveness => do
    let l ← ofReading (·.computeLiveness)
    let dead := (← get).deadInsts l
    detachAll dead
    return dead.length
  | .useChain => do
    detachUnused (← get).attached.reverse

/-- One round by liveness; says whether it removed anything. -/
def removeDead : Edit Bool := return (← sweep .liveness) > 0

/-- Make rounds until one removes nothing, at most `budget` of them. -/
def rounds (strategy : Strategy) (removed done : Nat) : Nat → Edit EliminationResult
  | 0 => return ⟨removed, done, false⟩
  | budget + 1 => do
    match ← sweep strategy with
    | 0 => return ⟨removed, done + 1, true⟩
    | n => rounds strategy (removed + n) (done + 1) budget

/-- Eliminate dead instructions. Each round but the last removes one, so without a limit one round
more than there are instructions is enough. -/
def eliminate (config : EliminationConfig) : Edit EliminationResult := do
  let f ← get
  rounds config.strategy 0 0 (config.maxRounds.getD (f.numInsts + 1))

end Edit

end SsaPrune
