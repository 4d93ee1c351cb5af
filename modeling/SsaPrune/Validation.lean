import SsaPrune.ControlFlow
import SsaPrune.Text.Printer

/-!
# Violations of the structure

The analyses take for granted that a function is well formed; here is what that means, as the list
of everything that violates it. Within a block the findings follow the instructions: first the place
of the instruction, then its shape, then its operands. A missing terminator comes last, and only for
a block that can be reached.

A violation names entities. Its text names them as the function writes them.
-/

namespace SsaPrune

/-- What is wrong with the shape of an instruction, against what its opcode takes. -/
inductive Flaw
  | operandCount (found : Nat)
  | successorCount (found : Nat)
  /-- A phi has another number of incoming blocks than of operands. -/
  | unpairedIncoming (blocks operands : Nat)
  | missingResult
  | forbiddenResult
  | missingCallee
  deriving DecidableEq

/-- The flaw in words, as said of an instruction with opcode `o`. -/
def Flaw.text (o : Opcode) : Flaw → String
  | operandCount found => s!"has {found} operand(s), {o.name} expects {o.arity.text}"
  | successorCount found => s!"has {found} successor(s), {o.name} expects {o.arity.successors}"
  | unpairedIncoming blocks operands =>
    s!"pairs {blocks} incoming block(s) with {operands} value(s)"
  | missingResult => s!"{o.name} must define a result"
  | forbiddenResult => s!"{o.name} cannot define a result"
  | missingCallee => "has no callee"

/-- A violated precondition of the analyses. -/
inductive Violation
  | emptyFunction
  | missingTerminator (block : BlockId)
  | misplacedTerminator (block : BlockId) (inst : InstId)
  | misplacedPhi (block : BlockId) (inst : InstId)
  /-- A phi names a block that is not a predecessor of its own. -/
  | foreignIncoming (block : BlockId) (inst : InstId) (incoming : BlockId)
  /-- An operand is the result of an instruction that no block holds. -/
  | danglingOperand (inst : InstId) (position : Nat) (value : ValueId)
  | misshapen (inst : InstId) (opcode : Opcode) (flaw : Flaw)
  deriving DecidableEq

namespace Violation

/-- The violation in words, without the name of the function. -/
def description (f : Function) : Violation → String
  | emptyFunction => "function has no blocks"
  | missingTerminator block => s!"block {f.blockLabel block} does not end with a terminator"
  | misplacedTerminator block inst =>
    s!"terminator `{f.instText inst}` is not the last instruction of {f.blockLabel block}"
  | misplacedPhi block inst =>
    s!"phi `{f.instText inst}` follows a non-phi instruction in {f.blockLabel block}"
  | foreignIncoming block inst incoming =>
    s!"phi `{f.instText inst}` names {f.blockLabel incoming}, " ++
      s!"which is not a predecessor of {f.blockLabel block}"
  | danglingOperand inst position value =>
    s!"operand #{position} of `{f.instText inst}` references {f.valueLabel value}, " ++
      "whose definition is no longer attached"
  | misshapen inst opcode flaw => s!"`{f.instText inst}` {flaw.text opcode}"

def text (f : Function) (v : Violation) : String := s!"@{f.name}: {v.description f}"

/-- What the words of a violation read, in order. -/
def lookups (f : Function) : Violation → List Lookup
  | emptyFunction => []
  | missingTerminator block => [.block block]
  | misplacedTerminator block inst => .block block :: f.instLookups inst
  | misplacedPhi block inst => .block block :: f.instLookups inst
  | foreignIncoming block inst incoming =>
    .block block :: (f.instLookups inst ++ [.block incoming])
  | danglingOperand inst _ value => f.instLookups inst ++ [.value value]
  | misshapen inst _ _ => f.instLookups inst

end Violation

/-! ## The shape of an instruction -/

/-- Operands, successors, result and callee against what the opcode takes; `hasResult` says whether
the instruction defines a result. -/
def Instruction.flaws (d : Instruction) (hasResult : Bool) : List Flaw :=
  (if d.opcode.arity.admits d.operands.length then [] else [.operandCount d.operands.length]) ++
  (if d.successors.length = d.opcode.arity.successors then []
    else [.successorCount d.successors.length]) ++
  (if d.opcode.isPhi && d.phiBlocks.length ≠ d.operands.length then
    [.unpairedIncoming d.phiBlocks.length d.operands.length] else []) ++
  (if d.opcode.mustDefine && !hasResult then [.missingResult] else []) ++
  (if !d.opcode.mayDefine && hasResult then [.forbiddenResult] else []) ++
  (if d.opcode.isCall && d.callee.isNone then [.missingCallee] else [])

namespace Function

variable (f : Function)

/-! ## One instruction -/

/-- Whether the value is the result of an instruction that no block holds. -/
def isDangling (v : ValueId) : Bool :=
  match f.definition? v with
  | some (.result i) => !f.isAttached i
  | _ => false

/-- A terminator that does not end its block, a phi after another instruction, and each block that a
phi names without an edge from there. -/
def placeViolations (b : BlockId) (afterOther isLast : Bool) (i : InstId) (d : Instruction) :
    List Violation :=
  (if d.opcode.isTerminator && !isLast then [.misplacedTerminator b i] else []) ++
  if d.opcode.isPhi then
    (if afterOther then [.misplacedPhi b i] else []) ++
      (d.phiBlocks.filter (· ∉ f.preds b)).map (.foreignIncoming b i)
  else []

def shapeViolations (i : InstId) (d : Instruction) : List Violation :=
  (d.flaws (f.result? i).isSome).map (.misshapen i d.opcode)

def operandViolations (i : InstId) (d : Instruction) : List Violation :=
  ((positionedValues d.operands).filter fun (v, _) => f.isDangling v).map fun (v, position) =>
    .danglingOperand i position v

def instViolations (b : BlockId) (afterOther isLast : Bool) (i : InstId) (d : Instruction) :
    List Violation :=
  f.placeViolations b afterOther isLast i d ++ f.shapeViolations i d ++ f.operandViolations i d

/-- What is read in order to judge the operands: each value, and the instruction that defines it. -/
def definitionLookups (i : InstId) (d : Instruction) : List Lookup :=
  (positionedValues d.operands).flatMap fun (v, position) =>
    .value v :: (match f.definition? v with
      | some (.result j) => [.inst j]
      | _ => []) ++
    if f.isDangling v then (Violation.danglingOperand i position v).lookups f else []

/-- What is read in order to judge an instruction and to put the findings into words. -/
def judgeLookups (b : BlockId) (afterOther isLast : Bool) (i : InstId) (d : Instruction) :
    List Lookup :=
  (f.placeViolations b afterOther isLast i d ++ f.shapeViolations i d).flatMap (·.lookups f) ++
    f.definitionLookups i d

/-! ## Blocks and functions -/

/-- What `judge` gives for each instruction of a block, told whether an instruction other than a phi
came before it and whether it is the last; `afterOther` is the former for the first of the list. -/
def overInsts {α : Type} (judge : Bool → Bool → InstId → Instruction → List α)
    (afterOther : Bool) : List InstId → List α
  | [] => []
  | i :: rest =>
    match f.inst? i with
    | some d =>
      judge afterOther rest.isEmpty i d ++
        overInsts judge (afterOther || !d.opcode.isPhi) rest
    | none => overInsts judge afterOther rest

/-- A block that can be reached and does not end with a terminator. -/
def endViolations (b : BlockId) : List Violation :=
  if !(f.last? b).any f.isTerminator ∧ b ∈ f.reachable then [.missingTerminator b] else []

def blockViolations (b : BlockId) : List Violation :=
  f.overInsts (f.instViolations b) false (f.instsOf b) ++ f.endViolations b

/-- Everything that is wrong with the structure of the function. -/
def violations : List Violation :=
  if f.layout.isEmpty then [.emptyFunction] else f.layout.flatMap f.blockViolations

/-- What is read in order to find the violations and to put them into words. -/
def violationLookups : List Lookup :=
  f.layout.flatMap fun b =>
    f.overInsts (f.judgeLookups b) false (f.instsOf b) ++
      (f.endViolations b).flatMap (·.lookups f)

/-- The violations, if every entity that they involve exists. -/
def validate : Except Fault (List Violation) := do
  f.require f.violationLookups
  return f.violations

end Function

/-- The findings on a function, in words: one line for each violation under a heading. -/
def violationsText (f : Function) : List Violation → String
  | [] => "validation passed"
  | vs => s!"{vs.length} validation error(s) found:\n" ++
      String.join (vs.map fun v => s!"  - {v.text f}\n")

end SsaPrune
