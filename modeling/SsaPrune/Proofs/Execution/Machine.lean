import SsaPrune.Liveness.EdgeUses

/-!
# Executions

What a function does, under any meaning of its opcodes. An interpretation says what an instruction
computes from the values of its operands and the memory, and what a store or a call does to the
memory; everything else is control. Values live in an environment with arbitrary initial content.

An execution goes from block to block. On entering a block, the phis at its start read their values
all at once; then the other instructions run up to a terminator. What can be observed is where
control stands, the memory, the events of stores and calls so far, and the values that are returned,
but not the environment. Two functions are `Indistinguishable` when no interpretation tells them
apart at any block.
-/

namespace SsaPrune

/-- A meaning of the opcodes: values are of type `V`, memories of type `M`, events of type `E`. -/
structure Interpretation (V M E : Type) where
  /-- The value of an integer that is written in place. -/
  imm : Int64 → V
  /-- The initial content of the environment. -/
  initial : ValueId → V
  memory : M
  /-- The result of an instruction that changes nothing else. -/
  compute : Opcode → Option String → List V → M → V
  /-- What a store or a call leaves behind: the new memory, its result and its event. -/
  effect : Opcode → Option String → List V → M → M × V × E
  /-- Whether a conditional branch goes to its first target. -/
  branch : V → Bool
  /-- The value of a phi that is entered over an edge for which it has no value. -/
  unpaired : InstId → V

/-- The part of a state that can be observed. -/
structure Effects (M E : Type) where
  memory : M
  trace : List E
  deriving DecidableEq

structure State (V M E : Type) where
  env : ValueId → V
  effects : Effects M E

/-- Where an execution stands, with what it has left behind. -/
inductive Status (V S : Type)
  /-- The block is about to be entered from `source`, or from outside. -/
  | entering (source : Option BlockId) (block : BlockId) (s : S)
  | returned (values : List V) (s : S)
  /-- Control came to a point that was declared unreachable. -/
  | trapped (s : S)
  /-- There is no next instruction, or it may not stand there. -/
  | stuck (s : S)
  deriving DecidableEq

def Status.map {V S T : Type} (g : S → T) : Status V S → Status V T
  | entering source block s => .entering source block (g s)
  | returned values s => .returned values (g s)
  | trapped s => .trapped (g s)
  | stuck s => .stuck (g s)

/-- The environment after `r` has been defined as `x`. -/
def define {V : Type} (r : Option ValueId) (x : V) (env : ValueId → V) : ValueId → V :=
  fun v => if r = some v then x else env v

namespace Interpretation

variable {V M E : Type} (I : Interpretation V M E) (f : Function)

def eval (env : ValueId → V) : Operand → V
  | .value v => env v
  | .imm n => I.imm n

/-! ## Entering a block -/

/-- What a phi reads when its block is entered: the first operand that it pairs with the source. -/
def phiValue (source : Option BlockId) (env : ValueId → V) (phi : InstId) : V :=
  match source.bind fun b => (f.incoming phi).find? (·.1 = b) with
  | some (_, x) => I.eval env x
  | none => I.unpaired phi

/-- The environment after some phis have read their values from `env`, all at once. -/
def enter (source : Option BlockId) (env : ValueId → V) : List InstId → ValueId → V
  | [] => env
  | phi :: rest => define (f.result? phi) (I.phiValue f source env phi) (enter source env rest)

/-! ## Instructions -/

/-- An instruction that is neither a terminator nor a phi. -/
def execute (r : Option ValueId) (d : Instruction) (s : State V M E) : State V M E :=
  let xs := d.operands.map (I.eval s.env)
  if d.opcode.hasSideEffects then
    let (memory, x, event) := I.effect d.opcode d.callee xs s.effects.memory
    ⟨define r x s.env, memory, s.effects.trace ++ [event]⟩
  else
    ⟨define r (I.compute d.opcode d.callee xs s.effects.memory) s.env, s.effects⟩

/-- Where a branch goes. -/
def target? (d : Instruction) (env : ValueId → V) : Option BlockId :=
  match d.opcode with
  | .br => d.successors.head?
  | .condbr => d.operands.head?.bind fun x => d.successors[if I.branch (I.eval env x) then 0 else 1]?
  | _ => none

/-- A branch from `b` that goes to the given block. -/
def goTo (b : BlockId) (target : Option BlockId) (s : State V M E) : Status V (State V M E) :=
  match target with
  | some c => .entering (some b) c s
  | none => .stuck s

/-- A terminator at the end of `b`. -/
def leave (b : BlockId) (d : Instruction) (s : State V M E) : Status V (State V M E) :=
  match d.opcode with
  | .ret => .returned (d.operands.map (I.eval s.env)) s
  | .unreachable => .trapped s
  | _ => goTo b (I.target? d s.env) s

/-- The instructions of `b` from some point on. -/
def runInsts (b : BlockId) : List InstId → State V M E → Status V (State V M E)
  | [], s => .stuck s
  | i :: rest, s =>
    match f.inst? i with
    | some d =>
      if d.opcode.isTerminator then I.leave b d s
      else if d.opcode.isPhi then .stuck s
      else runInsts b rest (I.execute (f.result? i) d s)
    | none => .stuck s

/-! ## Executions -/

/-- One block. Nothing happens once control has come to an end. -/
def step : Status V (State V M E) → Status V (State V M E)
  | .entering source b s =>
    I.runInsts f b ((f.instsOf b).dropWhile f.isPhi)
      { s with env := I.enter f source s.env (f.leadingPhis b) }
  | ended => ended

def start : Status V (State V M E) :=
  match f.entry? with
  | some b => .entering none b ⟨I.initial, I.memory, []⟩
  | none => .stuck ⟨I.initial, I.memory, []⟩

/-- Where the execution stands after `n` blocks. -/
def run : Nat → Status V (State V M E)
  | 0 => I.start f
  | n + 1 => I.step f (run n)

end Interpretation

/-- No interpretation tells the functions apart: after every number of blocks, control stands at the
same place, with the same memory, the same events so far and the same returned values. -/
def Indistinguishable (f g : Function) : Prop :=
  ∀ (V M E : Type) (I : Interpretation V M E) (n : Nat),
    (I.run f n).map State.effects = (I.run g n).map State.effects

namespace Indistinguishable

theorem refl (f : Function) : Indistinguishable f f := fun _ _ _ _ _ => rfl

theorem trans {f g h : Function} (hfg : Indistinguishable f g) (hgh : Indistinguishable g h) :
    Indistinguishable f h := fun V M E I n => (hfg V M E I n).trans (hgh V M E I n)

end Indistinguishable

end SsaPrune
