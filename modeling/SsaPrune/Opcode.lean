/-!
# Opcodes

What an instruction does, as far as the analyses care: its mnemonic, whether it transfers control,
whether it may be observed beyond its result, and how many operands, successors and results it
takes. Every other module asks here, so that they agree on what an opcode may do.

`ofName?_name` says that reading a mnemonic back gives its opcode.
-/

namespace SsaPrune

/-- The predicate of an integer comparison. -/
inductive Comparison
  | eq
  | ne
  | lt
  | le
  | gt
  | ge
  deriving DecidableEq

namespace Comparison

def all : List Comparison := [eq, ne, lt, le, gt, ge]

def name : Comparison → String
  | eq => "eq"
  | ne => "ne"
  | lt => "lt"
  | le => "le"
  | gt => "gt"
  | ge => "ge"

end Comparison

inductive Opcode
  | add
  | sub
  | mul
  | div
  | rem
  | and
  | or
  | xor
  | shl
  | shr
  | neg
  | not
  | copy
  | cmp (c : Comparison)
  | select
  | alloca
  | load
  | store
  | call
  | phi
  | br
  | condbr
  | ret
  | unreachable
  deriving DecidableEq

/-- How many operands and how many successors an opcode takes. The number of operands has no upper
limit where `most` is absent. -/
structure Arity where
  least : Nat
  most : Option Nat
  successors : Nat
  deriving DecidableEq

namespace Arity

/-- Whether `n` operands are allowed. -/
def admits (a : Arity) (n : Nat) : Bool :=
  a.least ≤ n && a.most.all (n ≤ ·)

/-- The allowed numbers of operands, in words. -/
def text (a : Arity) : String :=
  match a.most with
  | none => s!"at least {a.least}"
  | some most => if a.least = most then toString a.least else s!"{a.least} to {most}"

/-- Exactly `n` operands and no successor. -/
def exactly (n : Nat) : Arity := ⟨n, some n, 0⟩

end Arity

namespace Opcode

/-- Every opcode, each comparison on its own. -/
def all : List Opcode :=
  [add, sub, mul, div, rem, and, or, xor, shl, shr, neg, not, copy] ++
    Comparison.all.map cmp ++
    [select, alloca, load, store, call, phi, br, condbr, ret, unreachable]

/-- The mnemonic. -/
def name : Opcode → String
  | add => "add"
  | sub => "sub"
  | mul => "mul"
  | div => "div"
  | rem => "rem"
  | and => "and"
  | or => "or"
  | xor => "xor"
  | shl => "shl"
  | shr => "shr"
  | neg => "neg"
  | not => "not"
  | copy => "copy"
  | cmp c => "cmp." ++ c.name
  | select => "select"
  | alloca => "alloca"
  | load => "load"
  | store => "store"
  | call => "call"
  | phi => "phi"
  | br => "br"
  | condbr => "condbr"
  | ret => "ret"
  | unreachable => "unreachable"

/-- The opcode with a given mnemonic. -/
def ofName? (s : String) : Option Opcode := all.find? (·.name = s)

/-- Control leaves the block here. -/
def isTerminator : Opcode → Bool
  | br | condbr | ret | unreachable => true
  | _ => false

/-- Executing the instruction may be observed beyond its result; calls count. -/
def hasSideEffects : Opcode → Bool
  | store | call => true
  | _ => false

def isCall (o : Opcode) : Bool := o = call

def isPhi (o : Opcode) : Bool := o = phi

/-- An instruction of this opcode may define a result; for a call it is optional. -/
def mayDefine (o : Opcode) : Bool := o ≠ store && !o.isTerminator

/-- An instruction of this opcode has to define a result. -/
def mustDefine (o : Opcode) : Bool := o.mayDefine && !o.isCall

/-- The comparison that the opcode makes, if it is one. -/
def comparison? : Opcode → Option Comparison
  | cmp c => some c
  | _ => none

def arity : Opcode → Arity
  | add | sub | mul | div | rem | and | or | xor | shl | shr | cmp _ => .exactly 2
  | neg | not | copy | load => .exactly 1
  | select => .exactly 3
  | alloca => ⟨0, some 1, 0⟩
  | store => .exactly 2
  | call => ⟨0, none, 0⟩
  | phi => ⟨1, none, 0⟩
  | br => ⟨0, some 0, 1⟩
  | condbr => ⟨1, some 1, 2⟩
  | ret => ⟨0, some 1, 0⟩
  | unreachable => .exactly 0

theorem mem_all (o : Opcode) : o ∈ all := by
  cases o
  case cmp c => cases c <;> decide
  all_goals decide

theorem ofName?_name (o : Opcode) : ofName? o.name = some o := by
  cases o
  case cmp c => cases c <;> decide
  all_goals decide

theorem name_of_ofName? {s : String} {o : Opcode} (h : ofName? s = some o) : o.name = s := by
  simpa using List.find?_some h

theorem name_inj {o o' : Opcode} : o.name = o'.name ↔ o = o' :=
  ⟨fun h => Option.some.inj ((ofName?_name o).symm.trans (h ▸ ofName?_name o')), fun h => h ▸ rfl⟩

end Opcode

end SsaPrune
