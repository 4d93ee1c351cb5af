import SsaPrune.Entity

/-!
# Faults

The ways in which a request to a function is refused: an edit that breaks the rule of one
instruction in one block, or an entity that was never created. A fault is not a finding about the
program under analysis; it tells the caller that the request made no sense.
-/

namespace SsaPrune

inductive Fault
  /-- The arena has `length` entities and `index` is not one of them. -/
  | outOfBounds (length index : Nat)
  /-- A new instruction claims to belong to a block already. -/
  | createAttached
  | resultDefined (inst : InstId)
  | appendAttached (inst : InstId) (block : BlockId)
  | insertAttached (inst : InstId) (block : BlockId)
  /-- The instruction to insert before belongs to no block. -/
  | anchorDetached
  /-- The instruction to insert before is missing from the block it names. -/
  | anchorMissing
  deriving DecidableEq

def Fault.message : Fault → String
  | outOfBounds length index =>
    s!"index out of bounds: the len is {length} but the index is {index}"
  | createAttached =>
    "create_inst: instruction must not have parent_block set; " ++
      "use append_inst to attach it after creation"
  | resultDefined inst => s!"define_result: {inst.text} already defines a result"
  | appendAttached inst block =>
    s!"append_inst: {inst.text} already belongs to Some({block.text}); detach it first"
  | insertAttached inst block =>
    s!"insert_inst_before: {inst.text} already belongs to Some({block.text}); detach it first"
  | anchorDetached => "insert_inst_before: `before` is not attached to a block"
  | anchorMissing => "insert_inst_before: `before` not found in its block"

end SsaPrune
