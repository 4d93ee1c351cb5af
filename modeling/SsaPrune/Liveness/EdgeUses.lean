import SsaPrune.Liveness.ValueSet

/-!
# Uses along the edges into a block

A phi uses each of its values only on the edge from the incoming block of that value. The phis at
the start of a block are entered together, so what counts for an edge are the values that any of
them pairs with its source.

`Function.edgeUses` gives these sets for a phi and the phis after it: a branch visits the first phi
of its target, whose sets cover the whole group.
-/

namespace SsaPrune

/-- For each source of an edge, in ascending order, the values used along that edge. -/
abbrev EdgeUses := List (BlockId × ValueSet)

namespace EdgeUses

/-- The sets with `v` used along the edge from `b`. Without a value the edge only gets its entry. -/
def add (b : BlockId) (v : Option ValueId) : EdgeUses → EdgeUses
  | [] => [(b, .ofList v.toList)]
  | (c, s) :: rest =>
    if b.index < c.index then (b, .ofList v.toList) :: (c, s) :: rest
    else if b = c then (c, s.insertAll v.toList) :: rest
    else (c, s) :: add b v rest

/-- Add the incoming pairs of a phi. -/
def addIncoming (e : EdgeUses) (pairs : List (BlockId × Operand)) : EdgeUses :=
  pairs.foldl (fun e pair => e.add pair.1 pair.2.value?) e

end EdgeUses

namespace Function

variable (f : Function)

/-- The phis at the start of a block. -/
def leadingPhis (b : BlockId) : List InstId := (f.instsOf b).takeWhile f.isPhi

/-- What the phis of a list use along each edge. -/
def usesOfPhis : List InstId → EdgeUses
  | [] => []
  | phi :: rest => (usesOfPhis rest).addIncoming (f.incoming phi)

/-- What `phi` and the phis after it use along each edge; nothing unless `phi` is one of the phis at
the start of its block. -/
def edgeUses (phi : InstId) : EdgeUses :=
  match f.parent? phi with
  | some b => f.usesOfPhis ((f.leadingPhis b).dropWhile (· ≠ phi))
  | none => []

/-- What `phi` and the phis after it use along the edge from `b`. -/
def edgeUsesFrom? (phi : InstId) (b : BlockId) : Option ValueSet := (f.edgeUses phi).lookup b

end Function

end SsaPrune
