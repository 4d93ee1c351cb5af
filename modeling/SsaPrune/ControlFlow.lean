import SsaPrune.Function

/-!
# The control-flow graph

The edges of a function are read from the terminators that end its blocks: `succs` and `preds` list
the ends of the edges of a block without repetition, in the order of the terminator and of the
layout. A terminator elsewhere in a block makes no edge.

`preorder` is a depth-first walk with an explicit stack. It ends because each visit uses up one
block of a finite stock.
-/

namespace SsaPrune

/-- The blocks met by a depth-first walk from those of `stack`, in the order of the first visit.
Only blocks of `unseen` are visited, each once. -/
def preorder (next : BlockId → List BlockId) (unseen stack : List BlockId) : List BlockId :=
  match stack with
  | [] => []
  | b :: rest =>
    if b ∈ unseen then
      b :: preorder next (unseen.erase b) (next b ++ rest)
    else
      preorder next unseen rest
termination_by (unseen.length, stack.length)
decreasing_by
  · apply Prod.Lex.left
    have := List.length_erase_of_mem ‹b ∈ unseen›
    have := List.length_pos_of_mem ‹b ∈ unseen›
    omega
  · exact Prod.Lex.right _ (Nat.lt_succ_self _)

namespace Function

variable (f : Function)

/-- The blocks that follow `b`. -/
def succs (b : BlockId) : List BlockId := (f.targets b).eraseDups

/-- The blocks that `b` follows. -/
def preds (b : BlockId) : List BlockId := f.layout.filter fun p => b ∈ f.targets p

/-- Every block of the layout and every end of an edge, once. -/
def stock : List BlockId := (f.layout ++ f.layout.flatMap f.succs).eraseDups

/-- The blocks that can be reached from the entry, in depth-first preorder. -/
def reachable : List BlockId := preorder f.succs f.stock f.entry?.toList

end Function

end SsaPrune
