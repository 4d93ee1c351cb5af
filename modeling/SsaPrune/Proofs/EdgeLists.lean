import Mathlib.Data.List.Induction
import SsaPrune.ControlFlow
import SsaPrune.Proofs.Function.Built

/-!
# The lists of edges

The blocks that follow a block, and those that it follows, are told for each block by itself. One can
also find them for all blocks together: go through the edges once, and write each into the list of its
source and into that of its target, unless it stands there (`Adjacency.addEdge`).

What one edge changes is said first, then what the edges out of a block change, and then those of all
blocks. In the end both tables hold the lists that are told for each block by itself
(`PlacesAgree.succs_adjacency`, `PlacesAgree.preds_adjacency`).
-/

namespace SsaPrune

/-! ## Lists without repetition -/

section

variable {α : Type} [DecidableEq α] {l : List α} {a : α}

/-- Put an element at the end of a list, unless the list has it. -/
def pushNew (l : List α) (a : α) : List α := if a ∈ l then l else l ++ [a]

theorem pushNew_of_mem (h : a ∈ l) : pushNew l a = l := if_pos h

theorem pushNew_of_notMem (h : a ∉ l) : pushNew l a = l ++ [a] := if_neg h

theorem mem_pushNew_self (l : List α) (a : α) : a ∈ pushNew l a := by
  by_cases h : a ∈ l
  · rwa [pushNew_of_mem h]
  · simp [pushNew_of_notMem h]

/-- Putting in one element after the other keeps the first of each. -/
theorem foldl_pushNew (l : List α) : l.foldl pushNew [] = l.eraseDups := by
  induction l using List.reverseRecOn with
  | nil => rfl
  | append_singleton l a ih =>
    have hsingle : [a].eraseDups = [a] := rfl
    rw [List.foldl_append, ih, List.eraseDups_append, List.foldl_cons, List.foldl_nil]
    by_cases h : a ∈ l
    · rw [pushNew_of_mem (List.mem_eraseDups.mpr h)]
      simp [List.removeAll, h]
    · rw [pushNew_of_notMem fun hmem => h (List.mem_eraseDups.mp hmem)]
      simp [List.removeAll, h, hsingle]

end

/-! ## Both ends of the edges -/

/-- For each block the blocks that follow it, and those that it follows. -/
structure Adjacency where
  succs : SideTable .block (List BlockId) := .empty
  preds : SideTable .block (List BlockId) := .empty

namespace Adjacency

variable (g : Adjacency) (b d : BlockId)

/-- An edge is written into the lists of both its ends, unless it stands there. -/
def addEdge (b c : BlockId) : Adjacency where
  succs := g.succs.modify b (pushNew · c)
  preds := g.preds.modify c (pushNew · b)

/-- The edges from `b` to some targets, in turn. -/
def addEdges (b : BlockId) (targets : List BlockId) : Adjacency :=
  targets.foldl (fun g c => g.addEdge b c) g

theorem get_succs_addEdge (c : BlockId) : (g.addEdge b c).succs.get d =
    if b = d then pushNew (g.succs.get d) c else g.succs.get d :=
  SideTable.get_modify ..

theorem get_preds_addEdge (c : BlockId) : (g.addEdge b c).preds.get d =
    if c = d then pushNew (g.preds.get d) b else g.preds.get d :=
  SideTable.get_modify ..

theorem get_succs_addEdges (targets : List BlockId) : (g.addEdges b targets).succs.get d =
    if b = d then targets.foldl pushNew (g.succs.get d) else g.succs.get d := by
  unfold addEdges
  induction targets generalizing g with
  | nil => simp
  | cons c targets ih =>
    rw [List.foldl_cons, ih, get_succs_addEdge]
    by_cases hbd : b = d <;> simp [hbd]

/-- A block becomes one of those that a target follows, once. -/
theorem get_preds_addEdges (targets : List BlockId) : (g.addEdges b targets).preds.get d =
    if d ∈ targets then pushNew (g.preds.get d) b else g.preds.get d := by
  unfold addEdges
  induction targets generalizing g with
  | nil => simp
  | cons c targets ih =>
    rw [List.foldl_cons, ih, get_preds_addEdge]
    by_cases hcd : c = d
    · subst hcd
      simp [pushNew_of_mem (mem_pushNew_self (g.preds.get c) b)]
    · simp [hcd, Ne.symm hcd]

end Adjacency

namespace Function

variable {f : Function} {b c d : BlockId}

/-- The edges out of the blocks of the layout, in order. -/
def adjacency (f : Function) : Adjacency :=
  f.layout.foldl (fun g b => g.addEdges b (f.targets b)) {}

/-- Each block of a list makes its own list of followers. -/
theorem get_succs_foldl_addEdges {bs : List BlockId} (hn : bs.Nodup) (g : Adjacency) :
    (bs.foldl (fun g b => g.addEdges b (f.targets b)) g).succs.get d =
      if d ∈ bs then (f.targets d).foldl pushNew (g.succs.get d) else g.succs.get d := by
  induction bs generalizing g with
  | nil => simp
  | cons b bs ih =>
    obtain ⟨hb, hn⟩ := List.nodup_cons.mp hn
    rw [List.foldl_cons, ih hn, Adjacency.get_succs_addEdges]
    by_cases hbd : b = d
    · subst hbd
      simp [hb]
    · simp [hbd, Ne.symm hbd]

/-- Those that a block follows are added in the order of the list. -/
theorem get_preds_foldl_addEdges {bs : List BlockId} (hn : bs.Nodup) (g : Adjacency)
    (hnew : ∀ b ∈ bs, b ∉ g.preds.get d) :
    (bs.foldl (fun g b => g.addEdges b (f.targets b)) g).preds.get d =
      g.preds.get d ++ bs.filter fun b => d ∈ f.targets b := by
  induction bs generalizing g with
  | nil => simp
  | cons b bs ih =>
    obtain ⟨hb, hn⟩ := List.nodup_cons.mp hn
    obtain ⟨hbnew, hrest⟩ := List.forall_mem_cons.mp hnew
    have hget := g.get_preds_addEdges b d (f.targets b)
    rw [pushNew_of_notMem hbnew] at hget
    have hlater : ∀ c ∈ bs, c ∉ (g.addEdges b (f.targets b)).preds.get d := by
      intro c hc
      have hcb : c ≠ b := fun he => hb (he ▸ hc)
      rw [hget]
      split <;> simp [hrest c hc, hcb]
    rw [List.foldl_cons, ih hn _ hlater, hget]
    by_cases hd : d ∈ f.targets b <;> simp [hd]

/-! ## Edges -/

/-- Control may go from the end of `b` to `c`: the last instruction of `b` is a terminator with that
target. -/
def Edge (f : Function) (b c : BlockId) : Prop :=
  ∃ i, f.last? b = some i ∧ f.isTerminator i = true ∧ c ∈ f.successors i

theorem mem_targets_iff : c ∈ f.targets b ↔ f.Edge b c := by
  unfold targets Edge
  cases f.last? b with
  | none => simp
  | some i => cases hi : f.isTerminator i <;> simp [hi]

theorem mem_succs_iff : c ∈ f.succs b ↔ f.Edge b c := by
  rw [succs, List.mem_eraseDups, mem_targets_iff]

namespace PlacesAgree

/-- An edge leaves a block of the layout. -/
theorem mem_layout_of_edge (hp : f.PlacesAgree) (h : f.Edge b c) : b ∈ f.layout := by
  obtain ⟨i, hi, -, -⟩ := h
  exact hp.mem_layout_iff.mpr (has_block_of_mem_instsOf (List.mem_of_getLast? hi))

/-- **The blocks that follow a block are those that the loop finds.** -/
theorem succs_adjacency (hp : f.PlacesAgree) (b : BlockId) : f.adjacency.succs.get b = f.succs b := by
  have hnone : b ∉ f.layout → f.targets b = [] := fun hb =>
    List.eq_nil_iff_forall_not_mem.mpr fun c hc => hb (hp.mem_layout_of_edge (mem_targets_iff.mp hc))
  rw [adjacency, get_succs_foldl_addEdges hp.nodup_layout, succs, ← foldl_pushNew]
  split
  · rfl
  · rw [hnone ‹_›]
    rfl

/-- **The blocks that a block follows are those that the loop finds.** -/
theorem preds_adjacency (hp : f.PlacesAgree) (b : BlockId) : f.adjacency.preds.get b = f.preds b := by
  have hempty : (SideTable.empty : SideTable .block (List BlockId)).get b = [] := SideTable.get_empty b
  have hnew : ∀ c ∈ f.layout, c ∉ ({} : Adjacency).preds.get b := by simp [hempty]
  rw [adjacency, get_preds_foldl_addEdges hp.nodup_layout _ hnew, preds, hempty, List.nil_append]

end PlacesAgree

theorem mem_preds_iff (hp : f.PlacesAgree) : c ∈ f.preds b ↔ f.Edge c b := by
  rw [preds, List.mem_filter, decide_eq_true_iff, mem_targets_iff]
  exact and_iff_right_of_imp hp.mem_layout_of_edge

end Function

end SsaPrune
