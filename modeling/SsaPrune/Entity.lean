/-!
# Entities and the tables they index

A function owns instructions, values and blocks. Each is an *entity*, known by its place in the
arena of its kind; nothing is ever removed from an arena, so an entity keeps its meaning.

* `Arena` holds what was created, and has nothing outside its range.
* `SideTable` holds what was attached to entities afterwards. It answers the default value for
  every entity that was never written, also for one that no arena holds, and a write to any
  entity succeeds.

The tables are described by `Arena.get?` and `SideTable.get`: one lemma for each way to write.
-/

namespace SsaPrune

/-- The kinds of entity that a function owns. -/
inductive Kind
  | inst
  | value
  | block
  deriving DecidableEq

/-- The word that stands, before the index, for an entity of this kind. -/
def Kind.stem : Kind → String
  | .inst => "inst"
  | .value => "v"
  | .block => "block"

/-- An entity: its place in the arena of its kind. -/
structure Entity (k : Kind) where
  index : Nat
  deriving DecidableEq

abbrev InstId := Entity .inst

abbrev ValueId := Entity .value

abbrev BlockId := Entity .block

/-- The text of an entity that has no name of its own: `inst3`, `v2`, `block0`. -/
def Entity.text {k : Kind} (e : Entity k) : String :=
  k.stem ++ toString e.index

instance {k : Kind} : Inhabited (Entity k) := ⟨⟨0⟩⟩

instance {k : Kind} : LawfulBEq (Entity k) := inferInstance

/-- Everything of one kind that was created, in order of creation. -/
structure Arena (k : Kind) (α : Type) where
  items : Array α
  deriving DecidableEq

namespace Arena

variable {k : Kind} {α : Type}

def empty : Arena k α := ⟨#[]⟩

instance : Inhabited (Arena k α) := ⟨empty⟩

def size (a : Arena k α) : Nat := a.items.size

/-- What the arena holds for `e`; nothing when `e` was never created. -/
def get? (a : Arena k α) (e : Entity k) : Option α := a.items[e.index]?

/-- The entity that the next `push` creates. -/
def next (a : Arena k α) : Entity k := ⟨a.size⟩

def push (a : Arena k α) (x : α) : Arena k α := ⟨a.items.push x⟩

/-- Change what is held for `e`; nothing happens when `e` was never created. -/
def modify (a : Arena k α) (e : Entity k) (f : α → α) : Arena k α :=
  ⟨a.items.modify e.index f⟩

/-- Every entity of the arena, in order of creation. -/
def entities (a : Arena k α) : List (Entity k) :=
  (List.range a.size).map Entity.mk

@[simp] theorem get?_empty (e : Entity k) : (empty : Arena k α).get? e = none := rfl

@[simp] theorem size_push (a : Arena k α) (x : α) : (a.push x).size = a.size + 1 := by
  simp [push, size]

@[simp] theorem size_modify (a : Arena k α) (e : Entity k) (f : α → α) :
    (a.modify e f).size = a.size := by
  simp [modify, size]

theorem get?_push (a : Arena k α) (x : α) (e : Entity k) :
    (a.push x).get? e = if e = a.next then some x else a.get? e := by
  cases e
  simp [push, get?, next, size, Array.getElem?_push]

theorem get?_modify (a : Arena k α) (e e' : Entity k) (f : α → α) :
    (a.modify e f).get? e' = if e = e' then (a.get? e').map f else a.get? e' := by
  cases e
  cases e'
  simp [modify, get?, Array.getElem?_modify]

theorem get?_isSome_iff (a : Arena k α) (e : Entity k) :
    (a.get? e).isSome ↔ e.index < a.size := by
  simp [get?, size]

end Arena

/-- Values attached to entities, with a default for those never written. -/
structure SideTable (k : Kind) (α : Type) where
  items : Array α
  deriving DecidableEq

namespace SideTable

variable {k : Kind} {α : Type} [Inhabited α]

def empty : SideTable k α := ⟨#[]⟩

instance : Inhabited (SideTable k α) := ⟨empty⟩

/-- The value attached to `e`, or the default. -/
def get (t : SideTable k α) (e : Entity k) : α := t.items.getD e.index default

/-- Attach `x` to `e`. The entities before `e` that were out of reach keep the default. -/
def set (t : SideTable k α) (e : Entity k) (x : α) : SideTable k α :=
  if e.index < t.items.size then
    ⟨t.items.setIfInBounds e.index x⟩
  else
    ⟨(t.items ++ Array.replicate (e.index - t.items.size) default).push x⟩

def modify (t : SideTable k α) (e : Entity k) (f : α → α) : SideTable k α :=
  t.set e (f (t.get e))

@[simp] theorem get_empty (e : Entity k) : (empty : SideTable k α).get e = default := by
  simp [empty, get]

theorem get_set (t : SideTable k α) (e e' : Entity k) (x : α) :
    (t.set e x).get e' = if e = e' then x else t.get e' := by
  cases e with | mk i =>
  cases e' with | mk j =>
  simp only [set, get, Array.getD_eq_getD_getElem?, Entity.mk.injEq]
  split
  · by_cases h : i = j
    · subst h
      simp_all
    · simp [h]
  · rw [Array.getElem?_push]
    by_cases h : i = j
    · subst h
      simp
      grind
    · simp [h]
      grind

@[simp] theorem get_set_self (t : SideTable k α) (e : Entity k) (x : α) :
    (t.set e x).get e = x := by
  simp [get_set]

theorem get_set_of_ne (t : SideTable k α) {e e' : Entity k} (h : e ≠ e') (x : α) :
    (t.set e x).get e' = t.get e' := by
  simp [get_set, h]

theorem get_modify (t : SideTable k α) (e e' : Entity k) (f : α → α) :
    (t.modify e f).get e' = if e = e' then f (t.get e') else t.get e' := by
  by_cases h : e = e'
  · subst h
    simp [modify]
  · simp [modify, get_set, h]

end SideTable

end SsaPrune
