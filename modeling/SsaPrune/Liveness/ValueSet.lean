import SsaPrune.Text.Printer

/-!
# Sets of values

A set of values is kept as the ascending list of its members, so two sets with the same members are
equal (`ValueSet.ext`) and are written the same way. There is one lemma on membership for each
operation.
-/

namespace SsaPrune

/-- A list of values in strictly ascending order. -/
def Ascending (vs : List ValueId) : Prop := vs.Pairwise (·.index < ·.index)

/-- A finite set of values. -/
structure ValueSet where
  toList : List ValueId
  ascending : Ascending toList
  deriving DecidableEq

namespace ValueSet

instance : Membership ValueId ValueSet := ⟨fun s v => v ∈ s.toList⟩

instance (v : ValueId) (s : ValueSet) : Decidable (v ∈ s) :=
  inferInstanceAs (Decidable (v ∈ s.toList))

theorem mem_def {v : ValueId} {s : ValueSet} : v ∈ s ↔ v ∈ s.toList := Iff.rfl

/-! ## Equality -/

theorem eq_of_ascending {xs ys : List ValueId} (hx : Ascending xs) (hy : Ascending ys)
    (h : ∀ v, v ∈ xs ↔ v ∈ ys) : xs = ys := by
  induction xs generalizing ys with
  | nil =>
    cases ys with
    | nil => rfl
    | cons y ys => exact absurd ((h y).mpr (by simp)) (by simp)
  | cons x xs ih =>
    cases ys with
    | nil => exact absurd ((h x).mp (by simp)) (by simp)
    | cons y ys =>
      obtain ⟨hxs, hx'⟩ := List.pairwise_cons.mp hx
      obtain ⟨hys, hy'⟩ := List.pairwise_cons.mp hy
      have hxy : x = y := by
        rcases List.mem_cons.mp ((h x).mp (by simp)) with hxy | hxy
        · exact hxy
        · rcases List.mem_cons.mp ((h y).mpr (by simp)) with hyx | hyx
          · exact hyx.symm
          · have := hys x hxy
            have := hxs y hyx
            omega
      subst hxy
      congr 1
      refine ih hx' hy' fun v => ?_
      constructor
      · intro hv
        rcases List.mem_cons.mp ((h v).mp (by simp [hv])) with rfl | hv'
        · exact absurd (hxs v hv) (Nat.lt_irrefl _)
        · exact hv'
      · intro hv
        rcases List.mem_cons.mp ((h v).mpr (by simp [hv])) with rfl | hv'
        · exact absurd (hys v hv) (Nat.lt_irrefl _)
        · exact hv'

@[ext] theorem ext {s t : ValueSet} (h : ∀ v, v ∈ s ↔ v ∈ t) : s = t := by
  obtain ⟨xs, hx⟩ := s
  obtain ⟨ys, hy⟩ := t
  obtain rfl := eq_of_ascending hx hy h
  rfl

/-! ## Operations -/

def empty : ValueSet := ⟨[], List.Pairwise.nil⟩

instance : EmptyCollection ValueSet := ⟨empty⟩

instance : Inhabited ValueSet := ⟨∅⟩

@[simp] theorem not_mem_empty (v : ValueId) : v ∉ (∅ : ValueSet) := List.not_mem_nil

/-- An ascending list with `v` put in its place. -/
def insertSorted (v : ValueId) : List ValueId → List ValueId
  | [] => [v]
  | w :: rest =>
    if v.index < w.index then v :: w :: rest
    else if v = w then w :: rest
    else w :: insertSorted v rest

theorem mem_insertSorted {v w : ValueId} {vs : List ValueId} :
    w ∈ insertSorted v vs ↔ w = v ∨ w ∈ vs := by
  induction vs with
  | nil => simp [insertSorted]
  | cons x rest ih =>
    unfold insertSorted
    split
    · simp
    · split
      · subst v
        simp
      · simp [ih, or_left_comm]

theorem ascending_insertSorted (v : ValueId) {vs : List ValueId} (h : Ascending vs) :
    Ascending (insertSorted v vs) := by
  induction vs with
  | nil => exact List.pairwise_singleton _ v
  | cons w rest ih =>
    obtain ⟨hw, hrest⟩ := List.pairwise_cons.mp h
    unfold insertSorted
    split
    · rename_i hvw
      refine List.pairwise_cons.mpr ⟨fun x hx => ?_, h⟩
      rcases List.mem_cons.mp hx with rfl | hx
      · exact hvw
      · exact Nat.lt_trans hvw (hw x hx)
    · rename_i hvw
      split
      · exact h
      · rename_i hne
        refine List.pairwise_cons.mpr ⟨fun x hx => ?_, ih hrest⟩
        rcases mem_insertSorted.mp hx with rfl | hx
        · have : x.index ≠ w.index := fun e => hne (by cases x; cases w; simp_all)
          omega
        · exact hw x hx

def insert (s : ValueSet) (v : ValueId) : ValueSet :=
  ⟨insertSorted v s.toList, ascending_insertSorted v s.ascending⟩

def erase (s : ValueSet) (v : ValueId) : ValueSet :=
  ⟨s.toList.filter (· ≠ v), s.ascending.filter _⟩

def insertAll (s : ValueSet) (vs : List ValueId) : ValueSet := vs.foldl insert s

def ofList (vs : List ValueId) : ValueSet := insertAll ∅ vs

def union (s t : ValueSet) : ValueSet := s.insertAll t.toList

instance : Union ValueSet := ⟨union⟩

instance : SDiff ValueSet := ⟨fun s t => ⟨s.toList.filter (· ∉ t), s.ascending.filter _⟩⟩

instance : HasSubset ValueSet := ⟨fun s t => ∀ v, v ∈ s → v ∈ t⟩

instance (s t : ValueSet) : Decidable (s ⊆ t) :=
  inferInstanceAs (Decidable (∀ v, v ∈ s.toList → v ∈ t))

def size (s : ValueSet) : Nat := s.toList.length

@[simp] theorem mem_insert {s : ValueSet} {v w : ValueId} : w ∈ s.insert v ↔ w = v ∨ w ∈ s :=
  mem_insertSorted

@[simp] theorem mem_erase {s : ValueSet} {v w : ValueId} : w ∈ s.erase v ↔ w ∈ s ∧ w ≠ v := by
  simp [erase, mem_def]

@[simp] theorem mem_insertAll {s : ValueSet} {vs : List ValueId} {w : ValueId} :
    w ∈ s.insertAll vs ↔ w ∈ s ∨ w ∈ vs := by
  induction vs generalizing s with
  | nil => simp [insertAll]
  | cons v rest ih =>
    have h := @ih (s.insert v)
    simp only [insertAll, List.foldl_cons, mem_insert, List.mem_cons] at h ⊢
    rw [h]
    constructor
    · rintro ((h | h) | h) <;> simp [h]
    · rintro (h | h | h) <;> simp [h]

@[simp] theorem mem_ofList {vs : List ValueId} {w : ValueId} : w ∈ ofList vs ↔ w ∈ vs := by
  simp [ofList]

@[simp] theorem mem_union {s t : ValueSet} {w : ValueId} : w ∈ s ∪ t ↔ w ∈ s ∨ w ∈ t :=
  mem_insertAll

@[simp] theorem mem_sdiff {s t : ValueSet} {w : ValueId} : w ∈ s \ t ↔ w ∈ s ∧ w ∉ t := by
  change w ∈ s.toList.filter (· ∉ t) ↔ _
  simp [mem_def]

/-! ## Text -/

/-- The members by their labels, in braces. -/
def text (s : ValueSet) (f : Function) : String :=
  "\x7b" ++ ", ".intercalate (s.toList.map f.valueLabel) ++ "\x7d"

def lookups (s : ValueSet) : List Lookup := s.toList.map .value

def print (s : ValueSet) (f : Function) : Except Fault String := do
  f.require s.lookups
  return s.text f

end ValueSet

end SsaPrune
