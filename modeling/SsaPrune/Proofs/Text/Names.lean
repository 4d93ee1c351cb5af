import SsaPrune.Proofs.Text.Construction

/-!
# Functions in which everything is named

A construction adds one entity at a time and gives it a name, so the tables of a scope lead to every
entity that exists (`Scope.Complete`). In a function with such tables every value and every block has a
name of its own, and every instruction is in a block (`Function.Named`).
-/

namespace SsaPrune

/-! ## The entities that requests add -/

namespace Function

variable {f g : Function} {r : Request}

theorem lt_next_or_eq {k : Kind} {α : Type} {a : Arena k α} {e : Entity k}
    (h : e.index < a.size + 1) : e.index < a.size ∨ e = a.next := by
  rcases Nat.lt_succ_iff_lt_or_eq.mp h with h | h
  · exact .inl h
  · exact .inr (by cases e; simp_all [Arena.next])

/-- What exists after a request existed before, or is what the request adds. -/
theorem has_request (hg : r.run f = .ok () g) {l : Lookup} (h : g.Has l) :
    f.Has l ∨ r.adds f = some l := by
  obtain ⟨hi, hv, hb⟩ := sizes_request hg
  cases l with
  | inst i =>
    rw [has_inst, hi] at h
    split at h
    · rename_i hadds
      exact (lt_next_or_eq h).imp f.has_inst.mpr fun he => by rwa [he]
    · exact .inl (f.has_inst.mpr h)
  | value v =>
    rw [has_value, hv] at h
    split at h
    · rename_i hadds
      exact (lt_next_or_eq h).imp f.has_value.mpr fun he => by rwa [he]
    · exact .inl (f.has_value.mpr h)
  | block b =>
    rw [has_block, hb] at h
    split at h
    · rename_i hadds
      exact (lt_next_or_eq h).imp f.has_block.mpr fun he => by rwa [he]
    · exact .inl (f.has_block.mpr h)

/-! ## Functions in which everything is named -/

/-- Every value and every block has a name of its own, and every instruction is in a block. -/
structure Named (f : Function) : Prop where
  value : ∀ v, f.Has (.value v) → ∃ n, f.valueName? v = some n
  value_inj : ∀ v w n, f.valueName? v = some n → f.valueName? w = some n → v = w
  label_inj : ∀ b c l, f.blockLabel? b = some l → f.blockLabel? c = some l → b = c
  placed : ∀ i, f.Has (.inst i) → i ∈ f.attached

/-- The table leads from the name of each value to the value. -/
def ValuesIn (f : Function) (table : List (String × ValueId)) : Prop :=
  ∀ v, f.Has (.value v) → ∃ n, f.valueName? v = some n ∧ table.lookup n = some v

/-- The table leads from the label of each block to the block. -/
def BlocksIn (f : Function) (table : List (String × BlockId)) : Prop :=
  ∀ b, f.Has (.block b) → ∃ l, f.blockLabel? b = some l ∧ table.lookup l = some b

theorem ValuesIn.request {table : List (String × ValueId)} (h : f.ValuesIn table)
    (hg : r.run f = .ok () g) (hr : ∀ v, r.adds f ≠ some (.value v)) : g.ValuesIn table := by
  intro v hv
  obtain ⟨n, hn, hlook⟩ := h v ((has_request hg hv).resolve_right (hr v))
  exact ⟨n, (namesKept_request hg).value v n hn, hlook⟩

theorem BlocksIn.request {table : List (String × BlockId)} (h : f.BlocksIn table)
    (hg : r.run f = .ok () g) (hr : ∀ b, r.adds f ≠ some (.block b)) : g.BlocksIn table := by
  intro b hb
  obtain ⟨l, hl, hlook⟩ := h b ((has_request hg hb).resolve_right (hr b))
  exact ⟨l, (namesKept_request hg).label b l hl, hlook⟩

/-- A new name hides none of those that a table has. -/
theorem lookup_cons_of_ne_none {k : Kind} {table : List (String × Entity k)} {m n : String}
    {e : Entity k} (x : Entity k) (hnew : table.lookup m = none) (h : table.lookup n = some e) :
    ((m, x) :: table).lookup n = some e := by
  have hne : n ≠ m := fun he => by
    rw [he, hnew] at h
    cases h
  rw [List.lookup_cons, beq_false_of_ne hne]
  exact h

theorem ValuesIn.declare {table : List (String × ValueId)} (h : f.ValuesIn table)
    (hg : r.run f = .ok () g) {v : ValueId} (hr : r.adds f = some (.value v)) {n : String}
    (hname : g.valueName? v = some n) (hnew : table.lookup n = none) :
    g.ValuesIn ((n, v) :: table) := by
  intro w hw
  rcases has_request hg hw with hw | hadds
  · obtain ⟨m, hm, hlook⟩ := h w hw
    exact ⟨m, (namesKept_request hg).value w m hm, lookup_cons_of_ne_none v hnew hlook⟩
  · obtain rfl : v = w := Lookup.value.inj (Option.some.inj (hr.symm.trans hadds))
    exact ⟨n, hname, List.lookup_cons_self⟩

theorem BlocksIn.declare {table : List (String × BlockId)} (h : f.BlocksIn table)
    (hg : r.run f = .ok () g) {b : BlockId} (hr : r.adds f = some (.block b)) {l : String}
    (hname : g.blockLabel? b = some l) (hnew : table.lookup l = none) :
    g.BlocksIn ((l, b) :: table) := by
  intro c hc
  rcases has_request hg hc with hc | hadds
  · obtain ⟨m, hm, hlook⟩ := h c hc
    exact ⟨m, (namesKept_request hg).label c m hm, lookup_cons_of_ne_none b hnew hlook⟩
  · obtain rfl : b = c := Lookup.block.inj (Option.some.inj (hr.symm.trans hadds))
    exact ⟨l, hname, List.lookup_cons_self⟩

end Function

namespace Scope

/-- Every entity stands in a table under its name, and every instruction in a block. -/
structure Complete (s : Scope) : Prop where
  values : s.function.ValuesIn s.values
  blocks : s.function.BlocksIn s.blocks
  placed : ∀ i, s.function.Has (.inst i) → s.function.isAttached i = true

variable {s : Scope}

theorem complete_empty (name : String) : (Scope.mk (.empty name) [] []).Complete := by
  refine ⟨fun v h => ?_, fun b h => ?_, fun i h => ?_⟩
  · exact absurd ((Function.has_value _).mp h) (Nat.not_lt_zero _)
  · exact absurd ((Function.has_block _).mp h) (Nat.not_lt_zero _)
  · exact absurd ((Function.has_inst _).mp h) (Nat.not_lt_zero _)

theorem Complete.named (h : s.Complete) (hs : s.Sound) : s.function.Named where
  value v hv := (h.values v hv).imp fun _ hn => hn.1
  value_inj v w n hv hw := by
    obtain ⟨m, hm, hlook⟩ := h.values v (Function.has_value_of_name hv)
    obtain ⟨m', hm', hlook'⟩ := h.values w (Function.has_value_of_name hw)
    obtain rfl := Option.some.inj (hm.symm.trans hv)
    obtain rfl := Option.some.inj (hm'.symm.trans hw)
    exact Option.some.inj (hlook.symm.trans hlook')
  label_inj b c l hb hc := by
    obtain ⟨m, hm, hlook⟩ := h.blocks b (Function.has_block_of_label hb)
    obtain ⟨m', hm', hlook'⟩ := h.blocks c (Function.has_block_of_label hc)
    obtain rfl := Option.some.inj (hm.symm.trans hb)
    obtain rfl := Option.some.inj (hm'.symm.trans hc)
    exact Option.some.inj (hlook.symm.trans hlook')
  placed i hi := by
    have hp := hs.composed.built.coherent.places
    exact hp.mem_attached_iff.mpr (Option.isSome_iff_exists.mp (h.placed i hi))

end Scope

end SsaPrune
