import Mathlib.Data.List.Forall2
import SsaPrune.Text.Parse
import SsaPrune.Proofs.Function.Composed

/-!
# Names in a function under construction

A construction adds to a function and takes nothing away, so names stay (`Function.NamesKept`), and
the tables of a scope lead from a name to an entity with that name (`Scope.Sound`).

The second half says, for each elementary step of a construction, when it succeeds and what it
leaves behind.
-/

namespace SsaPrune

/-! ## Names -/

/-- Every name that `f` gives is given by `g` as well. -/
structure Function.NamesKept (f g : Function) : Prop where
  name : g.name = f.name
  value : ∀ v n, f.valueName? v = some n → g.valueName? v = some n
  label : ∀ b l, f.blockLabel? b = some l → g.blockLabel? b = some l

namespace Function.NamesKept

variable {f g h : Function}

theorem refl (f : Function) : f.NamesKept f := ⟨rfl, fun _ _ h => h, fun _ _ h => h⟩

theorem trans (hfg : f.NamesKept g) (hgh : g.NamesKept h) : f.NamesKept h :=
  ⟨hgh.name.trans hfg.name, fun v n hv => hgh.value v n (hfg.value v n hv),
    fun b l hb => hgh.label b l (hfg.label b l hb)⟩

/-- Names are told by the values and the labels alone. -/
theorem of_eq (hn : g.name = f.name) (hv : g.values = f.values)
    (hb : ∀ b, g.blockLabel? b = f.blockLabel? b) : f.NamesKept g :=
  ⟨hn, fun v n h => by rwa [valueName?, value?, hv], fun b l h => by rwa [hb]⟩

end Function.NamesKept

namespace Function

variable {f : Function}

theorem valueName?_push {info : ValueInfo} {v : ValueId} {n : String}
    (h : f.valueName? v = some n) :
    ({ f with values := f.values.push info } : Function).valueName? v = some n := by
  have hne : v ≠ f.values.next := fun hv => by
    have hnone : f.values.get? f.values.next = none := by
      rw [← Option.not_isSome_iff_eq_none, Arena.get?_isSome_iff]
      exact Nat.lt_irrefl _
    simp [valueName?, value?, hv, hnone] at h
  unfold valueName? value?
  rwa [Arena.get?_push, if_neg hne]

theorem valueName?_next (info : ValueInfo) :
    ({ f with values := f.values.push info } : Function).valueName? f.values.next = info.name := by
  unfold valueName? value?
  rw [Arena.get?_push, if_pos rfl]
  rfl

theorem blockLabel?_push {info : BlockInfo} {b : BlockId} {l : String}
    (h : f.blockLabel? b = some l) :
    ({ f with blocks := f.blocks.push info } : Function).blockLabel? b = some l := by
  have hne : b ≠ f.blocks.next := fun hb => by
    have hnone : f.blocks.get? f.blocks.next = none := by
      rw [← Option.not_isSome_iff_eq_none, Arena.get?_isSome_iff]
      exact Nat.lt_irrefl _
    simp [blockLabel?, block?, hb, hnone] at h
  unfold blockLabel? block?
  rwa [Arena.get?_push, if_neg hne]

theorem blockLabel?_next (info : BlockInfo) :
    ({ f with blocks := f.blocks.push info } : Function).blockLabel? f.blocks.next =
      info.label := by
  unfold blockLabel? block?
  rw [Arena.get?_push, if_pos rfl]
  rfl

theorem has_value_of_name {v : ValueId} {n : String} (h : f.valueName? v = some n) :
    f.Has (.value v) := by
  obtain ⟨info, hinfo, -⟩ := Option.bind_eq_some_iff.mp h
  exact f.has_value.mpr ((Arena.get?_isSome_iff _ _).mp (by rw [← value?, hinfo]; rfl))

theorem has_block_of_label {b : BlockId} {l : String} (h : f.blockLabel? b = some l) :
    f.Has (.block b) := by
  obtain ⟨info, hinfo, -⟩ := Option.bind_eq_some_iff.mp h
  exact f.has_block.mpr ((Arena.get?_isSome_iff _ _).mp (by rw [← block?, hinfo]; rfl))

/-- No request takes a name away. -/
theorem namesKept_request {g : Function} {r : Request} (hg : r.run f = .ok () g) :
    f.NamesKept g := by
  have hl := Request.run_eq_ok_iff.mp hg
  cases r with
  | addParam name =>
    subst hl
    exact ⟨rfl, fun v n => valueName?_push, fun _ _ h => h⟩
  | addBlock label =>
    subst hl
    exact ⟨rfl, fun _ _ h => h, fun b l => blockLabel?_push⟩
  | create d =>
    obtain ⟨-, rfl⟩ := hl
    exact .of_eq rfl rfl fun _ => rfl
  | defineResult i name =>
    obtain ⟨-, rfl⟩ := hl
    exact ⟨rfl, fun v n => valueName?_push, fun _ _ h => h⟩
  | setOperands i operands =>
    obtain ⟨-, rfl⟩ := hl
    exact .of_eq rfl rfl fun _ => rfl
  | append b i =>
    obtain ⟨-, -, -, rfl⟩ := hl
    exact .of_eq rfl rfl fun c => blockLabel?_editBlock _ b c _
  | insertBefore anchor i =>
    obtain ⟨-, -, b, -, -, rfl⟩ := hl
    exact .of_eq rfl rfl fun c => blockLabel?_editBlock _ b c _
  | detach i =>
    obtain ⟨-, -, rfl⟩ | ⟨b, -, -, rfl⟩ := hl
    · exact .refl _
    · exact .of_eq rfl rfl fun c => blockLabel?_editBlock _ b c _

end Function

/-! ## Steps of the construction -/

/-- The names of a scope are those of its function, and the function is composed. -/
structure Scope.Sound (s : Scope) : Prop where
  composed : s.function.Composed
  values : ∀ n v, s.values.lookup n = some v → s.function.valueName? v = some n
  blocks : ∀ l b, s.blocks.lookup l = some b → s.function.blockLabel? b = some l

variable {s t : Scope}

theorem Scope.sound_empty (name : String) : (Scope.mk (.empty name) [] []).Sound :=
  ⟨.empty name, fun _ _ h => by simp at h, fun _ _ h => by simp at h⟩

/-- A request about entities that exist keeps a scope sound, unless it takes something out. -/
theorem Scope.Sound.request (h : s.Sound) (r : Request) {g : Function}
    (hr : ∀ l ∈ r.lookups, s.function.Has l) (hkeep : ∀ i, r ≠ .detach i)
    (hg : r.run s.function = .ok () g) : Scope.Sound { s with function := g } := by
  have hnames := Function.namesKept_request hg
  exact ⟨.request r h.composed hr hkeep hg, fun n v hv => hnames.value v n (h.values n v hv),
    fun l b hb => hnames.label b l (h.blocks l b hb)⟩

/-- A table that leads to the right entities may take up one more name. -/
theorem lookup_cons_of {k : Kind} {table : List (String × Entity k)} {P : String → Entity k → Prop}
    (h : ∀ n e, table.lookup n = some e → P n e) {name : String} {x : Entity k} (hx : P name x)
    (n : String) (e : Entity k) (he : List.lookup n ((name, x) :: table) = some e) : P n e := by
  rw [List.lookup_cons] at he
  split at he
  · rename_i hn
    obtain rfl := Option.some.inj he
    rwa [eq_of_beq hn]
  · exact h n e he

theorem Scope.Sound.declareValue (h : s.Sound) {name : String} {v : ValueId}
    (hv : s.function.valueName? v = some name) :
    Scope.Sound { s with values := (name, v) :: s.values } :=
  ⟨h.composed, lookup_cons_of (P := fun n v => s.function.valueName? v = some n) h.values hv,
    h.blocks⟩

theorem Scope.Sound.declareBlock (h : s.Sound) {label : String} {b : BlockId}
    (hb : s.function.blockLabel? b = some label) :
    Scope.Sound { s with blocks := (label, b) :: s.blocks } :=
  ⟨h.composed, h.values,
    lookup_cons_of (P := fun l b => s.function.blockLabel? b = some l) h.blocks hb⟩

/-- The operand that stands for a written one. -/
def Scope.Stands (s : Scope) : Source.Operand → Operand → Prop
  | .name name, .value v => s.values.lookup name = some v
  | .imm n, .imm k => n = k
  | _, _ => False

namespace Build

variable {α β : Type} {a : α} {m : Build α} {start : List Char}

theorem bind_eq_ok {k : α → Build β} {r : β × Scope} :
    (m >>= k) s = .ok r ↔ ∃ a t, m s = .ok (a, t) ∧ k a t = .ok r := by
  change (m s >>= fun p => k p.1 p.2) = .ok r ↔ _
  cases m s with
  | error e => simp [bind, Except.bind]
  | ok p =>
    obtain ⟨a, t⟩ := p
    constructor
    · exact fun h => ⟨a, t, rfl, h⟩
    · rintro ⟨a', t', heq, hk⟩
      cases heq
      exact hk

theorem bind_of_ok {k : α → Build β} (h : m s = .ok (a, t)) : (m >>= k) s = k a t := by
  change (m s >>= fun p => k p.1 p.2) = _
  rw [h]
  rfl

theorem bind_of_error {k : α → Build β} {p : Problem} (h : m s = .error p) :
    (m >>= k) s = .error p := by
  change (m s >>= fun p => k p.1 p.2) = _
  rw [h]
  rfl

theorem pure_eq_ok {r : α × Scope} : (pure a : Build α) s = .ok r ↔ r = (a, s) := by
  change Except.ok (a, s) = Except.ok r ↔ _
  rw [Except.ok.injEq, eq_comm]

theorem mapM_nil_eq_ok {k : α → Build β} {r : List β × Scope} :
    ([] : List α).mapM k s = .ok r ↔ r = ([], s) := by
  rw [List.mapM_nil, pure_eq_ok]

theorem mapM_cons_eq_ok {k : α → Build β} {x : α} {xs : List α} {r : List β × Scope} :
    (x :: xs).mapM k s = .ok r ↔ ∃ y s' ys t, k x s = .ok (y, s') ∧ xs.mapM k s' = .ok (ys, t) ∧
      r = (y :: ys, t) := by
  rw [List.mapM_cons]
  simp only [bind_eq_ok, pure_eq_ok]
  exact ⟨fun ⟨y, s', hy, ys, t, hys, h⟩ => ⟨y, s', ys, t, hy, hys, h⟩,
    fun ⟨y, s', ys, t, hy, hys, h⟩ => ⟨y, s', hy, ys, t, hys, h⟩⟩

theorem edit_eq_ok {e : Edit α} :
    edit start e s = .ok (a, t) ↔ ∃ g, e s.function = .ok a g ∧ t = { s with function := g } := by
  unfold edit
  cases he : e s.function with
  | error fault f => simp
  | ok b f =>
    simp only [Except.ok.injEq, Prod.mk.injEq, EStateM.Result.ok.injEq]
    constructor
    · rintro ⟨rfl, rfl⟩
      exact ⟨f, ⟨rfl, rfl⟩, rfl⟩
    · rintro ⟨g, ⟨rfl, rfl⟩, rfl⟩
      exact ⟨rfl, rfl⟩

theorem edit_eq_error {e : Edit α} {fault : Fault} {g : Function} (h : e s.function = .error fault g) :
    edit start e s = .error ⟨.refused fault, start⟩ := by
  rw [edit, h]

theorem declareValue_eq_ok {name : String} {v : ValueId} {u : Unit} :
    declareValue start name v s = .ok (u, t) ↔
      (s.values.lookup name).isSome = false ∧ t = { s with values := (name, v) :: s.values } := by
  unfold declareValue
  change (if (s.values.lookup name).isSome = true then _ else _ : Build Unit) s = _ ↔ _
  cases (s.values.lookup name).isSome with
  | true =>
    change Except.error _ = Except.ok (u, t) ↔ _
    simp
  | false =>
    change Except.ok ((), _) = Except.ok (u, t) ↔ _
    simp [eq_comm]

theorem get_bind_apply (k : Scope → Build α) : (get >>= k : Build α) s = k s s := rfl

theorem resolveBlock_eq_ok {label : String} {b : BlockId} :
    resolveBlock start label s = .ok (b, t) ↔ s.blocks.lookup label = some b ∧ t = s := by
  unfold resolveBlock
  rw [get_bind_apply]
  cases s.blocks.lookup label with
  | some c =>
    change Except.ok (c, s) = Except.ok (b, t) ↔ _
    simp [eq_comm]
  | none =>
    change Except.error _ = Except.ok (b, t) ↔ _
    simp

theorem resolveOperand_eq_ok {x : Source.Operand} {y : Operand} :
    resolveOperand start x s = .ok (y, t) ↔ s.Stands x y ∧ t = s := by
  cases x with
  | imm n =>
    change Except.ok (Operand.imm n, s) = Except.ok (y, t) ↔ _
    cases y <;> simp [Scope.Stands, eq_comm]
  | name name =>
    rw [resolveOperand, get_bind_apply]
    cases h : s.values.lookup name with
    | some w =>
      change Except.ok (Operand.value w, s) = Except.ok (y, t) ↔ _
      cases y <;> simp [Scope.Stands, h, eq_comm]
    | none =>
      change Except.error _ = Except.ok (y, t) ↔ _
      cases y <;> simp [Scope.Stands, h]

/-- A list of lookups leaves the scope as it was. -/
theorem mapM_eq_ok_iff_of_lookup {k : α → Build β} {R : α → β → Prop}
    (hk : ∀ x y t, k x s = .ok (y, t) ↔ R x y ∧ t = s) {xs : List α} {ys : List β} :
    xs.mapM k s = .ok (ys, t) ↔ List.Forall₂ R xs ys ∧ t = s := by
  constructor
  · intro h
    induction xs generalizing ys with
    | nil =>
      obtain ⟨rfl, rfl⟩ := Prod.mk.inj (mapM_nil_eq_ok.mp h)
      exact ⟨.nil, rfl⟩
    | cons x xs ih =>
      obtain ⟨y, s', zs, u, hy, hzs, heq⟩ := mapM_cons_eq_ok.mp h
      obtain ⟨rfl, rfl⟩ := Prod.mk.inj heq
      obtain ⟨hR, rfl⟩ := (hk x y s').mp hy
      obtain ⟨hall, rfl⟩ := ih hzs
      exact ⟨.cons hR hall, rfl⟩
  · rintro ⟨h, rfl⟩
    induction h with
    | nil => exact mapM_nil_eq_ok.mpr rfl
    | cons hxy _ ih => exact mapM_cons_eq_ok.mpr ⟨_, _, _, _, (hk _ _ _).mpr ⟨hxy, rfl⟩, ih, rfl⟩

end Build

end SsaPrune
