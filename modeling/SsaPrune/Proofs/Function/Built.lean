import Mathlib.Data.List.Nodup
import SsaPrune.Proofs.Function.Request

/-!
# The functions that can be built

A function is *built* when it comes from the empty function by requests that succeed. A request may
name an entity that is created later, or never; `Closed` says that all entities that are named exist.
Whether the function is also well formed is another question.

The main statement is `Built.coherent`: what the function says twice it says consistently. An
instruction names a block as its parent exactly when the block lists it, a value names an instruction
as its definition exactly when it is the result of that instruction, and the layout has every block
once. `Closed.request` says which requests keep a function closed.
-/

namespace SsaPrune

namespace Arena

variable {k : Kind} {α : Type} {a : Arena k α}

theorem mem_entities {e : Entity k} : e ∈ a.entities ↔ e.index < a.size := by
  rw [entities, List.mem_map]
  constructor
  · rintro ⟨n, hn, rfl⟩
    exact List.mem_range.mp hn
  · exact fun he => ⟨e.index, List.mem_range.mpr he, rfl⟩

theorem nodup_entities : a.entities.Nodup := List.nodup_range.map fun _ _ hmn => Entity.mk.inj hmn

end Arena

namespace Function

/-- A function that comes from an empty one by successful requests. -/
inductive Built : Function → Prop
  | empty (name : String) : Built (.empty name)
  | request {f g : Function} (r : Request) (h : Built f) (hg : r.run f = .ok () g) : Built g

/-! ## What a function says twice -/

/-- Parents and the lists of the blocks agree, and the layout has every block once. -/
structure PlacesAgree (f : Function) : Prop where
  parent_iff : ∀ i b, f.parent? i = some b ↔ i ∈ f.instsOf b
  nodup : ∀ b, (f.instsOf b).Nodup
  layout : f.layout = f.blocks.entities

/-- Definitions agree with the results and with the parameters. -/
structure DefinitionsAgree (f : Function) : Prop where
  result_iff : ∀ i v, f.result? i = some v ↔ f.definition? v = some (.result i)
  param_iff : ∀ k v, f.params[k]? = some v ↔ f.definition? v = some (.param k)

structure Coherent (f : Function) : Prop where
  places : f.PlacesAgree
  definitions : f.DefinitionsAgree

/-- Every entity that is named by an instruction or by a definition exists. -/
structure Closed (f : Function) : Prop where
  inst : ∀ i d, f.inst? i = some d → ∀ l ∈ d.lookups, f.Has l
  definition : ∀ v i, f.definition? v = some (.result i) → f.Has (.inst i)

variable {f : Function}

theorem has_inst_of_parent {i : InstId} {b : BlockId} (h : f.parent? i = some b) :
    f.Has (.inst i) := by
  obtain ⟨d, hd, -⟩ := (f.parent?_eq_some i).mp h
  exact has_inst_iff.mpr ⟨d, hd⟩

namespace PlacesAgree

theorem has_block_of_parent (h : f.PlacesAgree) {i : InstId} {b : BlockId} (hb : f.parent? i = some b) :
    f.Has (.block b) :=
  has_block_of_mem_instsOf ((h.parent_iff i b).mp hb)

theorem mem_layout_iff (h : f.PlacesAgree) {b : BlockId} : b ∈ f.layout ↔ f.Has (.block b) := by
  rw [h.layout, has_block, Arena.mem_entities]

theorem mem_attached_iff (h : f.PlacesAgree) {i : InstId} :
    i ∈ f.attached ↔ ∃ b, f.parent? i = some b := by
  simp only [attached, List.mem_flatMap, h.parent_iff]
  exact ⟨fun ⟨b, _, hi⟩ => ⟨b, hi⟩,
    fun ⟨b, hi⟩ => ⟨b, h.mem_layout_iff.mpr (has_block_of_mem_instsOf hi), hi⟩⟩

theorem mem_attached (h : f.PlacesAgree) {i : InstId} {b : BlockId} (hi : i ∈ f.instsOf b) :
    i ∈ f.attached :=
  h.mem_attached_iff.mpr ⟨b, (h.parent_iff i b).mpr hi⟩

theorem isAttached_iff (h : f.PlacesAgree) {i : InstId} :
    f.isAttached i = true ↔ i ∈ f.attached := by
  rw [h.mem_attached_iff, isAttached, Option.isSome_iff_exists]

theorem has_attached (h : f.PlacesAgree) {i : InstId} (hi : i ∈ f.attached) : f.Has (.inst i) := by
  obtain ⟨b, hb⟩ := h.mem_attached_iff.mp hi
  exact has_inst_of_parent hb

/-- An instruction is in one block only. -/
theorem eq_of_mem (h : f.PlacesAgree) {i : InstId} {b c : BlockId} (hb : i ∈ f.instsOf b)
    (hc : i ∈ f.instsOf c) : b = c :=
  Option.some.inj (((h.parent_iff i b).mpr hb).symm.trans ((h.parent_iff i c).mpr hc))

theorem nodup_layout (h : f.PlacesAgree) : f.layout.Nodup := by
  rw [h.layout]
  exact Arena.nodup_entities

theorem nodup_attached (h : f.PlacesAgree) : f.attached.Nodup := by
  refine List.nodup_flatMap.mpr ⟨fun b _ => h.nodup b, ?_⟩
  exact h.nodup_layout.imp fun hne i hb hc => hne (h.eq_of_mem hb hc)

/-- Places are told by parents, blocks and layout alone. -/
theorem congr {f g : Function} (h : f.PlacesAgree) (hp : ∀ i, g.parent? i = f.parent? i)
    (hb : g.blocks = f.blocks) (hl : g.layout = f.layout) : g.PlacesAgree := by
  have hi : ∀ b, g.instsOf b = f.instsOf b := fun b => by simp only [instsOf, block?, hb]
  refine ⟨fun i b => ?_, fun b => ?_, ?_⟩
  · rw [hp, hi]
    exact h.parent_iff i b
  · rw [hi]
    exact h.nodup b
  · rw [hl, hb]
    exact h.layout

end PlacesAgree

/-- Definitions are told by results, values and parameters alone. -/
theorem DefinitionsAgree.congr {f g : Function} (h : f.DefinitionsAgree)
    (hr : g.results = f.results) (hv : ∀ v, g.definition? v = f.definition? v)
    (hp : g.params = f.params) : g.DefinitionsAgree := by
  refine ⟨fun i v => ?_, fun k v => ?_⟩
  · rw [hv, result?, hr]
    exact h.result_iff i v
  · rw [hv, hp]
    exact h.param_iff k v

theorem DefinitionsAgree.eq_of_result? (h : f.DefinitionsAgree) {i j : InstId} {v : ValueId}
    (hi : f.result? i = some v) (hj : f.result? j = some v) : i = j := by
  have hsame := ((h.result_iff i v).mp hi).symm.trans ((h.result_iff j v).mp hj)
  exact Definition.result.inj (Option.some.inj hsame)

/-- A value is the result of one instruction only. -/
theorem DefinitionsAgree.result?_ne (h : f.DefinitionsAgree) {i : InstId} {v : ValueId}
    (hi : f.result? i = some v) {is : List InstId} (hnot : i ∉ is) :
    ∀ j ∈ is, f.result? j ≠ some v := by
  intro j hj hjv
  rw [h.eq_of_result? hi hjv] at hnot
  exact hnot hj

/-! ## Places are kept -/

section Places

variable {i : InstId} {b : BlockId} {change : List InstId → List InstId}

theorem entities_editBlock :
    (f.editBlock b change).blocks.entities = f.blocks.entities := by
  simp only [Arena.entities, size_blocks_editBlock]

theorem placesAgree_empty (name : String) : (empty name).PlacesAgree :=
  ⟨fun _ _ => by simp [parent?, inst?, instsOf, block?, empty],
    fun _ => by simp [instsOf, block?, empty], rfl⟩

/-- Putting an instruction that has no block into one, at whatever place in its list. -/
theorem PlacesAgree.place (h : f.PlacesAgree) (hi : f.parent? i = none) (hx : f.Has (.inst i))
    (hb : f.Has (.block b)) (hmem : ∀ j, j ∈ change (f.instsOf b) ↔ j = i ∨ j ∈ f.instsOf b)
    (hnodup : i ∉ f.instsOf b → (change (f.instsOf b)).Nodup) :
    ((f.withParent i (some b)).editBlock b change).PlacesAgree := by
  have hnot : ∀ c, i ∉ f.instsOf c := fun c hc => by
    rw [(h.parent_iff i c).mpr hc] at hi
    cases hi
  have hlist : ∀ c, ((f.withParent i (some b)).editBlock b change).instsOf c =
      if b = c then change (f.instsOf c) else f.instsOf c := fun c => by
    rw [instsOf_editBlock, blocks_withParent]
    by_cases hbc : b = c
    · subst hbc
      simp only [true_and, (f.has_block).mp hb, if_true]
      rfl
    · simp only [hbc, false_and, if_false]
      rfl
  refine ⟨fun j c => ?_, fun c => ?_, ?_⟩
  · rw [hlist]
    change (f.withParent i (some b)).parent? j = some c ↔ _
    rw [parent?_withParent]
    by_cases hj : i = j
    · subst hj
      obtain ⟨d, hd⟩ := Option.isSome_iff_exists.mp ((f.inst?_isSome_iff i).mpr ((f.has_inst).mp hx))
      by_cases hbc : b = c
      · subst hbc
        simp [hd, hmem]
      · simp [hd, hbc, hnot c]
    · rw [if_neg hj, h.parent_iff]
      by_cases hbc : b = c
      · subst hbc
        simp [hmem, Ne.symm hj]
      · simp [hbc]
  · rw [hlist]
    split
    · rename_i hbc
      subst hbc
      exact hnodup (hnot b)
    · exact h.nodup c
  · rw [entities_editBlock]
    exact h.layout

/-- Taking an instruction out of its block. -/
theorem PlacesAgree.instsOf_takeOut (h : f.PlacesAgree) (hi : f.parent? i = some b) (c : BlockId) :
    ((f.withParent i none).editBlock b (·.filter (· ≠ i))).instsOf c =
      (f.instsOf c).filter (· ≠ i) := by
  have hib : i ∈ f.instsOf b := (h.parent_iff i b).mp hi
  rw [instsOf_editBlock, blocks_withParent]
  by_cases hbc : b = c
  · subst hbc
    simp only [true_and, (f.has_block).mp (has_block_of_mem_instsOf hib), if_true]
    rfl
  · simp only [hbc, false_and, if_false]
    refine (List.filter_eq_self.mpr fun j hj => ?_).symm
    have : j ≠ i := fun hji => hbc (h.eq_of_mem hib (hji ▸ hj))
    simpa using this

theorem PlacesAgree.takeOut (h : f.PlacesAgree) (hi : f.parent? i = some b) :
    ((f.withParent i none).editBlock b (·.filter (· ≠ i))).PlacesAgree := by
  refine ⟨fun j c => ?_, fun c => ?_, ?_⟩
  · rw [h.instsOf_takeOut hi]
    change (f.withParent i none).parent? j = some c ↔ _
    rw [parent?_withParent, List.mem_filter]
    by_cases hj : i = j
    · subst hj
      cases f.inst? i <;> simp
    · simp [hj, Ne.symm hj, h.parent_iff]
  · rw [h.instsOf_takeOut hi]
    exact (h.nodup c).filter _
  · rw [entities_editBlock]
    exact h.layout

end Places

/-! ## Requests keep both agreements -/

theorem parent?_push (d : Instruction) (hd : d.parent = none) (i : InstId) :
    ({ f with insts := f.insts.push d } : Function).parent? i = f.parent? i := by
  unfold parent? inst?
  rw [Arena.get?_push]
  split
  · rename_i hi
    have : f.insts.get? i = none := by
      rw [← Option.not_isSome_iff_eq_none, Arena.get?_isSome_iff, hi]
      exact Nat.lt_irrefl _
    simp [this, hd]
  · rfl

theorem definition?_push (info : ValueInfo) (v : ValueId) :
    ({ f with values := f.values.push info } : Function).definition? v =
      if v = f.values.next then some info.definition else f.definition? v := by
  unfold definition? value?
  rw [Arena.get?_push]
  split <;> rfl

theorem definition?_next : f.definition? f.values.next = none := by
  have : f.values.get? f.values.next = none := by
    rw [← Option.not_isSome_iff_eq_none, Arena.get?_isSome_iff]
    exact Nat.lt_irrefl _
  simp [definition?, value?, this]

theorem definitionsAgree_empty (name : String) : (empty name).DefinitionsAgree :=
  ⟨fun _ _ => by simp [result?, definition?, value?, empty],
    fun _ _ => by simp [definition?, value?, empty]⟩

theorem DefinitionsAgree.addParam (h : f.DefinitionsAgree) (name : Option String) :
    ({ f with
      values := f.values.push ⟨.param f.params.length, name⟩
      params := f.params ++ [f.values.next] } : Function).DefinitionsAgree := by
  have hnone := definition?_next (f := f)
  refine ⟨fun i v => ?_, fun k v => ?_⟩
  · change f.result? i = some v ↔ ({ f with values := f.values.push _ } : Function).definition? v = _
    rw [definition?_push, h.result_iff]
    split
    · rename_i hv
      simp [hv, hnone]
    · rfl
  · change _ ↔ ({ f with values := f.values.push _ } : Function).definition? v = _
    rw [definition?_push]
    have hk := h.param_iff k v
    by_cases hlt : k < f.params.length
    · rw [List.getElem?_append_left hlt, hk]
      split
      · rename_i hv
        simp only [hv, hnone, Option.some.injEq, Definition.param.injEq, reduceCtorEq, false_iff]
        omega
      · rfl
    · rw [List.getElem?_append_right (by omega)]
      have hno : f.definition? v ≠ some (.param k) := fun hd => by
        rw [← hk, List.getElem?_eq_none (by omega)] at hd
        cases hd
      by_cases hv : v = f.values.next
      · subst hv
        by_cases hkn : k = f.params.length
        · simp [hkn]
        · have : ¬k - f.params.length = 0 := by omega
          simp [this, Ne.symm hkn]
      · have : f.values.next ≠ v := Ne.symm hv
        simp [hv, hno, List.getElem?_singleton, this]

theorem DefinitionsAgree.defineResult (h : f.DefinitionsAgree) {i : InstId}
    (hi : f.result? i = none) (name : Option String) :
    ({ f with
      values := f.values.push ⟨.result i, name⟩
      results := f.results.set i (some f.values.next) } : Function).DefinitionsAgree := by
  have hnone := definition?_next (f := f)
  refine ⟨fun j v => ?_, fun k v => ?_⟩
  · change (f.results.set i (some f.values.next)).get j = some v ↔
      ({ f with values := f.values.push _ } : Function).definition? v = _
    rw [SideTable.get_set, definition?_push]
    by_cases hj : i = j
    · subst hj
      have hno : f.definition? v ≠ some (.result i) := fun hd => by
        rw [← h.result_iff, hi] at hd
        cases hd
      by_cases hv : v = f.values.next
      · simp [hv]
      · simp [hv, hno, Ne.symm hv]
    · change (if i = j then _ else f.result? j) = _ ↔ _
      rw [if_neg hj, h.result_iff]
      by_cases hv : v = f.values.next
      · simp [hv, hnone, hj]
      · simp [hv]
  · change f.params[k]? = some v ↔ ({ f with values := f.values.push _ } : Function).definition? v = _
    rw [definition?_push, h.param_iff]
    split
    · rename_i hv
      simp [hv, hnone]
    · rfl

theorem coherent_empty (name : String) : (empty name).Coherent :=
  ⟨placesAgree_empty name, definitionsAgree_empty name⟩

theorem instsOf_addBlock (label : Option String) (b : BlockId) :
    ({ f with
      blocks := f.blocks.push ⟨label, []⟩
      layout := f.layout ++ [f.blocks.next] } : Function).instsOf b = f.instsOf b := by
  unfold instsOf block?
  rw [Arena.get?_push]
  split
  · rename_i hb
    have : f.blocks.get? b = none := by
      rw [← Option.not_isSome_iff_eq_none, Arena.get?_isSome_iff, hb]
      exact Nat.lt_irrefl _
    simp [this]
  · rfl

theorem PlacesAgree.addBlock (h : f.PlacesAgree) (label : Option String) :
    ({ f with
      blocks := f.blocks.push ⟨label, []⟩
      layout := f.layout ++ [f.blocks.next] } : Function).PlacesAgree := by
  refine ⟨fun i b => ?_, fun b => ?_, ?_⟩
  · rw [instsOf_addBlock]
    exact h.parent_iff i b
  · rw [instsOf_addBlock]
    exact h.nodup b
  · change f.layout ++ [f.blocks.next] = (f.blocks.push ⟨label, []⟩).entities
    rw [h.layout, Arena.entities, Arena.entities, Arena.size_push, List.range_succ, List.map_append]
    rfl

theorem PlacesAgree.append (h : f.PlacesAgree) {i : InstId} {b : BlockId} (hi : f.parent? i = none)
    (hx : f.Has (.inst i)) (hb : f.Has (.block b)) :
    ((f.withParent i (some b)).editBlock b (· ++ [i])).PlacesAgree := by
  refine h.place hi hx hb (fun j => ?_) fun hni => ?_
  · simp [or_comm]
  · refine List.nodup_append.mpr ⟨h.nodup b, by simp, fun j hj k hk => ?_⟩
    obtain rfl := List.mem_singleton.mp hk
    exact fun hjk => hni (hjk ▸ hj)

theorem parent?_withOperands (i j : InstId) (operands : List Operand) :
    (f.withOperands i operands).parent? j = f.parent? j := by
  have hget : (f.withOperands i operands).inst? j =
      if i = j then (f.inst? j).map ({ · with operands }) else f.inst? j := Arena.get?_modify ..
  unfold parent?
  rw [hget]
  split
  · cases f.inst? j <;> rfl
  · rfl

/-- **A successful request keeps what a function says twice in agreement.** -/
theorem Coherent.request {g : Function} {r : Request} (h : f.Coherent) (hg : r.run f = .ok () g) :
    g.Coherent := by
  obtain ⟨hp, hd⟩ := h
  have hl := Request.run_eq_ok_iff.mp hg
  cases r with
  | addParam name =>
    subst hl
    exact ⟨hp.congr (fun _ => rfl) rfl rfl, hd.addParam name⟩
  | addBlock label =>
    subst hl
    exact ⟨hp.addBlock label, hd.congr rfl (fun _ => rfl) rfl⟩
  | create d =>
    obtain ⟨hnone, rfl⟩ := hl
    exact ⟨hp.congr (parent?_push d hnone) rfl rfl, hd.congr rfl (fun _ => rfl) rfl⟩
  | defineResult i name =>
    obtain ⟨hnone, rfl⟩ := hl
    exact ⟨hp.congr (fun _ => rfl) rfl rfl, hd.defineResult hnone name⟩
  | setOperands i operands =>
    obtain ⟨-, rfl⟩ := hl
    exact ⟨hp.congr (fun j => parent?_withOperands i j operands) rfl rfl,
      hd.congr rfl (fun _ => rfl) rfl⟩
  | append b i =>
    obtain ⟨hx, hi, hb, rfl⟩ := hl
    exact ⟨hp.append hi hx hb, hd.congr rfl (fun _ => rfl) rfl⟩
  | insertBefore anchor i =>
    obtain ⟨hx, hi, b, -, ha, rfl⟩ := hl
    exact ⟨hp.place hi hx (has_block_of_mem_instsOf ha) (fun _ => mem_putBefore ha)
      (nodup_putBefore (hp.nodup b)), hd.congr rfl (fun _ => rfl) rfl⟩
  | detach i =>
    obtain ⟨-, -, rfl⟩ | ⟨b, hi, -, rfl⟩ := hl
    · exact ⟨hp, hd⟩
    · exact ⟨(hp.takeOut hi).congr (fun _ => rfl) rfl rfl, hd.congr rfl (fun _ => rfl) rfl⟩

theorem Built.coherent (h : f.Built) : f.Coherent := by
  induction h with
  | empty name => exact coherent_empty name
  | request r _ hg ih => exact ih.request hg

/-! ## Requests keep all entities within reach -/

theorem closed_empty (name : String) : (empty name).Closed :=
  ⟨fun _ _ h => by simp [inst?, empty] at h, fun _ _ h => by simp [definition?, value?, empty] at h⟩

/-- An arena grows by the entity that a request adds, and by nothing else. -/
theorem sizes_request {g : Function} {r : Request} (hg : r.run f = .ok () g) :
    g.insts.size = f.insts.size + (if r.adds f = some (.inst f.insts.next) then 1 else 0) ∧
    g.values.size = f.values.size + (if r.adds f = some (.value f.values.next) then 1 else 0) ∧
    g.blocks.size = f.blocks.size + (if r.adds f = some (.block f.blocks.next) then 1 else 0) := by
  have hl := Request.run_eq_ok_iff.mp hg
  cases r with
  | addParam name | addBlock label =>
    subst hl
    simp [Request.adds]
  | create d | defineResult i name =>
    obtain ⟨-, rfl⟩ := hl
    simp [Request.adds, registerUses]
  | setOperands i operands =>
    obtain ⟨-, rfl⟩ := hl
    simp [Request.adds, withOperands, registerUses, dropUses]
  | append b i =>
    obtain ⟨-, -, -, rfl⟩ := hl
    simp [Request.adds, editBlock, withParent]
  | insertBefore anchor i =>
    obtain ⟨-, -, b, -, -, rfl⟩ := hl
    simp [Request.adds, editBlock, withParent]
  | detach i =>
    obtain ⟨-, -, rfl⟩ | ⟨b, -, -, rfl⟩ := hl
    · simp [Request.adds]
    · simp [Request.adds, dropUses, editBlock, withParent]

/-- No entity is lost by a request. -/
theorem Has.request {g : Function} {r : Request} (hg : r.run f = .ok () g) {l : Lookup}
    (h : f.Has l) : g.Has l := by
  obtain ⟨hi, hv, hb⟩ := sizes_request hg
  exact h.mono (Nat.le.intro hi.symm) (Nat.le.intro hv.symm) (Nat.le.intro hb.symm)

/-- An instruction that was never created has no result. -/
theorem Closed.result?_next (h : f.Closed) (hd : f.DefinitionsAgree) :
    f.result? f.insts.next = none := by
  cases hr : f.result? f.insts.next with
  | none => rfl
  | some v =>
    have hhas := f.has_inst.mp (h.definition v _ ((hd.result_iff _ v).mp hr))
    exact absurd hhas (Nat.lt_irrefl _)

theorem Closed.has_block {i : InstId} {d : Instruction} (h : f.Closed) (hd : f.inst? i = some d)
    {b : BlockId} (hb : b ∈ d.successors ++ d.phiBlocks) : f.Has (.block b) :=
  h.inst i d hd _ (List.mem_append_right _ (List.mem_map.mpr ⟨b, hb, rfl⟩))

theorem Closed.has_value (h : f.Closed) {i : InstId} {v : ValueId} (hv : v ∈ f.valueOperands i) :
    f.Has (.value v) := by
  cases hd : f.inst? i with
  | none => simp [valueOperands, hd] at hv
  | some d =>
    rw [valueOperands, hd] at hv
    exact h.inst i d hd _ (List.mem_append_left _ (List.mem_map.mpr ⟨v, hv, rfl⟩))

/-- An update keeps `Closed` when it names no entity that was not named before. -/
theorem Closed.of_same {g : Function} (h : f.Closed) (hhas : ∀ l, f.Has l → g.Has l)
    (hinst : ∀ j d, g.inst? j = some d → ∃ e, f.inst? j = some e ∧ d.lookups = e.lookups)
    (hdef : ∀ v, g.definition? v = f.definition? v) : g.Closed := by
  refine ⟨fun j d hd l hl => ?_, fun v i hv => ?_⟩
  · obtain ⟨e, he, heq⟩ := hinst j d hd
    exact hhas l (h.inst j e he l (heq ▸ hl))
  · exact hhas _ (h.definition v i (hdef v ▸ hv))

theorem exists_inst?_of_withParent {i j : InstId} {p : Option BlockId} {d : Instruction}
    (h : (f.withParent i p).inst? j = some d) :
    ∃ e, f.inst? j = some e ∧ d.lookups = e.lookups := by
  rw [inst?_withParent] at h
  split at h
  · obtain ⟨e, he, rfl⟩ := Option.map_eq_some_iff.mp h
    exact ⟨e, he, rfl⟩
  · exact ⟨d, h, rfl⟩

/-- A request about entities that exist leaves a function in which all that is named exists. -/
theorem Closed.request {g : Function} {r : Request} (h : f.Closed) (hr : ∀ l ∈ r.lookups, f.Has l)
    (hg : r.run f = .ok () g) : g.Closed := by
  have hhas : ∀ l, f.Has l → g.Has l := fun _ => Has.request hg
  have hl := Request.run_eq_ok_iff.mp hg
  cases r with
  | addParam name =>
    subst hl
    refine ⟨fun j d hd l hl => hhas l (h.inst j d hd l hl), fun v i hv => hhas _ ?_⟩
    change ({ f with values := f.values.push _ } : Function).definition? v = _ at hv
    rw [definition?_push] at hv
    split at hv
    · simp at hv
    · exact h.definition v i hv
  | addBlock label =>
    subst hl
    exact h.of_same hhas (fun j d hd => ⟨d, hd, rfl⟩) fun _ => rfl
  | create d =>
    obtain ⟨-, rfl⟩ := hl
    refine ⟨fun j e he l hl => ?_, fun v i hv => hhas _ (h.definition v i hv)⟩
    change (f.insts.push d).get? j = some e at he
    rw [Arena.get?_push] at he
    split at he
    · cases he
      exact hhas l (hr l hl)
    · exact hhas l (h.inst j e he l hl)
  | defineResult i name =>
    obtain ⟨-, rfl⟩ := hl
    refine ⟨fun j d hd l hl => hhas l (h.inst j d hd l hl), fun v j hv => hhas _ ?_⟩
    change ({ f with values := f.values.push _ } : Function).definition? v = _ at hv
    rw [definition?_push] at hv
    split at hv
    · cases hv
      exact hr _ (by simp [Request.lookups])
    · exact h.definition v j hv
  | setOperands i operands =>
    obtain ⟨-, rfl⟩ := hl
    refine ⟨fun j e he l hl => hhas l ?_, fun v i hv => hhas _ (h.definition v i hv)⟩
    change (f.insts.modify i _).get? j = some e at he
    rw [Arena.get?_modify] at he
    split at he
    · obtain ⟨d, hd, rfl⟩ := Option.map_eq_some_iff.mp he
      rcases List.mem_append.mp hl with hl | hl
      · exact hr l (List.mem_cons_of_mem _ hl)
      · exact h.inst j d hd l (List.mem_append_right _ hl)
    · exact h.inst j e he l hl
  | append b i =>
    obtain ⟨-, -, -, rfl⟩ := hl
    exact h.of_same hhas (fun _ _ => exists_inst?_of_withParent) fun _ => rfl
  | insertBefore anchor i =>
    obtain ⟨-, -, b, -, -, rfl⟩ := hl
    exact h.of_same hhas (fun _ _ => exists_inst?_of_withParent) fun _ => rfl
  | detach i =>
    obtain ⟨-, -, rfl⟩ | ⟨b, -, -, rfl⟩ := hl
    · exact h
    · exact h.of_same hhas (fun _ _ => exists_inst?_of_withParent) fun _ => rfl

end Function

end SsaPrune
