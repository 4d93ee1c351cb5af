import Mathlib.Data.List.Induction
import SsaPrune.Proofs.Function.UseLists

/-!
# The order of the lists of uses

Three kinds of calls decide whether an instruction is registered as a user: creating it and giving it
operands register it, and taking it out of a block ends that. What counts is the latest such call on
it. `registered calls` replays the calls: a call on an instruction moves it to the end, or drops it.

`UsesInOrder f is` says that the list of every value goes through the instructions of `is` in their
order, and through the operands of each; nothing else stands in it. `UsesInOrder.request` says what one
request makes of that order.
-/

namespace SsaPrune

/-! ## Calls -/

/-- A call that decides whether an instruction is registered as a user. -/
structure UseCall where
  inst : InstId
  registers : Bool
  deriving DecidableEq

/-- The call that a request is, if it is one. Taking out an instruction that no block holds is none. -/
def Request.useCall? (f : Function) : Request → Option UseCall
  | .create d => if d.parent = none then some ⟨f.insts.next, true⟩ else none
  | .setOperands i _ => if f.Has (.inst i) then some ⟨i, true⟩ else none
  | .detach i => if f.isAttached i then some ⟨i, false⟩ else none
  | _ => none

namespace UseCall

variable {calls : List UseCall} {i j : InstId}

/-- The latest call on an instruction. -/
def latest? (calls : List UseCall) (i : InstId) : Option UseCall :=
  calls.reverse.find? (·.inst = i)

/-- The number of calls since the latest one on an instruction. -/
def since (calls : List UseCall) (i : InstId) : Nat :=
  (calls.reverse.takeWhile (·.inst ≠ i)).length

/-- The latest call on the instruction registers it. -/
def Registered (calls : List UseCall) (i : InstId) : Prop := latest? calls i = some ⟨i, true⟩

instance : Decidable (Registered calls i) := inferInstanceAs (Decidable (_ = _))

/-- What one more call makes of the registered instructions. -/
def note (is : List InstId) (c : UseCall) : List InstId :=
  is.filter (· ≠ c.inst) ++ if c.registers then [c.inst] else []

/-- The registered instructions, in order of the latest call on each. -/
def registered (calls : List UseCall) : List InstId := calls.foldl note []

theorem latest?_concat (c : UseCall) :
    latest? (calls ++ [c]) i = if c.inst = i then some c else latest? calls i := by
  rw [latest?, List.reverse_append, List.reverse_singleton, List.singleton_append, List.find?_cons]
  split <;> simp_all [latest?]

theorem since_concat (c : UseCall) :
    since (calls ++ [c]) i = if c.inst = i then 0 else since calls i + 1 := by
  rw [since, List.reverse_append, List.reverse_singleton, List.singleton_append,
    List.takeWhile_cons]
  by_cases hc : c.inst = i <;> simp [hc, since]

theorem registered_concat (c : UseCall) :
    registered (calls ++ [c]) = note (registered calls) c := by
  rw [registered, List.foldl_append]
  rfl

theorem mem_note {is : List InstId} {c : UseCall} :
    i ∈ note is c ↔ i ∈ is ∧ i ≠ c.inst ∨ c.registers = true ∧ i = c.inst := by
  cases hc : c.registers <;> simp [note, hc]

theorem mem_registered : i ∈ registered calls ↔ Registered calls i := by
  induction calls using List.reverseRecOn with
  | nil => simp [registered, Registered, latest?]
  | append_singleton calls c ih =>
    rw [registered_concat, mem_note, ih]
    simp only [Registered, latest?_concat]
    obtain ⟨j, registers⟩ := c
    by_cases hj : j = i
    · subst hj
      simp
    · simp [hj, Ne.symm hj]

/-- The later the latest call on an instruction, the later it stands. -/
theorem pairwise_registered :
    (registered calls).Pairwise fun i j => since calls j < since calls i := by
  induction calls using List.reverseRecOn with
  | nil => exact List.Pairwise.nil
  | append_singleton calls c ih =>
    rw [registered_concat, note]
    have hkept : ((registered calls).filter (· ≠ c.inst)).Pairwise fun i j =>
        since (calls ++ [c]) j < since (calls ++ [c]) i := by
      refine (ih.filter _).imp_of_mem fun {i j} hi hj hlt => ?_
      have hi : c.inst ≠ i := Ne.symm (by simpa using (List.mem_filter.mp hi).2)
      have hj : c.inst ≠ j := Ne.symm (by simpa using (List.mem_filter.mp hj).2)
      rw [since_concat, since_concat, if_neg hi, if_neg hj]
      exact Nat.succ_lt_succ hlt
    cases c.registers with
    | false => simpa using hkept
    | true =>
      refine List.pairwise_append.mpr ⟨hkept, List.pairwise_singleton _ _, fun i hi j hj => ?_⟩
      obtain rfl := List.mem_singleton.mp hj
      have hi : c.inst ≠ i := Ne.symm (by simpa using (List.mem_filter.mp hi).2)
      rw [since_concat, since_concat, if_pos rfl, if_neg hi]
      exact Nat.succ_pos _

end UseCall

/-! ## Lists in order -/

theorem pairwise_positionedValues (operands : List Operand) :
    (positionedValues operands).Pairwise fun p q => p.2 < q.2 := by
  have hpositions : (operands.zipIdx.map Prod.snd).Pairwise (· < ·) := by
    rw [List.zipIdx_map_snd]
    exact List.pairwise_lt_range'
  refine (List.pairwise_map.mp hpositions).filterMap _ ?_
  rintro ⟨x, m⟩ ⟨y, n⟩ hlt ⟨v, k⟩ hx ⟨w, l⟩ hy
  obtain ⟨_, -, heq⟩ := Option.map_eq_some_iff.mp hx
  obtain ⟨_, -, heq'⟩ := Option.map_eq_some_iff.mp hy
  obtain ⟨-, rfl⟩ := Prod.mk.inj heq
  obtain ⟨-, rfl⟩ := Prod.mk.inj heq'
  exact hlt

namespace Function

open UseCall

variable {f g : Function} {is : List InstId} {i j : InstId} {v : ValueId}

/-- The uses of a value by an instruction, in order of its operands. -/
def usesBy (f : Function) (i : InstId) (v : ValueId) : List Use :=
  ((positionedValues (f.operands i)).filter (·.1 = v)).map fun p => Use.mk i p.2

theorem mem_usesBy {u : Use} :
    u ∈ f.usesBy i v ↔ u.user = i ∧ (f.operands i)[u.operandIndex]? = some (.value v) := by
  obtain ⟨j, k⟩ := u
  simp only [usesBy, List.mem_map, List.mem_filter, decide_eq_true_eq, Prod.exists, Use.mk.injEq]
  constructor
  · rintro ⟨w, n, ⟨hp, rfl⟩, rfl, rfl⟩
    exact ⟨rfl, mem_positionedValues.mp hp⟩
  · rintro ⟨rfl, hk⟩
    exact ⟨v, k, ⟨mem_positionedValues.mpr hk, rfl⟩, rfl, rfl⟩

theorem pairwise_usesBy :
    (f.usesBy i v).Pairwise fun u w => u.operandIndex < w.operandIndex :=
  List.pairwise_map.mpr ((pairwise_positionedValues _).filter _)

theorem usesBy_congr (h : g.operands i = f.operands i) : g.usesBy i v = f.usesBy i v := by
  rw [usesBy, usesBy, h]

/-- The list of each value goes through the instructions in order, and holds nothing else. -/
def UsesInOrder (f : Function) (is : List InstId) : Prop :=
  ∀ v, f.usesOf v = is.flatMap fun i => f.usesBy i v

namespace UsesInOrder

theorem congr (h : f.UsesInOrder is) (ho : ∀ j, g.operands j = f.operands j)
    (hu : g.uses = f.uses) : g.UsesInOrder is := by
  intro v
  have huses : g.usesOf v = f.usesOf v := by rw [usesOf, usesOf, hu]
  rw [huses, h v]
  exact List.flatMap_congr fun j _ => (usesBy_congr (ho j)).symm

theorem flatMap_filter_ne (F : InstId → List Use) :
    (is.filter (· ≠ i)).flatMap F = is.flatMap fun j => if j = i then [] else F j := by
  induction is with
  | nil => rfl
  | cons j is ih =>
    rw [List.flatMap_cons, ← ih]
    by_cases hj : j = i <;> simp [hj]

/-- An instruction without operands may be left out. -/
theorem without (h : f.UsesInOrder is) (hi : f.operands i = []) :
    f.UsesInOrder (is.filter (· ≠ i)) := by
  intro v
  rw [h v, flatMap_filter_ne]
  refine List.flatMap_congr fun j _ => ?_
  split
  · rename_i hj
    rw [hj, usesBy, hi]
    rfl
  · rfl

theorem dropUses (h : f.UsesInOrder is) (i : InstId) :
    (f.dropUses i).UsesInOrder (is.filter (· ≠ i)) := by
  intro v
  rw [usesOf_dropUses, h v, List.filter_flatMap, flatMap_filter_ne]
  refine List.flatMap_congr fun j _ => ?_
  split
  · rename_i hj
    subst hj
    refine List.filter_eq_nil_iff.mpr fun u hu => ?_
    simpa [mem_positionedValues] using mem_usesBy.mp hu
  · rename_i hj
    refine List.filter_eq_self.mpr fun u hu => ?_
    simp [(mem_usesBy.mp hu).1, hj]

/-- Operands that are given to an instruction whose uses are not listed. -/
theorem registerUses (h : f.UsesInOrder is) (hi : i ∉ is) {operands : List Operand}
    (ho : ∀ j, g.operands j = if i = j then operands else f.operands j)
    (hu : g.uses = (f.registerUses i operands).uses) : g.UsesInOrder (is ++ [i]) := by
  intro v
  have huses : g.usesOf v = (f.registerUses i operands).usesOf v := by rw [usesOf, usesOf, hu]
  have hnew : g.operands i = operands := by rw [ho, if_pos rfl]
  rw [huses, usesOf_registerUses, List.flatMap_append, List.flatMap_singleton, h v]
  congr 1
  · refine List.flatMap_congr fun j hj => (usesBy_congr ?_).symm
    rw [ho, if_neg (ne_of_mem_of_not_mem hj hi).symm]
  · rw [usesBy, hnew]

end UsesInOrder

theorem usesInOrder_empty (name : String) : (empty name).UsesInOrder [] := fun v =>
  SideTable.get_empty v

/-- **What one request makes of the order of the lists.** -/
theorem UsesInOrder.request {r : Request} (h : f.UsesInOrder is) (hg : r.run f = .ok () g) :
    g.UsesInOrder ((r.useCall? f).elim is (note is)) := by
  have hl := Request.run_eq_ok_iff.mp hg
  have hnot : ∀ i, i ∉ is.filter (· ≠ i) := fun i hi => by simp at hi
  cases r with
  | addParam name | addBlock label =>
    subst hl
    exact h.congr (fun _ => rfl) rfl
  | create d =>
    obtain ⟨hnone, rfl⟩ := hl
    have hbefore := h.without (operands_of_not_has not_has_next)
    have hnew : (({ f with insts := f.insts.push d } : Function).registerUses f.insts.next
        d.operands).UsesInOrder (is.filter (· ≠ f.insts.next) ++ [f.insts.next]) :=
      hbefore.registerUses (hnot _) (fun j => operands_push d) rfl
    simpa [Request.useCall?, hnone, note] using hnew
  | defineResult i name =>
    obtain ⟨-, rfl⟩ := hl
    exact h.congr (fun _ => rfl) rfl
  | setOperands i operands =>
    obtain ⟨hi, rfl⟩ := hl
    have hnew : (((f.dropUses i).registerUses i operands).withOperands i operands).UsesInOrder
        (is.filter (· ≠ i) ++ [i]) :=
      (h.dropUses i).registerUses (hnot i) (fun _ => operands_replaced hi) rfl
    simpa [Request.useCall?, hi, note] using hnew
  | append b i =>
    obtain ⟨-, -, -, rfl⟩ := hl
    exact h.congr (fun _ => operands_withParent _) rfl
  | insertBefore anchor i =>
    obtain ⟨-, -, b, -, -, rfl⟩ := hl
    exact h.congr (fun _ => operands_withParent _) rfl
  | detach i =>
    obtain ⟨-, hnone, rfl⟩ | ⟨b, hb, -, rfl⟩ := hl
    · simpa [Request.useCall?, isAttached, hnone] using h
    · have hplaced : ((f.withParent i none).editBlock b (·.filter (· ≠ i))).UsesInOrder is :=
        h.congr (fun _ => operands_withParent _) rfl
      simpa [Request.useCall?, isAttached, hb, note] using hplaced.dropUses i

end Function

end SsaPrune
