import SsaPrune.Function.Edit

/-!
# What an update changes and what it leaves alone

The readings of a function after each of its updates: placing an instruction in a block touches the
parent of that instruction and the list of that block, new operands touch the operands, and a change
to the uses touches nothing but the uses.

The uses themselves are described by two equations. `usesOf_registerUses` says that new uses stand
at the end of the list of their value, `usesOf_dropUses` that dropping keeps the order of the rest.
-/

namespace SsaPrune

/-! ## Positioned values -/

theorem mem_positionedValues {operands : List Operand} {v : ValueId} {k : Nat} :
    (v, k) ∈ positionedValues operands ↔ operands[k]? = some (.value v) := by
  simp only [positionedValues, List.mem_filterMap, Option.map_eq_some_iff, Prod.mk.injEq,
    Prod.exists, List.mem_zipIdx_iff_getElem?]
  constructor
  · rintro ⟨x, n, hx, w, hw, rfl, rfl⟩
    cases x with
    | value u =>
      obtain rfl : u = w := by simpa [Operand.value?] using hw
      exact hx
    | imm n => simp [Operand.value?] at hw
  · intro h
    exact ⟨_, _, h, v, rfl, rfl, rfl⟩

theorem mem_values {d : Instruction} {v : ValueId} : v ∈ d.values ↔ .value v ∈ d.operands := by
  simp only [Instruction.values, List.mem_filterMap]
  constructor
  · rintro ⟨x, hx, hv⟩
    cases x with
    | value u =>
      obtain rfl : u = v := by simpa [Operand.value?] using hv
      exact hx
    | imm n => simp [Operand.value?] at hv
  · exact fun h => ⟨_, h, rfl⟩

/-! ## The list of a block -/

theorem mem_putBefore {anchor i j : InstId} {is : List InstId} (h : anchor ∈ is) :
    j ∈ putBefore anchor i is ↔ j = i ∨ j ∈ is := by
  induction is with
  | nil => simp at h
  | cons x rest ih =>
    unfold putBefore
    split
    · simp
    · rename_i hne
      have hrest : anchor ∈ rest := by
        rcases List.mem_cons.mp h with rfl | h
        · exact absurd rfl hne
        · exact h
      simp only [List.mem_cons, ih hrest]
      exact or_left_comm

theorem nodup_putBefore {anchor i : InstId} {is : List InstId} (h : is.Nodup) (hi : i ∉ is) :
    (putBefore anchor i is).Nodup := by
  induction is with
  | nil => simp [putBefore]
  | cons x rest ih =>
    obtain ⟨hx, hrest⟩ := List.nodup_cons.mp h
    unfold putBefore
    split
    · exact List.nodup_cons.mpr ⟨hi, h⟩
    · refine List.nodup_cons.mpr ⟨fun hmem => ?_, ih hrest fun hr => hi (by simp [hr])⟩
      by_cases ha : anchor ∈ rest
      · rcases (mem_putBefore ha).mp hmem with rfl | hmem
        · exact hi (by simp)
        · exact hx hmem
      · have : putBefore anchor i rest = rest := by
          clear ih h hx hrest hi hmem
          induction rest with
          | nil => rfl
          | cons y ys ihy =>
            simp only [List.mem_cons, not_or] at ha
            rw [putBefore, if_neg fun e => ha.1 e.symm, ihy ha.2]
        exact hx (this ▸ hmem)

namespace Function

variable (f : Function) (i j : InstId)

/-! ## Readings of an instruction -/

theorem mem_valueOperands {v : ValueId} :
    v ∈ f.valueOperands i ↔ .value v ∈ f.operands i := by
  unfold valueOperands operands
  cases f.inst? i with
  | none => simp
  | some d => exact mem_values

theorem parent?_eq_some {b : BlockId} :
    f.parent? i = some b ↔ ∃ d, f.inst? i = some d ∧ d.parent = some b := by
  simp [parent?, Option.bind_eq_some_iff]

theorem inst?_isSome_iff : (f.inst? i).isSome ↔ i.index < f.insts.size :=
  Arena.get?_isSome_iff _ _

section Known

variable {f i} {d : Instruction} (hd : f.inst? i = some d)
include hd

theorem operands_of_inst? : f.operands i = d.operands := by
  rw [operands, hd]
  rfl

theorem isTerminator_of_inst? : f.isTerminator i = d.opcode.isTerminator := by
  rw [isTerminator, hd]
  rfl

theorem isPhi_of_inst? : f.isPhi i = d.opcode.isPhi := by
  rw [isPhi, hd]
  rfl

theorem hasSideEffects_of_inst? : f.hasSideEffects i = d.opcode.hasSideEffects := by
  rw [hasSideEffects, hd]
  rfl

theorem incoming_of_inst? : f.incoming i = d.incoming := by
  rw [incoming, hd]
  rfl

end Known

/-! ## Placing an instruction -/

section Parent

variable (p : Option BlockId)

theorem inst?_withParent : (f.withParent i p).inst? j =
    if i = j then (f.inst? j).map ({ · with parent := p }) else f.inst? j :=
  Arena.get?_modify ..

theorem parent?_withParent : (f.withParent i p).parent? j =
    if i = j then (f.inst? j).bind fun _ => p else f.parent? j := by
  unfold parent?
  rw [inst?_withParent]
  split
  · cases f.inst? j <;> rfl
  · rfl

variable {f i j p} in
theorem parent?_of_withParent {b : BlockId} (h : (f.withParent i p).parent? j = some b) :
    f.parent? j = some b ∨ p = some b := by
  rw [parent?_withParent] at h
  split at h
  · obtain ⟨-, -, hp⟩ := Option.bind_eq_some_iff.mp h
    exact .inr hp
  · exact .inl h

/-- Readings that do not ask for the parent do not see where an instruction is placed. -/
theorem map_inst?_withParent {α : Type} (read : Instruction → α)
    (h : ∀ d : Instruction, read { d with parent := p } = read d) :
    ((f.withParent i p).inst? j).map read = (f.inst? j).map read := by
  rw [inst?_withParent]
  split
  · cases f.inst? j <;> simp [h]
  · rfl

@[simp] theorem blocks_withParent : (f.withParent i p).blocks = f.blocks := rfl

@[simp] theorem size_insts_withParent : (f.withParent i p).insts.size = f.insts.size :=
  Arena.size_modify ..

end Parent

/-! ## Changing the list of a block -/

section Block

variable (b c : BlockId) (change : List InstId → List InstId)

theorem instsOf_editBlock : (f.editBlock b change).instsOf c =
    if b = c ∧ c.index < f.blocks.size then change (f.instsOf c) else f.instsOf c := by
  have hget : (f.editBlock b change).block? c =
      if b = c then (f.block? c).map fun info => { info with insts := change info.insts }
      else f.block? c := Arena.get?_modify ..
  have hsome : (f.block? c).isSome ↔ c.index < f.blocks.size := Arena.get?_isSome_iff _ _
  unfold instsOf
  rw [hget]
  by_cases hbc : b = c
  · cases hc : f.block? c with
    | none =>
      have : ¬c.index < f.blocks.size := by simpa [hc] using hsome
      simp [hbc, this]
    | some info =>
      have : c.index < f.blocks.size := by simpa [hc] using hsome
      simp [hbc, this]
  · simp [hbc]

@[simp] theorem size_blocks_editBlock : (f.editBlock b change).blocks.size = f.blocks.size :=
  Arena.size_modify ..

theorem map_block?_editBlock {α : Type} (read : BlockInfo → α)
    (h : ∀ info is, read { info with insts := is } = read info) :
    ((f.editBlock b change).block? c).map read = (f.block? c).map read := by
  have hget : (f.editBlock b change).block? c =
      if b = c then (f.block? c).map fun info => { info with insts := change info.insts }
      else f.block? c := Arena.get?_modify ..
  rw [hget]
  split
  · cases f.block? c <;> simp [h]
  · rfl

theorem blockLabel?_editBlock : (f.editBlock b change).blockLabel? c = f.blockLabel? c := by
  have h := f.map_block?_editBlock b c change (·.label) fun _ _ => rfl
  have hbind : ∀ o : Option BlockInfo, o.bind (·.label) = (o.map (·.label)).join := fun o => by
    cases o <;> rfl
  rw [blockLabel?, blockLabel?, hbind, hbind, h]

@[simp] theorem inst?_editBlock : (f.editBlock b change).inst? j = f.inst? j := rfl

end Block

/-! ## Uses -/

section Uses

variable (operands : List Operand) (v : ValueId)

/-- Adding uses of `i` one after the other puts them at the ends of the lists of their values. -/
theorem get_foldl_addUse (vs : List (ValueId × Nat)) (t : SideTable .value (List Use)) :
    (vs.foldl (fun uses (v, position) => uses.modify v (· ++ [Use.mk i position])) t).get v =
      t.get v ++ ((vs.filter fun p => p.1 = v).map fun p => Use.mk i p.2) := by
  induction vs generalizing t with
  | nil => simp
  | cons p vs ih =>
    rw [List.foldl_cons, ih, SideTable.get_modify]
    by_cases h : p.1 = v <;> simp [h]

theorem usesOf_registerUses : (f.registerUses i operands).usesOf v = f.usesOf v ++
    (((positionedValues operands).filter fun p => p.1 = v).map fun p => Use.mk i p.2) :=
  get_foldl_addUse ..

/-- Dropping uses of `i` one after the other drops those at the given positions. -/
theorem get_foldl_dropUse (vs : List (ValueId × Nat)) (t : SideTable .value (List Use)) :
    (vs.foldl (fun uses (v, position) => uses.modify v (·.filter (· ≠ Use.mk i position))) t).get v =
      (t.get v).filter fun u => ¬(u.user = i ∧ (v, u.operandIndex) ∈ vs) := by
  induction vs generalizing t with
  | nil => exact (List.filter_eq_self.mpr fun _ _ => by simp).symm
  | cons p vs ih =>
    obtain ⟨w, k⟩ := p
    rw [List.foldl_cons, ih, SideTable.get_modify]
    by_cases h : w = v
    · subst h
      rw [if_pos rfl, List.filter_filter]
      refine List.filter_congr fun u _ => ?_
      obtain ⟨user, n⟩ := u
      simp only [List.mem_cons, Prod.mk.injEq, true_and]
      grind
    · rw [if_neg h]
      refine List.filter_congr fun u _ => ?_
      simp [Ne.symm h]

theorem usesOf_dropUses : (f.dropUses i).usesOf v = (f.usesOf v).filter fun u =>
    ¬(u.user = i ∧ (v, u.operandIndex) ∈ positionedValues (f.operands i)) :=
  get_foldl_dropUse ..

end Uses

end Function

end SsaPrune
