import SsaPrune.Proofs.Function.Thinned

/-!
# Needless instructions

An instruction is *needless* when it may be removed and no instruction in a block uses its result. When
instructions are taken out, needless ones stay needless (`Thinned.needless`), so the order in which they
are taken out does not matter.

The lists of uses tell the needless instructions when they are *exact*: they hold the operands of the
instructions in blocks, and nothing else. So it is in a function that was read from a text, and taking
instructions out keeps it so.
-/

namespace SsaPrune.Function

variable {f g h : Function} {out out' : List InstId} {i : InstId}

/-- The instruction may be removed, and nothing in a block uses its result. -/
def Needless (f : Function) (i : InstId) : Prop :=
  f.isRemovable i = true ∧ ∀ v, f.result? i = some v → ∀ j ∈ f.attached, v ∉ f.valueOperands j

/-- Nothing in a block is needless. -/
def Needed (f : Function) : Prop := ∀ i ∈ f.attached, ¬f.Needless i

/-- What is needless stays so in a part of the function that has fewer instructions. -/
theorem Thinned.needless (hg : f.Thinned g out) (hh : f.Thinned h out')
    (hsub : ∀ j ∈ h.attached, j ∈ g.attached) (hi : g.Needless i) : h.Needless i := by
  obtain ⟨hremovable, hnone⟩ := hi
  refine ⟨?_, fun v hv j hj huse => ?_⟩
  · rw [hh.isRemovable, ← hg.isRemovable]
    exact hremovable
  · rw [hh.result?, ← hg.result?] at hv
    rw [hh.valueOperands, ← hg.valueOperands] at huse
    exact hnone v hv j (hsub j hj) huse

/-! ## Exact lists of uses -/

/-- The lists of uses hold the operands of the instructions that a block holds, and nothing else. -/
def UsesExact (f : Function) : Prop := f.UsesFollow (· ∈ f.attached)

namespace UsesExact

theorem usesOf_eq_nil_iff (hu : f.UsesExact) {v : ValueId} :
    f.usesOf v = [] ↔ ∀ j ∈ f.attached, v ∉ f.valueOperands j := by
  have hoperand (j : InstId) :
      v ∈ f.valueOperands j ↔ ∃ k : Nat, (f.operands j)[k]? = some (Operand.value v) := by
    rw [mem_valueOperands, List.mem_iff_getElem?]
  rw [List.eq_nil_iff_forall_not_mem]
  constructor
  · intro hnil j hj hmem
    obtain ⟨k, hk⟩ := (hoperand j).mp hmem
    exact hnil ⟨j, k⟩ (((hu v).2 j k).mpr ⟨hk, hj⟩)
  · rintro hnone ⟨j, k⟩ hmem
    obtain ⟨hk, hj⟩ := ((hu v).2 j k).mp hmem
    exact hnone j hj ((hoperand j).mpr ⟨k, hk⟩)

/-- The lists of uses tell what is needless. -/
theorem isUnused_iff (hu : f.UsesExact) : f.isUnused i = true ↔ f.Needless i := by
  rw [isUnused, Bool.and_eq_true, Needless]
  apply and_congr_right
  intro _
  cases f.result? i with
  | none => simp
  | some v => simp [hasUses, hu.usesOf_eq_nil_iff]

theorem detach (hu : f.UsesExact) (h : f.Built) (hi : i ∈ f.attached)
    (hg : Edit.detach i f = .ok () g) : g.UsesExact := by
  have hrun : (Request.detach i).run f = .ok () g := hg
  have hp := h.coherent.places
  obtain ⟨g', hg', -, ht, -⟩ := detach_eq_ok h (hp.has_attached hi)
  obtain ⟨-, rfl⟩ := EStateM.Result.ok.inj (hg.symm.trans hg')
  refine (hu.request hrun).congr_listed fun j _ => ?_
  rw [ht.mem_attached, List.mem_singleton]
  exact and_congr_right fun _ => not_congr (and_iff_left (hp.isAttached_iff.mpr hi))

end UsesExact

end SsaPrune.Function
