import SsaPrune.Proofs.Function.UseLists

/-!
# Functions put together without taking anything out

The lists of uses follow the operands as long as no instruction leaves its block. A function is
*composed* when it was built without such a step, from entities that exist. Then the lists hold every
use of a value, and nothing else, `Composed.usesFollow`.
-/

namespace SsaPrune.Function

/-- A function that is built by requests about entities that exist, without taking an instruction out
of its block. -/
inductive Composed : Function → Prop
  | empty (name : String) : Composed (.empty name)
  | request {f g : Function} (r : Request) (h : Composed f) (hr : ∀ l ∈ r.lookups, f.Has l)
      (hkeep : ∀ i, r ≠ .detach i) (hg : r.run f = .ok () g) : Composed g

variable {f : Function} {i j : InstId}

theorem Composed.built (h : f.Composed) : f.Built := by
  induction h with
  | empty name => exact .empty name
  | request r _ _ _ hg ih => exact .request r ih hg

theorem Composed.closed (h : f.Composed) : f.Closed := by
  induction h with
  | empty name => exact closed_empty name
  | request r _ hr _ hg ih => exact ih.request hr hg

/-- Every use of a value by `i` stands in the list of uses of that value. -/
def UsesListed (f : Function) (i : InstId) : Prop :=
  ∀ v k, (v, k) ∈ positionedValues (f.operands i) → Use.mk i k ∈ f.usesOf v

theorem UsesListed.congr {g : Function} (h : f.UsesListed i) (ho : g.operands i = f.operands i)
    (hu : g.uses = f.uses) : g.UsesListed i := fun v k hk => by
  have := h v k (ho ▸ hk)
  rwa [usesOf, hu]

/-- What another instruction drops does not concern `j`. -/
theorem UsesListed.dropUses (h : f.UsesListed j) (hij : i ≠ j) : (f.dropUses i).UsesListed j := by
  intro v k hk
  rw [usesOf_dropUses]
  exact List.mem_filter.mpr ⟨h v k hk, by simp [Ne.symm hij]⟩

/-- **In a composed function the lists of uses hold the operands of all instructions**, and nothing
else. -/
theorem Composed.usesFollow (h : f.Composed) : f.UsesFollow fun _ => True := by
  induction h with
  | empty name => exact usesFollow_empty name _
  | @request f g r _ _ hkeep hg ih =>
    refine (ih.request hg).congr_listed fun j _ => ?_
    cases r <;> simp_all [Lists]

theorem Composed.usesListed (h : f.Composed) (i : InstId) : f.UsesListed i := fun v k hk =>
  ((h.usesFollow v).2 i k).mpr ⟨mem_positionedValues.mp hk, trivial⟩

end SsaPrune.Function
