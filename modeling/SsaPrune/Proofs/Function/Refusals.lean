import SsaPrune.Proofs.Function.Built

/-!
# What a refused request leaves

A refused request should leave the function as it was, and nearly all do: what may fail is looked up
before anything is changed. Placing an instruction at the end of a block and taking one out are
different. They change the parent of the instruction first and look up the block then, so they *stumble*
when that block was never created, and stop halfway.

Only placing an instruction in such a block starts this. So where blocks are asked for that exist, every
refused request leaves the function as it was, `refused_final_eq`.
-/

namespace SsaPrune

namespace Edit

variable {α : Type} {x : Edit α} {f g : Function}

/-- The function that an edit leaves, whether or not it was refused. -/
def final (x : Edit α) (f : Function) : Function :=
  match x f with
  | .ok _ g => g
  | .error _ g => g

theorem final_of_ok {a : α} (h : x f = .ok a g) : x.final f = g := by
  rw [final, h]

theorem final_of_error {e : Fault} (h : x f = .error e g) : x.final f = g := by
  rw [final, h]

end Edit

namespace Request

variable {f g : Function} {r : Request} {rs : List Request} {e : Fault}

/-! ## Halfway -/

/-- The request changes a parent and then fails to find the block. -/
def Stumbles (f : Function) : Request → Prop
  | append b i => f.Has (.inst i) ∧ f.parent? i = none ∧ ¬f.Has (.block b)
  | detach i => ∃ b, f.parent? i = some b ∧ ¬f.Has (.block b)
  | _ => False

/-- The function after the part of a request that comes before the block is looked up. -/
def halfway (f : Function) : Request → Function
  | append b i => f.withParent i (some b)
  | detach i => f.withParent i none
  | _ => f

/-- A request that stumbles does not leave the function as it was. -/
theorem Stumbles.halfway_ne (h : r.Stumbles f) : r.halfway f ≠ f := by
  intro heq
  cases r with
  | append b i =>
    obtain ⟨hi, hnone, -⟩ := h
    obtain ⟨d, hd⟩ := Function.has_inst_iff.mp hi
    have hparent := f.parent?_withParent i i (some b)
    rw [if_pos rfl, hd, show f.withParent i (some b) = f from heq, hnone] at hparent
    cases hparent
  | detach i =>
    obtain ⟨b, hb, -⟩ := h
    obtain ⟨d, hd, -⟩ := (f.parent?_eq_some i).mp hb
    have hparent := f.parent?_withParent i i none
    rw [if_pos rfl, hd, show f.withParent i none = f from heq, hb] at hparent
    cases hparent
  | _ => exact h

/-- A refused request either stumbled, and stopped halfway, or did nothing. -/
theorem eq_of_run_eq_error (h : r.run f = .error e g) :
    r.Stumbles f ∧ g = r.halfway f ∨ ¬r.Stumbles f ∧ g = f := by
  have hsame : ∀ {fault k}, (.error fault k : EStateM.Result Fault Function Unit) = .error e g →
      g = k := fun hk => (EStateM.Result.error.inj hk).2.symm
  cases r with
  | addParam name | addBlock label => cases h
  | create d =>
    rw [run, Run.bind_apply, Edit.create_apply] at h
    cases hd : d.parent.isSome with
    | false => simp only [hd] at h; cases h
    | true =>
      simp only [hd] at h
      exact .inr ⟨id, hsame h⟩
  | defineResult i name =>
    rw [run, Run.bind_apply, Edit.defineResult_apply] at h
    cases hi : (f.result? i).isSome with
    | false => simp only [hi] at h; cases h
    | true =>
      simp only [hi] at h
      exact .inr ⟨id, hsame h⟩
  | setOperands i operands =>
    rw [run, Edit.setOperands_apply] at h
    split at h
    · cases h
    · exact .inr ⟨id, hsame h⟩
  | append b i =>
    rw [run, Edit.append_apply] at h
    rw [Stumbles, Function.has_inst_iff, Function.parent?, Function.has_block]
    cases hd : f.inst? i with
    | none =>
      simp only [hd] at h
      exact .inr ⟨by simp, hsame h⟩
    | some d =>
      simp only [hd] at h
      cases hp : d.parent with
      | some p =>
        simp only [hp] at h
        exact .inr ⟨by simp [hp], hsame h⟩
      | none =>
        simp only [hp] at h
        split at h
        · cases h
        · exact .inl ⟨⟨⟨d, rfl⟩, hp, ‹_›⟩, hsame h⟩
  | insertBefore anchor i =>
    rw [run, Edit.insertBefore_apply] at h
    refine .inr ⟨id, ?_⟩
    repeat' split at h
    all_goals first | exact hsame h | cases h
  | detach i =>
    rw [run, Edit.detach_apply] at h
    rw [Stumbles, Function.parent?]
    cases hd : f.inst? i with
    | none =>
      simp only [hd] at h
      exact .inr ⟨by simp, hsame h⟩
    | some d =>
      simp only [hd] at h
      cases hp : d.parent with
      | none => simp only [hp] at h; cases h
      | some b =>
        simp only [hp] at h
        split at h
        · cases h
        · exact .inl ⟨⟨b, hp, mt f.has_block.mp ‹_›⟩, hsame h⟩

/-! ## Where a parent comes from -/

/-- A parent that a successful request gives is a block that exists. -/
theorem parent?_of_run_eq_ok (hg : r.run f = .ok () g) {i : InstId} {b : BlockId}
    (hb : g.parent? i = some b) : f.parent? i = some b ∨ f.Has (.block b) := by
  have hl := run_eq_ok_iff.mp hg
  cases r with
  | addParam name | addBlock label =>
    subst hl
    exact .inl hb
  | create d =>
    obtain ⟨hnone, rfl⟩ := hl
    exact .inl ((Function.parent?_push d hnone i).symm.trans hb)
  | defineResult i name =>
    obtain ⟨-, rfl⟩ := hl
    exact .inl hb
  | setOperands j operands =>
    obtain ⟨-, rfl⟩ := hl
    exact .inl ((Function.parent?_withOperands j i operands).symm.trans hb)
  | append c j =>
    obtain ⟨-, -, hc, rfl⟩ := hl
    rcases Function.parent?_of_withParent hb with hb | heq
    · exact .inl hb
    · obtain rfl := Option.some.inj heq
      exact .inr hc
  | insertBefore anchor j =>
    obtain ⟨-, -, c, -, ha, rfl⟩ := hl
    have hc := Function.has_block_of_mem_instsOf ha
    rcases Function.parent?_of_withParent hb with hb | heq
    · exact .inl hb
    · obtain rfl := Option.some.inj heq
      exact .inr hc
  | detach j =>
    obtain ⟨-, -, rfl⟩ | ⟨c, -, -, rfl⟩ := hl
    · exact .inl hb
    · exact (Function.parent?_of_withParent hb).imp_right fun heq => by cases heq

/-- A parent that a request gives, refused or not, is the block that it names or one that exists. -/
theorem parent?_of_final {i : InstId} {b : BlockId} (hb : (r.run.final f).parent? i = some b) :
    f.parent? i = some b ∨ f.Has (.block b) ∨ ∃ j, r = append b j := by
  cases hr : r.run f with
  | ok u g =>
    rw [Edit.final_of_ok hr] at hb
    exact (parent?_of_run_eq_ok hr hb).imp_right .inl
  | error e g =>
    rw [Edit.final_of_error hr] at hb
    obtain ⟨hs, rfl⟩ | ⟨-, rfl⟩ := eq_of_run_eq_error hr
    · cases r with
      | append c j =>
        refine (Function.parent?_of_withParent hb).imp_right fun heq => .inr ⟨j, ?_⟩
        rw [Option.some.inj heq]
      | detach j => exact (Function.parent?_of_withParent hb).imp_right fun heq => by cases heq
      | _ => exact hs.elim
    · exact .inl hb

/-- No entity is lost by a request, refused or not. -/
theorem has_final {l : Lookup} (h : f.Has l) : (r.run.final f).Has l := by
  cases hr : r.run f with
  | ok u g =>
    rw [Edit.final_of_ok hr]
    exact Function.Has.request hr h
  | error e g =>
    rw [Edit.final_of_error hr]
    obtain ⟨-, rfl⟩ | ⟨-, rfl⟩ := eq_of_run_eq_error hr
    · cases r with
      | append b i | detach i => exact h.mono (by simp [halfway]) (Nat.le_refl _) (Nat.le_refl _)
      | _ => exact h
    · exact h

/-- Some requests one after the other, of which any may be refused. -/
def finalAll (rs : List Request) (f : Function) : Function := rs.foldl (fun f r => r.run.final f) f

/-- A block that is named as a parent exists, or an instruction was to be placed in it. -/
theorem parent?_finalAll {Q : BlockId → Prop} (hrs : ∀ b i, append b i ∈ rs → Q b)
    (hf : ∀ i b, f.parent? i = some b → f.Has (.block b) ∨ Q b) {i : InstId} {b : BlockId}
    (hb : (finalAll rs f).parent? i = some b) : (finalAll rs f).Has (.block b) ∨ Q b := by
  induction rs generalizing f with
  | nil => exact hf i b hb
  | cons r rs ih =>
    refine ih (f := r.run.final f) (fun c j hj => hrs c j (List.mem_cons_of_mem _ hj)) ?_ hb
    intro j c hc
    rcases parent?_of_final hc with hc | hc | ⟨k, rfl⟩
    · exact (hf j c hc).imp_left has_final
    · exact .inl (has_final hc)
    · exact .inr (hrs c k List.mem_cons_self)

/-- **What a refused request leaves**, after any requests on a new function: all as it was, unless it
stumbled; and none stumbles where instructions are placed in blocks that exist only. -/
theorem refused_final_eq (name : String) (rs : List Request) (r : Request) {e : Fault} {g : Function}
    (h : r.run (finalAll rs (.empty name)) = .error e g) :
    (g = finalAll rs (.empty name) ↔ ¬r.Stumbles (finalAll rs (.empty name))) ∧
    (r.Stumbles (finalAll rs (.empty name)) → g = r.halfway (finalAll rs (.empty name))) ∧
    ((∀ b i, append b i ∈ r :: rs → (finalAll rs (.empty name)).Has (.block b)) →
      g = finalAll rs (.empty name)) := by
  have hparents : ∀ i b, (finalAll rs (.empty name)).parent? i = some b →
      (finalAll rs (.empty name)).Has (.block b) ∨ ∃ i, append b i ∈ rs := by
    refine fun i b => parent?_finalAll (Q := fun b => ∃ i, append b i ∈ rs) (fun b i hi => ⟨i, hi⟩)
      fun j c hc => ?_
    simp [Function.parent?, Function.inst?, Function.empty] at hc
  generalize finalAll rs (.empty name) = f at *
  obtain ⟨hs, rfl⟩ | ⟨hs, rfl⟩ := eq_of_run_eq_error h
  · refine ⟨iff_of_false hs.halfway_ne (not_not.mpr hs), fun _ => rfl, fun hall => ?_⟩
    exfalso
    cases r with
    | append b i => exact hs.2.2 (hall b i List.mem_cons_self)
    | detach i =>
      obtain ⟨b, hb, hno⟩ := hs
      rcases hparents i b hb with hb | ⟨j, hj⟩
      · exact hno hb
      · exact hno (hall b j (List.mem_cons_of_mem _ hj))
    | _ => exact hs
  · exact ⟨iff_of_true rfl hs, fun hs' => absurd hs' hs, fun _ => rfl⟩

/-- An instruction that was to be placed in a block that was never created is refused once more when
it is taken out; that clears its parent. -/
theorem refused_final_eq_lost :
    ∃ e g, (detach ⟨0⟩).run (finalAll [.addBlock (some "entry"), .create { opcode := .ret },
        .append ⟨5⟩ ⟨0⟩] (.empty "f")) = .error e g ∧
      g = (finalAll [.addBlock (some "entry"), .create { opcode := .ret },
        .append ⟨5⟩ ⟨0⟩] (.empty "f")).withParent ⟨0⟩ none := by
  have hrun : (detach ⟨0⟩).run (finalAll [.addBlock (some "entry"), .create { opcode := .ret },
        .append ⟨5⟩ ⟨0⟩] (.empty "f")) = .error (.outOfBounds 1 5) _ := rfl
  exact ⟨_, _, hrun, (refused_final_eq "f" _ _ hrun).2.1 ⟨⟨5⟩, rfl, by decide⟩⟩

/-- Placing an instruction in a block that was never created is refused, and not without a trace: the
instruction names that block from then on. -/
theorem append_refused_not_atomic : ∃ f : Function, f.Built ∧
    ∃ e g, (append ⟨5⟩ ⟨0⟩).run f = .error e g ∧ f.isAttached ⟨0⟩ = false ∧
      g.parent? ⟨0⟩ = some ⟨5⟩ ∧ g ≠ f := by
  refine ⟨_, .request (.create { opcode := .ret })
    (.request (.addBlock (some "entry")) (.empty "f") rfl) rfl, .outOfBounds 1 5, _, rfl, rfl, rfl, ?_⟩
  intro heq
  cases congrArg (·.parent? ⟨0⟩) heq

end Request

end SsaPrune
