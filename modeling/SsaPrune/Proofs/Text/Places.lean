import SsaPrune.Proofs.Text.Additions
import SsaPrune.Proofs.Text.Written

/-!
# Places matter to errors only

The texts that the parts of a source tree keep say where an error is. A construction that succeeds
does not depend on them: `resolveAll_of_bare` says that trees which differ in these texts alone stand
for the same functions.
-/

namespace SsaPrune

namespace Build

variable {α β α' β' : Type} {R : α → β → Prop} {S : α' → β' → Prop} {start start' : List Char}

/-- Where the first step succeeds, the second one does, with the same scope and a related answer. -/
def Follows (R : α → β → Prop) (m : Build α) (m' : Build β) : Prop :=
  ∀ s a t, m s = .ok (a, t) → ∃ b, m' s = .ok (b, t) ∧ R a b

theorem Follows.refl (m : Build α) : Follows (· = ·) m m := fun _ a _ h => ⟨a, h, rfl⟩

theorem follows_pure {a : α} {b : β} (h : R a b) : Follows R (pure a) (pure b) := fun s c t hc => by
  obtain ⟨rfl, rfl⟩ := Prod.mk.inj (pure_eq_ok.mp hc)
  exact ⟨b, rfl, h⟩

theorem Follows.bind {m : Build α} {m' : Build β} {k : α → Build α'} {k' : β → Build β'}
    (h : Follows R m m') (hk : ∀ a b, R a b → Follows S (k a) (k' b)) :
    Follows S (m >>= k) (m' >>= k') := fun s a' t ha' => by
  obtain ⟨a, u, ha, hka⟩ := bind_eq_ok.mp ha'
  obtain ⟨b, hb, hR⟩ := h s a u ha
  obtain ⟨b', hkb, hS⟩ := hk a b hR u a' t hka
  exact ⟨b', bind_eq_ok.mpr ⟨b, u, hb, hkb⟩, hS⟩

theorem Follows.mapM {Q : α' → β' → Prop} {k : α' → Build α} {k' : β' → Build β}
    (hk : ∀ x y, Q x y → Follows R (k x) (k' y)) {xs : List α'} {ys : List β'}
    (h : List.Forall₂ Q xs ys) : Follows (List.Forall₂ R) (xs.mapM k) (ys.mapM k') := by
  induction h with
  | nil =>
    simp only [List.mapM_nil]
    exact follows_pure .nil
  | cons hxy _ ih =>
    simp only [List.mapM_cons]
    exact (hk _ _ hxy).bind fun a b hab => ih.bind fun as bs habs => follows_pure (.cons hab habs)

theorem Follows.forM {Q : α' → β' → Prop} {k : α' → Build PUnit} {k' : β' → Build PUnit}
    (hk : ∀ x y, Q x y → Follows (· = ·) (k x) (k' y)) {xs : List α'} {ys : List β'}
    (h : List.Forall₂ Q xs ys) : Follows (· = ·) (xs.forM k) (ys.forM k') := by
  induction h with
  | nil => exact .refl _
  | cons hxy _ ih => exact (hk _ _ hxy).bind fun _ _ _ => ih

/-! ## The steps of the construction -/

theorem follows_addParam (name : String) :
    Follows (· = ·) (addParam start name) (addParam start' name) :=
  fun _ _ _ h => ⟨_, addParam_eq_ok_iff.mpr (addParam_eq_ok_iff.mp h), rfl⟩

theorem follows_addBlock {block block' : Source.Block} (h : block.label = block'.label) :
    Follows (· = ·) (addBlock block) (addBlock block') := by
  intro s b t hb
  have hadds := addBlock_eq_ok_iff.mp hb
  rw [h] at hadds
  exact ⟨b, addBlock_eq_ok_iff.mpr hadds, rfl⟩

theorem follows_addInst (b : BlockId) {inst inst' : Source.Inst} (h : inst.bare = inst'.bare) :
    Follows (· = ·) (addInst b inst) (addInst b inst') := by
  obtain ⟨start, result, opcode, callee, arguments⟩ := inst
  obtain ⟨start', result', opcode', callee', arguments'⟩ := inst'
  obtain ⟨-, rfl, rfl, rfl, rfl⟩ := Source.Inst.mk.inj h
  intro s i t hi
  obtain ⟨d, g₁, g₂, g, hd, hnew, hg, rfl, rfl⟩ := addInst_eq_ok_iff.mp hi
  have hd' : s.Drafts ⟨start', result, opcode, callee, arguments⟩ d :=
    ⟨hd.opcode, hd.successors, hd.phiBlocks, hd.callee, hd.operands, hd.parent⟩
  exact ⟨_, addInst_eq_ok_iff.mpr ⟨d, g₁, g₂, g, hd', hnew, hg, rfl, rfl⟩, rfl⟩

theorem follows_addOperands (i : InstId) {inst inst' : Source.Inst} (h : inst.bare = inst'.bare) :
    Follows (· = ·) (addOperands i inst) (addOperands i inst') := by
  have harguments : inst.arguments = inst'.arguments := (Source.Inst.mk.inj h).2.2.2.2
  intro s u t hu
  have hadds := addOperands_eq_ok_iff.mp hu
  rw [harguments] at hadds
  exact ⟨u, addOperands_eq_ok_iff.mpr hadds, rfl⟩

/-- Pairs of the same entity with trees that differ in their places. -/
def SameBare {α γ δ : Type} (bare : γ → δ) (p q : α × γ) : Prop := p.1 = q.1 ∧ bare p.2 = bare q.2

theorem forall₂_of_map_eq {γ δ : Type} {bare : γ → δ} {xs ys : List γ}
    (h : xs.map bare = ys.map bare) : List.Forall₂ (fun x y => bare x = bare y) xs ys := by
  have heq : List.Forall₂ (· = ·) (xs.map bare) (ys.map bare) := by
    rw [List.forall₂_eq_eq_eq]
    exact h
  rwa [List.forall₂_map_left_iff, List.forall₂_map_right_iff] at heq

theorem follows_addInsts (b : BlockId) {insts insts' : List Source.Inst}
    (h : insts.map Source.Inst.bare = insts'.map Source.Inst.bare) :
    Follows (List.Forall₂ (SameBare Source.Inst.bare))
      (insts.mapM fun inst => return (← addInst b inst, inst))
      (insts'.mapM fun inst => return (← addInst b inst, inst)) := by
  refine Follows.mapM (fun inst inst' hi => ?_) (forall₂_of_map_eq h)
  exact (follows_addInst b hi).bind fun i _ hi' => follows_pure ⟨hi', hi⟩

theorem follows_addFunction {source source' : Source.Function} (h : source.bare = source'.bare) :
    Follows (· = ·) (addFunction source) (addFunction source') := by
  obtain ⟨start, name, params, blocks⟩ := source
  obtain ⟨start', name', params', blocks'⟩ := source'
  obtain ⟨-, rfl, rfl, hblocks⟩ := Source.Function.mk.inj h
  have hparams : Follows (· = ·) (params.forM (addParam start)) (params.forM (addParam start')) :=
    Follows.forM (Q := (· = ·)) (fun n _ hn => hn ▸ follows_addParam n)
      (List.forall₂_same.mpr fun _ _ => rfl)
  refine hparams.bind fun _ _ _ => ?_
  refine (Follows.mapM (R := SameBare Source.Block.bare) (fun block block' hb => ?_)
    (forall₂_of_map_eq hblocks)).bind fun bs bs' hbs => ?_
  · have hlabel : block.label = block'.label := (Source.Block.mk.inj hb).2.1
    exact (follows_addBlock hlabel).bind fun b _ hb' => follows_pure ⟨hb', hb⟩
  refine (Follows.mapM (R := List.Forall₂ (SameBare Source.Inst.bare)) (fun p q hpq => ?_)
    hbs).bind fun iss iss' hiss => ?_
  · obtain ⟨b, block⟩ := p
    obtain ⟨b', block'⟩ := q
    obtain ⟨rfl, hb⟩ := hpq
    exact follows_addInsts b (Source.Block.mk.inj hb).2.2
  · refine Follows.forM (fun p q hpq => ?_) (List.rel_flatten hiss)
    obtain ⟨i, inst⟩ := p
    obtain ⟨i', inst'⟩ := q
    obtain ⟨rfl, hi⟩ := hpq
    exact follows_addOperands i hi

end Build

namespace Source

theorem Function.resolve_of_bare {source source' : Function} {f : SsaPrune.Function}
    (h : source.bare = source'.bare) (hf : source.resolve = .ok f) : source'.resolve = .ok f := by
  have hname : source.name = source'.name := (Function.mk.inj h).2.1
  unfold resolve at hf ⊢
  cases hadd : Build.addFunction source ⟨.empty source.name, [], []⟩ with
  | error e =>
    rw [hadd] at hf
    cases hf
  | ok r =>
    obtain ⟨u, t⟩ := r
    obtain ⟨u', hadd', -⟩ := Build.follows_addFunction h _ u t hadd
    rw [hadd] at hf
    rw [← hname, hadd']
    exact hf

theorem resolveAll_cons {seen : List String} {source : Function} {rest : List Function}
    {fs : List SsaPrune.Function} : resolveAll seen (source :: rest) = .ok fs ↔
      source.name ∉ seen ∧ ∃ f gs, source.resolve = .ok f ∧
        resolveAll (source.name :: seen) rest = .ok gs ∧ fs = f :: gs := by
  rw [resolveAll]
  by_cases hseen : source.name ∈ seen
  · simp only [hseen, if_true, not_true, false_and, iff_false]
    exact fun h => by cases h
  · simp only [hseen, if_false, not_false_iff, true_and]
    cases source.resolve with
    | error e => simp [bind, Except.bind]
    | ok f =>
      cases resolveAll (source.name :: seen) rest with
      | error e => simp [bind, Except.bind]
      | ok gs => simp [bind, Except.bind, pure, Except.pure, eq_comm]

/-- Trees stand for functions one by one, apart from their names. -/
theorem resolveAll_eq_ok_iff {seen : List String} {sources : List Function}
    {fs : List SsaPrune.Function} : resolveAll seen sources = .ok fs ↔
      (sources.map (·.name)).Nodup ∧ (∀ source ∈ sources, source.name ∉ seen) ∧
        List.Forall₂ (fun source f => Function.resolve source = .ok f) sources fs := by
  induction sources generalizing seen fs with
  | nil =>
    rw [List.forall₂_nil_left_iff]
    constructor
    · intro h
      exact ⟨List.nodup_nil, by simp, (Except.ok.inj h).symm⟩
    · rintro ⟨-, -, rfl⟩
      rfl
  | cons source sources ih =>
    rw [resolveAll_cons, List.forall₂_cons_left_iff, List.map_cons, List.nodup_cons,
      List.forall_mem_cons]
    constructor
    · rintro ⟨hseen, f, gs, hf, hgs, rfl⟩
      obtain ⟨hnodup, hnew, hresolve⟩ := ih.mp hgs
      refine ⟨⟨fun hmem => ?_, hnodup⟩, ⟨hseen, fun g hg => ?_⟩, f, gs, hf, hresolve, rfl⟩
      · obtain ⟨g, hg, heq⟩ := List.mem_map.mp hmem
        exact hnew g hg (heq ▸ List.mem_cons_self)
      · exact fun hc => hnew g hg (List.mem_cons_of_mem _ hc)
    · rintro ⟨⟨hname, hnodup⟩, ⟨hseen, hnew⟩, f, gs, hf, hresolve, rfl⟩
      refine ⟨hseen, f, gs, hf, ih.mpr ⟨hnodup, fun g hg hmem => ?_, hresolve⟩, rfl⟩
      rcases List.mem_cons.mp hmem with heq | hmem
      · exact hname (List.mem_map.mpr ⟨g, hg, heq⟩)
      · exact hnew g hg hmem

theorem forall₂_resolve_of_resolveAll {seen : List String} {sources : List Function}
    {fs : List SsaPrune.Function} (h : resolveAll seen sources = .ok fs) :
    List.Forall₂ (fun source f => Function.resolve source = .ok f) sources fs :=
  (resolveAll_eq_ok_iff.mp h).2.2

/-- **Trees that differ in their places only stand for the same functions.** -/
theorem resolveAll_of_bare {seen : List String} {sources sources' : List Function}
    {fs : List SsaPrune.Function} (h : sources.map Function.bare = sources'.map Function.bare)
    (hf : resolveAll seen sources = .ok fs) : resolveAll seen sources' = .ok fs := by
  induction sources generalizing seen sources' fs with
  | nil =>
    obtain rfl := List.map_eq_nil_iff.mp h.symm
    exact hf
  | cons source sources ih =>
    obtain ⟨source', sources', rfl, hsource, hsources⟩ := List.map_eq_cons_iff.mp h.symm
    have hname : source.name = source'.name := (Function.mk.inj hsource.symm).2.1
    obtain ⟨hseen, f, gs, hone, hrest, rfl⟩ := resolveAll_cons.mp hf
    refine resolveAll_cons.mpr ⟨hname ▸ hseen, f, gs, Function.resolve_of_bare hsource.symm hone, ?_,
      rfl⟩
    exact hname ▸ ih hsources.symm hrest

end Source

end SsaPrune
