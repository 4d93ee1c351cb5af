import SsaPrune.Proofs.Function.Thinned
import SsaPrune.Proofs.Text.Declarations
import SsaPrune.Proofs.Validation

/-!
# What is left of a function can be read again

When instructions are taken out of a function that stands for a source tree, what is left stands for a
part of the tree: the same tree without the lines of these instructions (`Thinned.exists_part`). Such a
part is well formed, and no name is given twice in it. All names that it uses are given, if what is left
uses no definition that went (`Spells.known`); then it stands for a function as well.
-/

namespace SsaPrune

/-! ## Related lists -/

section Lists

variable {α β γ : Type} {R : α → β → Prop} {as : List α} {bs : List β}

/-- What is related to the members of a list that pass a test is a part of the other list. -/
theorem exists_sublist_of_forall₂_filter (p : β → Bool) (h : List.Forall₂ R as bs) :
    ∃ as', as'.Sublist as ∧ List.Forall₂ R as' (bs.filter p) := by
  induction h with
  | nil => exact ⟨[], .slnil, .nil⟩
  | @cons a b as bs hab _ ih =>
    obtain ⟨as', hsub, hrel⟩ := ih
    by_cases hb : p b = true
    · exact ⟨a :: as', hsub.cons_cons a, by rw [List.filter_cons_of_pos hb]; exact .cons hab hrel⟩
    · exact ⟨as', hsub.cons a, by rwa [List.filter_cons_of_neg hb]⟩

/-- Lists are related by way of a third one when their members are. -/
theorem exists_forall₂_between {S : γ → α → Prop} {T : γ → β → Prop}
    (hR : ∀ a b, R a b → ∃ c, S c a ∧ T c b) (h : List.Forall₂ R as bs) :
    ∃ cs, List.Forall₂ S cs as ∧ List.Forall₂ T cs bs := by
  induction h with
  | nil => exact ⟨[], .nil, .nil⟩
  | cons hab _ ih =>
    obtain ⟨c, hS, hT⟩ := hR _ _ hab
    obtain ⟨cs, hSs, hTs⟩ := ih
    exact ⟨c :: cs, .cons hS hSs, .cons hT hTs⟩

end Lists

/-! ## Parts of a tree -/

namespace Source

/-- The block without some of its lines. -/
structure Block.Part (part block : Block) : Prop where
  label : part.label = block.label
  insts : part.insts.Sublist block.insts

/-- The tree without some of its lines. -/
structure Function.Part (part source : Function) : Prop where
  name : part.name = source.name
  params : part.params = source.params
  blocks : List.Forall₂ Block.Part part.blocks source.blocks

namespace Function.Part

variable {part source : Function}

theorem labels (h : part.Part source) : part.labels = source.labels :=
  (SsaPrune.Function.map_eq_of_forall₂ (fun _ _ hone => hone.label.symm) h.blocks).symm

theorem insts (h : part.Part source) : part.insts.Sublist source.insts := by
  have hall : ∀ {parts blocks : List Block}, List.Forall₂ Block.Part parts blocks →
      (parts.flatMap (·.insts)).Sublist (blocks.flatMap (·.insts)) := fun hblocks => by
    induction hblocks with
    | nil => exact .slnil
    | cons hone _ ih =>
      rw [List.flatMap_cons, List.flatMap_cons]
      exact hone.insts.append ih
  exact hall h.blocks

theorem wellFormed (h : part.Part source) (hs : source.WellFormed) : part.WellFormed where
  name := h.name ▸ hs.name
  params := h.params ▸ hs.params
  blocks block hblock := by
    obtain ⟨whole, hwhole, hone⟩ := exists_mem_of_forall₂ h.blocks hblock
    obtain ⟨hlabel, hinsts⟩ := hs.blocks whole hwhole
    exact ⟨hone.label ▸ hlabel, fun inst hi => hinsts inst (hone.insts.subset hi)⟩

/-- A part is declared when the names that it uses are still given. -/
theorem declared (h : part.Part source) (hs : source.Declared)
    (hknown : ∀ inst ∈ part.insts, Build.Known part.valueNames inst) : part.Declared where
  values := by
    refine hs.values.sublist ?_
    rw [valueNames, valueNames, h.params]
    exact (List.Sublist.refl _).append (h.insts.filterMap _)
  blocks := h.labels ▸ hs.blocks
  fits inst hi := h.labels ▸ hs.fits inst (h.insts.subset hi)
  known := hknown

end Function.Part

end Source

namespace Function

variable {f g : Function} {out : List InstId} {source : Source.Function}

/-! ## What is left stands for a part -/

theorem Thinned.namesKept (ht : f.Thinned g out) : f.NamesKept g :=
  .of_eq ht.name ht.values ht.label

theorem Thinned.spellsInst (ht : f.Thinned g out) {written : Source.Inst} {i : InstId}
    (h : f.SpellsInst written i) : g.SpellsInst written i := by
  obtain ⟨d, ho, hx⟩ := h
  obtain ⟨p, hp⟩ := ht.exists_inst? ho.inst
  have hn := ht.namesKept
  refine ⟨{ d with parent := p }, ⟨hp, ho.opcode, ho.callee, ?_, ?_, ?_⟩, hx.imp fun _ _ => .mono hn⟩
  · exact ho.successors.imp fun l b => hn.label b l
  · exact ho.phiBlocks.imp fun l b => hn.label b l
  · rw [ht.result?]
    exact ho.result.imp_right fun ⟨n, v, hw, hv, hname⟩ => ⟨n, v, hw, hv, hn.value v n hname⟩

theorem Thinned.exists_part (ht : f.Thinned g out) (h : f.Spells source) :
    ∃ part, part.Part source ∧ g.Spells part := by
  have hblock : ∀ block b, f.SpellsBlock block b →
      ∃ part : Source.Block, part.Part block ∧ g.SpellsBlock part b := by
    rintro block b ⟨hlabel, hinsts⟩
    obtain ⟨insts, hsub, hleft⟩ := exists_sublist_of_forall₂_filter (· ∉ out) hinsts
    refine ⟨{ block with insts }, ⟨rfl, hsub⟩, ht.namesKept.label b _ hlabel, ?_⟩
    rw [ht.instsOf]
    exact hleft.imp fun _ _ => ht.spellsInst
  obtain ⟨blocks, hparts, hspells⟩ := exists_forall₂_between hblock h.blocks
  refine ⟨{ source with blocks }, ⟨rfl, rfl, hparts⟩, ht.name.trans h.name, ?_, ?_⟩
  · rw [ht.params]
    exact h.params.imp fun n v => ht.namesKept.value v n
  · rwa [ht.layout]

/-! ## Declared values -/

/-- The values that the text of a function declares: the parameters, and the results of the instructions
in blocks. -/
def declaredValues (f : Function) : List ValueId := f.params ++ f.attached.filterMap f.result?

/-- The declared values are those whose definition is part of the function. -/
theorem mem_declaredValues_iff (hf : f.Coherent) {v : ValueId} :
    v ∈ f.declaredValues ↔ f.Has (.value v) ∧ f.isDangling v = false := by
  constructor
  · intro hv
    rcases List.mem_append.mp hv with hv | hv
    · obtain ⟨k, hk⟩ := List.mem_iff_getElem?.mp hv
      have hdef := (hf.definitions.param_iff k v).mp hk
      exact ⟨has_value_of_definition hdef, isDangling_eq_false_iff.mpr fun i hi => by simp [hdef] at hi⟩
    · obtain ⟨i, hi, hr⟩ := List.mem_filterMap.mp hv
      have hdef := (hf.definitions.result_iff i v).mp hr
      refine ⟨has_value_of_definition hdef, isDangling_eq_false_iff.mpr fun j hj => ?_⟩
      obtain rfl := Definition.result.inj (Option.some.inj (hdef.symm.trans hj))
      exact hf.places.isAttached_iff.mpr hi
  · rintro ⟨hhas, hdefined⟩
    obtain ⟨info, hinfo⟩ := Option.isSome_iff_exists.mp
      ((Arena.get?_isSome_iff _ v).mpr (f.has_value.mp hhas))
    have hdef : f.definition? v = some info.definition := by rw [definition?, value?, hinfo]; rfl
    cases hd : info.definition with
    | param k =>
      rw [hd] at hdef
      exact List.mem_append_left _ (List.mem_of_getElem? ((hf.definitions.param_iff k v).mpr hdef))
    | result i =>
      rw [hd] at hdef
      have hi := hf.places.isAttached_iff.mp (isDangling_eq_false_iff.mp hdefined i hdef)
      exact List.mem_append_right _
        (List.mem_filterMap.mpr ⟨i, hi, (hf.definitions.result_iff i v).mpr hdef⟩)

/-! ## The entities of a tree -/

theorem SpellsInst.result {written : Source.Inst} {i : InstId} (h : f.SpellsInst written i) :
    Option.Rel (fun n v => f.valueName? v = some n) written.result (f.result? i) := by
  obtain ⟨d, ho, -⟩ := h
  rcases ho.result with ⟨hw, hr⟩ | ⟨n, v, hw, hr, hname⟩
  · rw [hw, hr]
    exact .none
  · rw [hw, hr]
    exact .some hname

section Spells

variable (h : f.Spells source)
include h

theorem Spells.forall₂_insts : List.Forall₂ f.SpellsInst source.insts f.attached :=
  List.rel_flatMap h.blocks fun _ _ hb => hb.2

/-- The declared values have the names that the tree gives. -/
theorem Spells.forall₂_valueNames :
    List.Forall₂ (fun n v => f.valueName? v = some n) source.valueNames f.declaredValues :=
  List.rel_append h.params (List.rel_filterMap (fun _ _ hi => hi.result) h.forall₂_insts)

/-- The blocks have the labels that the tree gives. -/
theorem Spells.forall₂_labels : List.Forall₂ f.Labelled source.labels f.layout :=
  List.forall₂_map_left_iff.mpr (h.blocks.imp fun _ _ hb => hb.1)

end Spells

/-! ## Names that are used are given -/

/-- The name of a value whose definition is part of the function is given in the tree. -/
theorem Spells.mem_valueNames (h : f.Spells source) (hf : f.Coherent) {v : ValueId} {n : String}
    (hname : f.valueName? v = some n) (hdefined : f.isDangling v = false) : n ∈ source.valueNames := by
  have hv := (mem_declaredValues_iff hf).mpr ⟨has_value_of_name hname, hdefined⟩
  obtain ⟨m, hm, hvm⟩ := exists_mem_of_forall₂ h.forall₂_valueNames.flip hv
  obtain rfl := Option.some.inj (hname.symm.trans hvm)
  exact hm

theorem Spells.known (h : f.Spells source) (hf : f.Coherent) (hd : f.OperandsDefined) :
    ∀ inst ∈ source.insts, Build.Known source.valueNames inst := by
  intro inst hinst n hn
  obtain ⟨i, hi, d, ho, hx⟩ := exists_mem_of_forall₂ h.forall₂_insts hinst
  obtain ⟨y, hy, hbears⟩ := exists_mem_of_forall₂ hx hn
  cases y with
  | imm k => exact False.elim hbears
  | value v =>
    have hv : v ∈ f.valueOperands i := by
      rw [mem_valueOperands, operands_of_inst? ho.inst]
      exact hy
    exact h.mem_valueNames hf hbears (hd i hi v hv).2

/-- **What is left of a function that was read can be read again**, when it uses no definition that
went. -/
theorem Thinned.exists_declared_part (ht : f.Thinned g out) (h : f.Spells source)
    (hw : source.WellFormed) (hs : source.Declared) (hg : g.Coherent) (hd : g.OperandsDefined) :
    ∃ part, part.Part source ∧ part.WellFormed ∧ part.Declared ∧ g.Spells part := by
  obtain ⟨part, hpart, hspells⟩ := ht.exists_part h
  exact ⟨part, hpart, hpart.wellFormed hw, hpart.declared hs (hspells.known hg hd), hspells⟩

end Function

end SsaPrune
