import SsaPrune.Proofs.Text.Names
import SsaPrune.Proofs.Text.Trees

/-!
# Writing loses nothing but the numbers

The arenas of a function hold entities in the order in which they were created, and some that no block
holds any more. A text has no room for that: it shows the parameters, the blocks and their instructions in
the order in which they stand. So the function that is read from the text of another one is that function
with other numbers (`Function.Renumbers`), where values and blocks correspond when they stand at the same
place. `exists_parse_print` says that this is all that changes.
-/

namespace SsaPrune

/-! ## Related lists -/

section Lists

variable {α β γ δ : Type} {R : α → β → Prop} {S : γ → δ → Prop} {as : List α} {bs : List β}
  {cs : List γ} {ds : List δ}

theorem forall₂_imp_of_mem {T : α → β → Prop} (h : List.Forall₂ R as bs)
    (hT : ∀ a ∈ as, ∀ b, R a b → T a b) : List.Forall₂ T as bs :=
  ((List.forall₂_and_left _ _).mpr ⟨hT, h⟩).imp fun _ b hb => hb.1 b hb.2

/-- Related lists are related place by place. -/
theorem forall₂_mem_zip (h : List.Forall₂ R as bs) :
    List.Forall₂ (fun a b => (a, b) ∈ as.zip bs ∧ R a b) as bs := by
  obtain ⟨hlength, hall⟩ := List.forall₂_iff_zip.mp h
  exact List.forall₂_iff_zip.mpr ⟨hlength, fun hab => ⟨hab, hall hab⟩⟩

/-- Where `R` leads to one member only, it says which members stand at the same place. -/
theorem mem_zip_iff_of_forall₂ (h : List.Forall₂ R as bs) (hR : ∀ a b b', R a b → R a b' → b = b')
    {a : α} {b : β} : (a, b) ∈ as.zip bs ↔ a ∈ as ∧ R a b := by
  constructor
  · exact fun hab => ⟨(List.of_mem_zip hab).1, (List.forall₂_iff_zip.mp h).2 hab⟩
  · rintro ⟨ha, hab⟩
    obtain ⟨c, -, hac, hRac⟩ := exists_mem_of_forall₂ (forall₂_mem_zip h) ha
    rwa [hR a b c hab hRac]

/-- Where `R` leads to one member only and comes from one only, members at the same place are equal
together. -/
theorem eq_iff_of_mem_zip (h : List.Forall₂ R as bs) (hR : ∀ a b b', R a b → R a b' → b = b')
    (hinj : ∀ a ∈ as, ∀ a' ∈ as, ∀ b, R a b → R a' b → a = a') {a a' : α} {b b' : β}
    (hab : (a, b) ∈ as.zip bs) (hab' : (a', b') ∈ as.zip bs) : a = a' ↔ b = b' := by
  obtain ⟨ha, hRab⟩ := (mem_zip_iff_of_forall₂ h hR).mp hab
  obtain ⟨ha', hRab'⟩ := (mem_zip_iff_of_forall₂ h hR).mp hab'
  constructor
  · rintro rfl
    exact hR a b b' hRab hRab'
  · rintro rfl
    exact hinj a ha a' ha' b hRab hRab'

theorem forall₂_zip (hR : List.Forall₂ R as bs) (hS : List.Forall₂ S cs ds) :
    List.Forall₂ (fun p q => R p.1 q.1 ∧ S p.2 q.2) (as.zip cs) (bs.zip ds) := by
  induction hR generalizing cs ds with
  | nil => exact .nil
  | cons hab _ ih =>
    cases hS with
    | nil => exact .nil
    | cons hcd hS => exact .cons ⟨hab, hcd⟩ (ih hS)

end Lists

namespace Function

/-! ## Functions that differ in numbers only -/

section Same

variable (f g : Function)

/-- The values stand at the same place among those that are declared. -/
def SameValue (v w : ValueId) : Prop := (v, w) ∈ f.declaredValues.zip g.declaredValues

/-- The blocks stand at the same place of the layout. -/
def SameBlock (b c : BlockId) : Prop := (b, c) ∈ f.layout.zip g.layout

def SameOperand : Operand → Operand → Prop
  | .value v, .value w => f.SameValue g v w
  | .imm n, .imm k => n = k
  | _, _ => False

/-- The instructions are the same, up to the numbers of values and blocks. -/
structure SameInstruction (d e : Instruction) : Prop where
  opcode : e.opcode = d.opcode
  callee : e.callee = d.callee
  operands : List.Forall₂ (f.SameOperand g) d.operands e.operands
  successors : List.Forall₂ (f.SameBlock g) d.successors e.successors
  incoming : d.opcode.isPhi = true → List.Forall₂
    (fun p q => f.SameBlock g p.1 q.1 ∧ f.SameOperand g p.2 q.2) d.incoming e.incoming

def SameInst (i j : InstId) : Prop :=
  (∃ d e, f.inst? i = some d ∧ g.inst? j = some e ∧ f.SameInstruction g d e) ∧
    Option.Rel (f.SameValue g) (f.result? i) (g.result? j)

/-- `g` is `f` with other numbers for its entities. The names of `g` are the labels of `f`, and `g` has
nothing that does not stand in `f`. -/
structure Renumbers : Prop where
  name : g.name = f.name
  params : List.Forall₂ (f.SameValue g) f.params g.params
  blocks : List.Forall₂ (fun b c => f.SameBlock g b c ∧
    List.Forall₂ (f.SameInst g) (f.instsOf b) (g.instsOf c)) f.layout g.layout
  value_inj : ∀ v v' w w', f.SameValue g v w → f.SameValue g v' w' → (v = v' ↔ w = w')
  block_inj : ∀ b b' c c', f.SameBlock g b c → f.SameBlock g b' c' → (b = b' ↔ c = c')
  placed : ∀ j, g.Has (.inst j) → j ∈ g.attached
  valueNames : ∀ w, g.Has (.value w) →
    ∃ v n, f.SameValue g v w ∧ g.valueName? w = some n ∧ f.valueLabel v = "%" ++ n
  blockLabels : ∀ c, g.Has (.block c) →
    ∃ b l, f.SameBlock g b c ∧ g.blockLabel? c = some l ∧ f.blockLabel b = "^" ++ l

end Same

variable {f g : Function}

/-- Where everything is named, every value is declared. -/
theorem Named.mem_declaredValues (hn : g.Named) (hg : g.Sound) {w : ValueId}
    (hw : g.Has (.value w)) : w ∈ g.declaredValues := by
  refine (mem_declaredValues_iff hg.built.coherent).mpr ⟨hw, isDangling_eq_false_iff.mpr fun i hi => ?_⟩
  exact hg.places.isAttached_iff.mpr (hn.placed i (hg.closed.definition w i hi))

/-! ## Functions that spell the tree of another one -/

section Tree

variable (h : g.Spells f.tree)
include h

theorem Spells.forall₂_blockWord :
    List.Forall₂ (fun b c => g.blockLabel? c = some (f.blockWord b)) f.layout g.layout := by
  have hlabels := h.forall₂_labels
  rw [labels_tree] at hlabels
  exact List.forall₂_map_left_iff.mp hlabels

theorem Spells.forall₂_valueWord (hp : f.PlacesAgree) : List.Forall₂
    (fun v w => g.valueName? w = some (f.valueWord v)) f.declaredValues g.declaredValues := by
  have hnames := h.forall₂_valueNames
  rw [valueNames_tree hp] at hnames
  exact List.forall₂_map_left_iff.mp hnames

variable (hn : g.Named)
include hn

/-- A block stands at the same place as the one whose word is its label. -/
theorem Spells.sameBlock_iff {b c : BlockId} :
    f.SameBlock g b c ↔ b ∈ f.layout ∧ g.blockLabel? c = some (f.blockWord b) :=
  mem_zip_iff_of_forall₂ h.forall₂_blockWord fun _ c c' => hn.label_inj c c' _

/-- A value stands at the same place as the one whose word is its name. -/
theorem Spells.sameValue_iff (hp : f.PlacesAgree) {v w : ValueId} :
    f.SameValue g v w ↔ v ∈ f.declaredValues ∧ g.valueName? w = some (f.valueWord v) :=
  mem_zip_iff_of_forall₂ (h.forall₂_valueWord hp) fun _ w w' => hn.value_inj w w' _

theorem Spells.sameBlocks {bs cs : List BlockId} (hbs : ∀ b ∈ bs, b ∈ f.layout)
    (hbc : List.Forall₂ g.Labelled (bs.map f.blockWord) cs) :
    List.Forall₂ (f.SameBlock g) bs cs := by
  rw [List.forall₂_map_left_iff] at hbc
  exact forall₂_imp_of_mem hbc fun b hb c hlabel => (h.sameBlock_iff hn).mpr ⟨hbs b hb, hlabel⟩

theorem Spells.sameOperands (hp : f.PlacesAgree) {xs ys : List Operand}
    (hxs : ∀ v, .value v ∈ xs → v ∈ f.declaredValues)
    (hxy : List.Forall₂ g.Bears (xs.map f.operandTree) ys) :
    List.Forall₂ (f.SameOperand g) xs ys := by
  rw [List.forall₂_map_left_iff] at hxy
  refine forall₂_imp_of_mem hxy fun x hx y hxy => ?_
  cases x <;> cases y
  case value.value => exact (h.sameValue_iff hn hp).mpr ⟨hxs _ hx, hxy⟩
  all_goals exact hxy

variable (hs : f.Sound) (ho : f.Orderly) (hd : f.OperandsDefined)
include hs ho hd

theorem Spells.sameInst {b : BlockId} {i j : InstId} (hi : i ∈ f.instsOf b)
    (hij : g.SpellsInst (f.instTree i) j) : f.SameInst g i j := by
  have hattached : i ∈ f.attached := hs.places.mem_attached hi
  obtain ⟨d, hinst⟩ := hs.places.exists_inst? hi
  have hflaws := ho.flawless b i hi d hinst
  have hlabel : ∀ c ∈ d.successors ++ d.phiBlocks, c ∈ f.layout := fun c hc =>
    hs.places.mem_layout_iff.mpr (hs.closed.has_block hinst hc)
  rw [instTree_of_inst? hinst] at hij
  obtain ⟨e, hline, hoperands⟩ := hij
  have hoperands : List.Forall₂ g.Bears (d.operands.map f.operandTree) e.operands :=
    operands_argumentsTree hflaws ▸ hoperands
  have hsuccessors : List.Forall₂ g.Labelled (d.successors.map f.blockWord) e.successors :=
    successors_argumentsTree hflaws ▸ hline.successors
  have hsame : List.Forall₂ (f.SameOperand g) d.operands e.operands :=
    h.sameOperands hn hs.places (fun v hv => hd.mem_declaredValues hs.built.coherent hattached hinst hv)
      hoperands
  refine ⟨⟨d, e, hinst, hline.inst, Opcode.name_inj.mp hline.opcode, hline.callee, hsame, ?_, ?_⟩, ?_⟩
  · exact h.sameBlocks hn (fun c hc => hlabel c (List.mem_append_left _ hc)) hsuccessors
  · intro hphi
    have hincoming := hline.phiBlocks
    rw [show (f.instructionTree (f.result? i) d).arguments.incomingLabels = _ from
      incomingLabels_argumentsTree hflaws, if_pos hphi] at hincoming
    exact forall₂_zip (h.sameBlocks hn (fun c hc => hlabel c (List.mem_append_right _ hc)) hincoming)
      hsame
  · rcases hline.result with ⟨hw, hr'⟩ | ⟨n, w, hw, hr', hname⟩
    · rw [Option.map_eq_none_iff.mp hw, hr']
      exact .none
    · obtain ⟨v, hr, rfl⟩ := Option.map_eq_some_iff.mp hw
      rw [hr, hr']
      have hv := List.mem_append_right f.params (List.mem_filterMap.mpr ⟨i, hattached, hr⟩)
      exact .some ((h.sameValue_iff hn hs.places).mpr ⟨hv, hname⟩)

/-- **A function that spells the tree of another one is that function with other numbers.** -/
theorem Spells.renumbers (hf : f.Printable) (hg : g.Sound) : f.Renumbers g where
  name := h.name
  params := by
    have hparams := List.forall₂_map_left_iff.mp h.params
    refine forall₂_imp_of_mem hparams fun v hv w hname => ?_
    exact (h.sameValue_iff hn hs.places).mpr ⟨List.mem_append_left _ hv, hname⟩
  blocks := by
    have hblocks := List.forall₂_map_left_iff.mp h.blocks
    refine (forall₂_mem_zip hblocks).imp fun b c ⟨hbc, _, hinsts⟩ => ⟨hbc, ?_⟩
    have hinsts := List.forall₂_map_left_iff.mp hinsts
    exact forall₂_imp_of_mem hinsts fun i hi j hij => h.sameInst hn hs ho hd hi hij
  value_inj _ _ _ _ := by
    refine eq_iff_of_mem_zip (h.forall₂_valueWord hs.places) (fun _ w w' => hn.value_inj w w' _) ?_
    intro v hv v' hv' w hname hname'
    have hword := Option.some.inj (hname.symm.trans hname')
    exact List.inj_on_of_nodup_map hf.values hv hv' (congrArg ("%" ++ ·) hword)
  block_inj _ _ _ _ := by
    refine eq_iff_of_mem_zip h.forall₂_blockWord (fun _ c c' => hn.label_inj c c' _) ?_
    intro b hb b' hb' c hlabel hlabel'
    have hword := Option.some.inj (hlabel.symm.trans hlabel')
    exact List.inj_on_of_nodup_map hf.blocks hb hb' (congrArg ("^" ++ ·) hword)
  placed := hn.placed
  valueNames w hw := by
    obtain ⟨v, -, hvw, hname⟩ := exists_mem_of_forall₂
      (forall₂_mem_zip (h.forall₂_valueWord hs.places)).flip (hn.mem_declaredValues hg hw)
    exact ⟨v, f.valueWord v, hvw, hname, rfl⟩
  blockLabels c hc := by
    obtain ⟨b, -, hbc, hlabel⟩ := exists_mem_of_forall₂
      (forall₂_mem_zip h.forall₂_blockWord).flip (hg.places.mem_layout_iff.mpr hc)
    exact ⟨b, f.blockWord b, hbc, hlabel, rfl⟩

end Tree

end Function

/-! ## Reading the text of a function -/

/-- What is read from the writing of a tree is the function that the tree stands for. -/
theorem parseFunction_text {source : Source.Function} {g : Function} (hw : source.WellFormed)
    (hg : source.resolve = .ok g) : parseFunction source.text = .ok g := by
  have hall : Source.resolveAll [] [source] = .ok [g] :=
    Source.resolveAll_cons.mpr ⟨List.not_mem_nil, g, [], hg, rfl, rfl⟩
  have hread := parseModule_moduleText (List.forall_mem_singleton.mpr hw) hall
  have htext : Source.moduleText [source] = source.text := rfl
  rw [htext] at hread
  rw [parseFunction, hread]
  rfl

/-- **Writing a function loses nothing but the numbers.** However a function was built: when the validator
accepts it, and what stands in its text are names and distinct, the text is read as the same function with
other numbers, which is written as the same text. -/
theorem exists_parse_print {f : Function} (hs : f.Sound) (hv : f.validate = .ok [])
    (hf : f.Printable) : ∃ text g, f.print = .ok text ∧ parseFunction text = .ok g ∧
      f.Renumbers g ∧ g.print = .ok text := by
  obtain ⟨ho, hd⟩ := (Function.validate_eq_ok_nil_iff hs.places).mp hv
  have hw := hf.wellFormed_tree hs ho hd
  obtain ⟨g, hg⟩ := Source.Function.resolve_isOk_iff.mpr (hf.declared_tree hs ho hd)
  obtain ⟨hcomposed, hspells⟩ := Source.Function.spells_of_resolve hg
  have hn := Source.Function.named_of_resolve hg
  have hgs : g.Sound := ⟨hcomposed.built, hcomposed.closed⟩
  -- `f` need not spell its tree, whose words may be texts of entities; what is read from it does
  have htext : f.tree.text = f.text := Function.tree_text hs.places
  refine ⟨f.text, g, hs.built.print_eq_ok hs.closed, ?_, hspells.renumbers hn hs ho hd hf hgs, ?_⟩
  · exact htext ▸ parseFunction_text hw hg
  · rw [hgs.built.print_eq_ok hgs.closed, hspells.text_eq hw, htext]

/-- A loop that is put together out of order, beside an instruction that no block holds, whose result has
a name that stands in the text for another value. -/
theorem exists_parse_print_loop : ∃ f text g, Session f ∧
    text = "func @f(%v0) \x7b\n  ^block0:\n    br [^loop]\n" ++
      "  ^loop:\n    %x = phi [%v0, ^block0], [%v2, ^loop]\n    %v2 = call @g %x, -2\n" ++
      "    condbr %v2 [^loop, ^loop]\n\x7d\n" ∧
    f.print = .ok text ∧ parseFunction text = .ok g ∧ f.Renumbers g ∧ g.print = .ok text := by
  have hnew : Session (.empty "f") := .new "f"
  have hparam := hnew.action (.request (.addParam none)) (by decide)
  have hentry := hparam.action (.request (.addBlock none)) (by decide)
  have hloop := hentry.action (.request (.addBlock (some "loop"))) (by decide)
  have hneg := hloop.action (.build ⟨{ opcode := .neg, operands := [.value ⟨0⟩] }, some (some "x")⟩)
    (by decide)
  have hbr := hneg.action (.buildIn ⟨{ opcode := .br, successors := [⟨1⟩] }, none⟩ ⟨0⟩) (by decide)
  have hcall := hbr.action (.build ⟨{ opcode := .call, callee := some "g" }, some none⟩) (by decide)
  have hphi := hcall.action (.buildIn ⟨{ opcode := .phi, phiBlocks := [⟨0⟩, ⟨1⟩] }, some (some "x")⟩ ⟨1⟩)
    (by decide)
  have hback := hphi.action
    (.buildIn ⟨{ opcode := .condbr, operands := [.value ⟨2⟩], successors := [⟨1⟩, ⟨1⟩] }, none⟩ ⟨1⟩)
    (by decide)
  have hplaced := hback.action (.request (.insertBefore ⟨4⟩ ⟨2⟩)) (by decide)
  have hfilled := hplaced.action (.request (.setOperands ⟨3⟩ [.value ⟨0⟩, .value ⟨2⟩])) (by decide)
  have hused := hfilled.action (.request (.setOperands ⟨2⟩ [.value ⟨3⟩, .imm (-2)])) (by decide)
  obtain ⟨text, g, hprint, hparse, hrenumbers, hprint'⟩ :=
    exists_parse_print hused.sound (by decide +kernel) (by decide +kernel)
  refine ⟨_, text, g, hused, Except.ok.inj (hprint.symm.trans ?_), hprint, hparse, hrenumbers, hprint'⟩
  decide +kernel

end SsaPrune
