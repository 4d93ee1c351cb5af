import SsaPrune.Proofs.Text.Construction
import SsaPrune.Proofs.Text.Places
import SsaPrune.Proofs.Text.ReadBack
import SsaPrune.Proofs.Text.WellFormed

/-!
# Reading undoes writing

A function that spells a source tree is written as the tree is, `Function.Spells.text_eq`. So the
text of functions that were read is the writing of well-formed trees, and reading it gives trees that
differ from those in their places only.
-/

namespace SsaPrune

namespace Function

variable {f : Function}

/-! ## The text of a function that spells a tree -/

theorem valueLabel_of_name {v : ValueId} {n : String} (h : f.valueName? v = some n) :
    f.valueLabel v = "%" ++ n := by
  rw [valueLabel, h]
  rfl

theorem blockLabel_of_labelled {label : String} {b : BlockId} (h : f.Labelled label b) :
    f.blockLabel b = Source.labelText label := by
  rw [blockLabel, show f.blockLabel? b = some label from h]
  rfl

theorem operandText_of_bears {x : Source.Operand} {y : Operand} (h : f.Bears x y) :
    f.operandText y = x.text := by
  cases x <;> cases y
  case name.value n v => exact valueLabel_of_name h
  case imm.imm n k =>
    obtain rfl : n = k := h
    rfl
  all_goals exact absurd h (by simp [Bears])

theorem map_eq_of_forall₂ {α β γ : Type} {R : α → β → Prop} {g : β → γ} {k : α → γ}
    (hR : ∀ a b, R a b → g b = k a) {as : List α} {bs : List β} (h : List.Forall₂ R as bs) :
    bs.map g = as.map k := by
  induction h with
  | nil => rfl
  | cons h _ ih => rw [List.map_cons, List.map_cons, hR _ _ h, ih]

theorem successorsText_of_labelled {labels : List String} {bs : List BlockId}
    (h : List.Forall₂ f.Labelled labels bs) :
    f.successorsText bs = Source.successorsText labels := by
  have hmap : bs.map f.blockLabel = labels.map Source.labelText :=
    map_eq_of_forall₂ (fun _ _ hb => blockLabel_of_labelled hb) h
  cases h with
  | nil => rfl
  | cons hb hbs =>
    change " [" ++ ", ".intercalate _ ++ "]" = " [" ++ ", ".intercalate _ ++ "]"
    rw [hmap]

/-- The incoming pairs of a phi are written from its blocks and its operands side by side. -/
theorem map_incomingText {pairs : List (Source.Operand × String)} {bs : List BlockId}
    {xs : List Operand} (hb : List.Forall₂ f.Labelled (pairs.map (·.2)) bs)
    (hx : List.Forall₂ f.Bears (pairs.map (·.1)) xs) :
    (bs.zip xs).map f.incomingText = pairs.map Source.pairText := by
  induction pairs generalizing bs xs with
  | nil =>
    cases hb
    rfl
  | cons pair pairs ih =>
    cases hb with
    | cons hb hbs =>
      cases hx with
      | cons hx hxs =>
        rw [List.zip_cons_cons, List.map_cons, List.map_cons, ih hbs hxs, incomingText,
          operandText_of_bears hx, blockLabel_of_labelled hb]
        rfl

theorem argumentsText_of_spells {written : Source.Inst} {i : InstId} {d : Instruction}
    (hw : written.WellFormed) (ho : f.Outlines written i d)
    (hx : List.Forall₂ f.Bears written.arguments.operands d.operands) :
    f.argumentsText d = written.arguments.text := by
  have hsucc := ho.successors
  have hphi := ho.phiBlocks
  have hkind : written.arguments.isIncoming = d.opcode.isPhi := by
    rw [hw.isIncoming, Opcode.isPhi, decide_eq_decide, ← ho.opcode, Opcode.name_inj]
  unfold argumentsText
  cases hargs : written.arguments with
  | plain operands successors =>
    rw [hargs] at hsucc hx hkind
    have hno : d.opcode.isPhi = false := hkind.symm
    have hoperands : d.operands.map f.operandText = operands.map Source.Operand.text :=
      map_eq_of_forall₂ (fun _ _ hb => operandText_of_bears hb) hx
    rw [hno, if_neg (by decide), hoperands, successorsText_of_labelled hsucc]
    rfl
  | incoming pairs =>
    rw [hargs] at hphi hx hkind
    have hyes : d.opcode.isPhi = true := hkind.symm
    rw [hyes, if_pos rfl, Instruction.incoming, map_incomingText hphi hx]
    rfl

theorem instText_of_spells {written : Source.Inst} {i : InstId} (hw : written.WellFormed)
    (h : f.SpellsInst written i) : f.instText i = written.text := by
  obtain ⟨d, ho, hx⟩ := h
  have hresult : f.resultText (f.result? i) = Source.resultText written.result := by
    rcases ho.result with ⟨hw, hf⟩ | ⟨n, v, hw, hf, hname⟩
    · rw [hw, hf]
      rfl
    · rw [hw, hf, resultText, valueLabel_of_name hname]
      rfl
  rw [instText, ho.inst]
  change f.instructionText (f.result? i) d = _
  rw [instructionText, hresult, ho.opcode, ho.callee, argumentsText_of_spells hw ho hx]
  rfl

theorem blockText_of_spells {block : Source.Block} {b : BlockId} (hw : block.WellFormed)
    (h : f.SpellsBlock block b) : f.blockText b = block.text := by
  obtain ⟨hlabel, hinsts⟩ := h
  have hlines := (List.forall₂_and_left _ _).mpr ⟨hw.insts, hinsts⟩
  have hmap : (f.instsOf b).map (fun i => "    " ++ f.instText i ++ "\n") =
      block.insts.map fun inst => "    " ++ inst.text ++ "\n" :=
    map_eq_of_forall₂ (fun inst i hi => by rw [instText_of_spells hi.1 hi.2]) hlines
  rw [blockText, blockLabel_of_labelled hlabel, hmap]
  rfl

/-- **A function is written as the tree that it spells.** -/
theorem Spells.text_eq {source : Source.Function} (h : f.Spells source) (hw : source.WellFormed) :
    f.text = source.text := by
  have hblocks := (List.forall₂_and_left _ _).mpr ⟨hw.blocks, h.blocks⟩
  have hparams : f.params.map f.valueLabel = source.params.map ("%" ++ ·) :=
    map_eq_of_forall₂ (fun _ _ hn => valueLabel_of_name hn) h.params
  have hlayout : f.layout.map f.blockText = source.blocks.map Source.Block.text :=
    map_eq_of_forall₂ (fun _ _ hb => blockText_of_spells hb.1 hb.2) hblocks
  rw [text, h.name, hparams, hlayout]
  rfl

/-! ## Every reading of the writer succeeds -/

theorem Closed.has_operandLookups {i : InstId} {d : Instruction} (h : f.Closed)
    (hd : f.inst? i = some d) {x : Operand} (hx : x ∈ d.operands) :
    ∀ l ∈ operandLookups x, f.Has l := by
  intro l hl
  cases x with
  | imm n => cases hl
  | value v =>
    obtain rfl := List.mem_singleton.mp hl
    exact h.inst i d hd _ (List.mem_append_left _ (List.mem_map.mpr ⟨v, mem_values.mpr hx, rfl⟩))

theorem has_value_of_definition {v : ValueId} {d : Definition} (h : f.definition? v = some d) :
    f.Has (.value v) := by
  obtain ⟨info, hinfo, -⟩ := Option.map_eq_some_iff.mp h
  exact f.has_value.mpr ((Arena.get?_isSome_iff _ _).mp (by rw [← value?, hinfo]; rfl))

theorem Coherent.has_instLookups (h : f.Coherent) (hc : f.Closed) {i : InstId} (hi : f.Has (.inst i)) :
    ∀ l ∈ f.instLookups i, f.Has l := by
  obtain ⟨d, hd⟩ := has_inst_iff.mp hi
  intro l hl
  simp only [instLookups, hd, Option.map_some, Option.getD_some, List.mem_cons, List.mem_append,
    List.mem_map, Option.mem_toList] at hl
  rcases hl with rfl | ⟨v, hv, rfl⟩ | hl
  · exact hi
  · exact has_value_of_definition ((h.definitions.result_iff i v).mp hv)
  · unfold argumentLookups at hl
    split at hl
    · obtain ⟨pair, hpair, hl⟩ := List.mem_flatMap.mp hl
      obtain ⟨hb, hx⟩ := List.of_mem_zip (a := pair.1) (b := pair.2) hpair
      rcases List.mem_append.mp hl with hl | hl
      · exact hc.has_operandLookups hd hx l hl
      · obtain rfl := List.mem_singleton.mp hl
        exact hc.has_block hd (List.mem_append_right _ hb)
    · rcases List.mem_append.mp hl with hl | hl
      · obtain ⟨x, hx, hl⟩ := List.mem_flatMap.mp hl
        exact hc.has_operandLookups hd hx l hl
      · obtain ⟨b, hb, rfl⟩ := List.mem_map.mp hl
        exact hc.has_block hd (List.mem_append_left _ hb)

/-- Everything that is written exists. -/
theorem Built.has_lookups (h : f.Built) (hc : f.Closed) : ∀ l ∈ f.lookups, f.Has l := by
  intro l hl
  have hplaces := h.coherent.places
  rcases List.mem_append.mp hl with hl | hl
  · obtain ⟨v, hv, rfl⟩ := List.mem_map.mp hl
    obtain ⟨k, hk⟩ := List.mem_iff_getElem?.mp hv
    exact has_value_of_definition ((h.coherent.definitions.param_iff k v).mp hk)
  · obtain ⟨b, hb, hl⟩ := List.mem_flatMap.mp hl
    rcases List.mem_cons.mp hl with rfl | hl
    · exact hplaces.mem_layout_iff.mp hb
    · obtain ⟨i, hi, hl⟩ := List.mem_flatMap.mp hl
      exact h.coherent.has_instLookups hc (has_inst_of_parent ((hplaces.parent_iff i b).mpr hi)) l hl

theorem Built.print_eq_ok (h : f.Built) (hc : f.Closed) : f.print = .ok f.text := by
  unfold print
  rw [f.require_eq_ok_iff.mpr (h.has_lookups hc)]
  rfl

/-- Functions in which all that is named exists are written without a fault. -/
theorem printModule_eq_ok {fs : List Function} (h : ∀ f ∈ fs, f.Built ∧ f.Closed) :
    printModule fs = .ok (moduleText fs) := by
  have hread : fs.forM (fun f => f.require f.lookups) = (.ok () : Except Fault Unit) := by
    induction fs with
    | nil => rfl
    | cons f fs ih =>
      obtain ⟨⟨hb, hc⟩, hfs⟩ := List.forall_mem_cons.mp h
      change (f.require f.lookups >>= fun _ => fs.forM fun f => f.require f.lookups) = _
      rw [f.require_eq_ok_iff.mpr (hb.has_lookups hc)]
      exact ih hfs
  unfold printModule
  rw [hread]
  rfl

end Function

/-! ## Modules -/

namespace Source

theorem spells_of_resolveAll {seen : List String} {sources : List Function}
    {fs : List SsaPrune.Function} (h : resolveAll seen sources = .ok fs) :
    (∀ f ∈ fs, f.Composed) ∧
      List.Forall₂ (fun source (f : SsaPrune.Function) => f.Spells source) sources fs := by
  have hspells := (forall₂_resolve_of_resolveAll h).imp fun _ _ => Function.spells_of_resolve
  exact ⟨forall_of_forall₂ (fun _ _ hf => hf.1) hspells, hspells.imp fun _ _ hf => hf.2⟩

end Source

theorem parseModule_eq_ok {text : String} {fs : List Function} : parseModule text = .ok fs ↔
    ∃ sources rest, Source.readModule text.toList = .ok sources rest ∧
      Source.resolveAll [] sources = .ok fs := by
  unfold parseModule parseChars Source.ofText
  cases hread : Source.readModule text.toList with
  | error e rest => simp [Except.bind, Except.mapError]
  | ok sources rest =>
    cases hall : Source.resolveAll [] sources with
    | error p => simp [Except.bind, Except.mapError, hall]
    | ok gs => simp [Except.bind, Except.mapError, hall]

/-- A function that was read from a text is composed. -/
theorem composed_of_parseModule {text : String} {fs : List Function}
    (h : parseModule text = .ok fs) : ∀ f ∈ fs, f.Composed := by
  obtain ⟨sources, rest, -, hall⟩ := parseModule_eq_ok.mp h
  exact (Source.spells_of_resolveAll hall).1

/-- Functions are written as the trees that they spell. -/
theorem printModule_of_spells {sources : List Source.Function} {fs : List Function}
    (hw : ∀ source ∈ sources, source.WellFormed) (hf : ∀ f ∈ fs, f.Built ∧ f.Closed)
    (h : List.Forall₂ (fun source (f : Function) => f.Spells source) sources fs) :
    Function.printModule fs = .ok (Source.moduleText sources) := by
  have hspells := (List.forall₂_and_left _ _).mpr ⟨hw, h⟩
  rw [Function.printModule_eq_ok hf, Function.moduleText, Source.moduleText,
    Function.map_eq_of_forall₂ (fun _ _ hf => hf.2.text_eq hf.1) hspells]

/-- What is read from the writing of some trees are the functions that the trees stand for, if they
stand for any. -/
theorem parseModule_moduleText_iff {sources : List Source.Function} {fs : List Function}
    (hw : ∀ source ∈ sources, source.WellFormed) :
    parseModule (Source.moduleText sources) = .ok fs ↔ Source.resolveAll [] sources = .ok fs := by
  obtain ⟨sources', hbare, hread⟩ := Source.readModule_moduleText hw
  rw [parseModule_eq_ok]
  constructor
  · rintro ⟨sources'', rest, hread', hall⟩
    obtain ⟨rfl, -⟩ := EStateM.Result.ok.inj (hread.symm.trans hread')
    exact Source.resolveAll_of_bare hbare hall
  · exact fun hall => ⟨sources', [], hread, Source.resolveAll_of_bare hbare.symm hall⟩

theorem parseModule_moduleText {sources : List Source.Function} {fs : List Function}
    (hw : ∀ source ∈ sources, source.WellFormed) (hall : Source.resolveAll [] sources = .ok fs) :
    parseModule (Source.moduleText sources) = .ok fs :=
  (parseModule_moduleText_iff hw).mpr hall

/-- **Reading undoes writing.** Functions that were read from a text can be written, and reading what
was written gives the same functions, down to the order of every list and the numbers of all
entities. -/
theorem parseModule_printModule {text : String} {fs : List Function}
    (h : parseModule text = .ok fs) :
    ∃ written, Function.printModule fs = .ok written ∧ parseModule written = .ok fs := by
  obtain ⟨sources, rest, hread, hall⟩ := parseModule_eq_ok.mp h
  obtain ⟨hcomposed, hspells⟩ := Source.spells_of_resolveAll hall
  have hwf := Source.wellFormed_of_readModule hread
  have hf : ∀ f ∈ fs, f.Built ∧ f.Closed := fun f hf => ⟨(hcomposed f hf).built, (hcomposed f hf).closed⟩
  exact ⟨_, printModule_of_spells hwf hf hspells, parseModule_moduleText hwf hall⟩

/-- A text with a comment, a block without a label and blanks of its own. -/
def cramped : String := "func@f(%a)\x7b%x=add %a,-1;sum\nret %x\n\x7d"

/-- It is written with a label and one line for each instruction. -/
theorem parseModule_printModule_unlabelled : ∃ f written, parseModule cramped = .ok [f] ∧
    f.name = "f" ∧ written = "func @f(%a) \x7b\n  ^entry:\n    %x = add %a, -1\n    ret %x\n\x7d\n" ∧
    Function.printModule [f] = .ok written ∧ parseModule written = .ok [f] := by
  have hruns : Run.yieldsOne (parseModule cramped) (fun f => f.name = "f" ∧
      Function.printModule [f] =
        .ok "func @f(%a) \x7b\n  ^entry:\n    %x = add %a, -1\n    ret %x\n\x7d\n") = true := by
    decide +kernel
  obtain ⟨f, hparse, hchecks⟩ := Run.exists_of_yieldsOne hruns
  obtain ⟨hname, hprint⟩ := of_decide_eq_true hchecks
  obtain ⟨written, hwritten, hagain⟩ := parseModule_printModule hparse
  exact ⟨f, written, hparse, hname, Except.ok.inj (hwritten.symm.trans hprint), hwritten, hagain⟩

end SsaPrune
