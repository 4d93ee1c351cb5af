import SsaPrune.Proofs.Sessions
import SsaPrune.Proofs.Text.Parts

/-!
# The tree of a function

Any function is written as some source tree, `Function.tree`: in the place of each value and each block
stands the word by which it is written, its name or else the text of the entity. Nothing is asked of the
names here, and of the order in which the arenas were filled only the layout matters.

The tree of a sound function that the validator accepts is well formed when the words are names
(`Spellable`), and declared when no word is declared twice (`declared_tree_iff`). It can be read again
when both is so, as when no two entities are written alike (`Printable`).
-/

namespace SsaPrune

theorem Entity.toList_text {k : Kind} (e : Entity k) :
    e.text.toList = k.stem.toList ++ Nat.toDigits 10 e.index := by
  rw [Entity.text, String.toList_append, Nat.toString_eq_repr, Nat.toList_repr]

namespace Function

variable (f : Function)

/-! ## Trees -/

/-- The word by which a value is written. -/
def valueWord (v : ValueId) : String := (f.valueName? v).getD v.text

/-- The word by which a block is written. -/
def blockWord (b : BlockId) : String := (f.blockLabel? b).getD b.text

def operandTree : Operand → Source.Operand
  | .value v => .name (f.valueWord v)
  | .imm n => .imm n

def argumentsTree (d : Instruction) : Source.Arguments :=
  if d.opcode.isPhi then
    .incoming (d.incoming.map fun pair => (f.operandTree pair.2, f.blockWord pair.1))
  else
    .plain (d.operands.map f.operandTree) (d.successors.map f.blockWord)

def instructionTree (result : Option ValueId) (d : Instruction) : Source.Inst where
  start := []
  result := result.map f.valueWord
  opcode := d.opcode.name
  callee := d.callee
  arguments := f.argumentsTree d

def instTree (i : InstId) : Source.Inst :=
  match f.inst? i with
  | some d => f.instructionTree (f.result? i) d
  | none => ⟨[], none, "", none, .plain [] []⟩

def blockTree (b : BlockId) : Source.Block where
  start := []
  label := f.blockWord b
  insts := (f.instsOf b).map f.instTree

def tree : Source.Function where
  start := []
  name := f.name
  params := f.params.map f.valueWord
  blocks := f.layout.map f.blockTree

variable {f}

theorem instTree_of_inst? {i : InstId} {d : Instruction} (hd : f.inst? i = some d) :
    f.instTree i = f.instructionTree (f.result? i) d := by
  rw [instTree, hd]

/-! ## The text is that of the tree -/

theorem operandTree_text (x : Operand) : (f.operandTree x).text = f.operandText x := by
  cases x <;> rfl

theorem argumentsTree_text (d : Instruction) : (f.argumentsTree d).text = f.argumentsText d := by
  unfold argumentsTree argumentsText
  split
  · have hpairs : d.incoming.map (Source.pairText ∘ fun pair =>
        (f.operandTree pair.2, f.blockWord pair.1)) = d.incoming.map f.incomingText :=
      List.map_congr_left fun pair _ => by
        rw [Function.comp_apply, Source.pairText, operandTree_text]
        rfl
    rw [Source.Arguments.text, List.map_map, hpairs]
  · have hoperands : d.operands.map (Source.Operand.text ∘ f.operandTree) =
        d.operands.map f.operandText :=
      List.map_congr_left fun x _ => operandTree_text x
    have hsuccessors : Source.successorsText (d.successors.map f.blockWord) =
        f.successorsText d.successors := by
      cases d.successors with
      | nil => rfl
      | cons b bs =>
        simp only [List.map_cons, Source.successorsText, successorsText, List.map_map]
        rfl
    rw [Source.Arguments.text, List.map_map, hoperands, hsuccessors]

theorem instTree_text {i : InstId} {d : Instruction} (hd : f.inst? i = some d) :
    (f.instTree i).text = f.instText i := by
  have hresult : Source.resultText ((f.result? i).map f.valueWord) = f.resultText (f.result? i) := by
    cases f.result? i <;> rfl
  rw [instTree_of_inst? hd, instText, hd]
  change Source.resultText ((f.result? i).map f.valueWord) ++ _ ++ _ ++ (f.argumentsTree d).text = _
  rw [hresult, argumentsTree_text]
  rfl

theorem blockTree_text (hp : f.PlacesAgree) (b : BlockId) : (f.blockTree b).text = f.blockText b := by
  have hlines : (f.instsOf b).map ((fun inst : Source.Inst => "    " ++ inst.text ++ "\n") ∘ f.instTree) =
      (f.instsOf b).map fun i => "    " ++ f.instText i ++ "\n" :=
    List.map_congr_left fun i hi => by
      obtain ⟨d, hd⟩ := hp.exists_inst? hi
      rw [Function.comp_apply, instTree_text hd]
  rw [Source.Block.text, blockText, blockTree, List.map_map, hlines]
  rfl

/-- **A function is written as its tree is.** -/
theorem tree_text (hp : f.PlacesAgree) : f.tree.text = f.text := by
  have hblocks : f.layout.map (Source.Block.text ∘ f.blockTree) = f.layout.map f.blockText :=
    List.map_congr_left fun b _ => blockTree_text hp b
  rw [Source.Function.text, text, tree, List.map_map, List.map_map, hblocks]
  rfl

/-- What an instruction in a block uses is declared. -/
theorem OperandsDefined.mem_declaredValues (h : f.OperandsDefined) (hf : f.Coherent) {i : InstId}
    {d : Instruction} (hi : i ∈ f.attached) (hd : f.inst? i = some d) {v : ValueId}
    (hv : .value v ∈ d.operands) : v ∈ f.declaredValues := by
  refine (mem_declaredValues_iff hf).mpr (h i hi v ?_)
  rwa [mem_valueOperands, operands_of_inst? hd]

/-! ## What the tree gives -/

theorem insts_tree : f.tree.insts = f.attached.map f.instTree := by
  rw [Source.Function.insts, attached, tree, List.flatMap_map, List.map_flatMap]
  rfl

theorem labels_tree : f.tree.labels = f.layout.map f.blockWord := by
  rw [Source.Function.labels, tree, List.map_map]
  rfl

theorem valueNames_tree (hp : f.PlacesAgree) : f.tree.valueNames = f.declaredValues.map f.valueWord := by
  have hresults : (f.attached.map f.instTree).filterMap (·.result) =
      (f.attached.filterMap f.result?).map f.valueWord := by
    rw [List.filterMap_map, List.map_filterMap]
    refine List.filterMap_congr fun i hi => ?_
    obtain ⟨b, -, hib⟩ := List.mem_flatMap.mp hi
    obtain ⟨d, hd⟩ := hp.exists_inst? hib
    rw [Function.comp_apply, instTree_of_inst? hd]
    rfl
  rw [Source.Function.valueNames, insts_tree, hresults, declaredValues, List.map_append]
  rfl

/-! ## The arguments of an instruction without flaws -/

section Flawless

variable {d : Instruction} {hasResult : Bool} (h : d.flaws hasResult = [])
include h

theorem operands_argumentsTree : (f.argumentsTree d).operands = d.operands.map f.operandTree := by
  unfold argumentsTree
  split
  · rename_i hphi
    have hlength := (shape_of_isPhi h hphi).2.1
    have hsnd : d.incoming.map Prod.snd = d.operands := List.map_snd_zip hlength.ge
    rw [Source.Arguments.operands, List.map_map, ← hsnd, List.map_map]
    rfl
  · rfl

theorem successors_argumentsTree :
    (f.argumentsTree d).successors = d.successors.map f.blockWord := by
  unfold argumentsTree
  split
  · rename_i hphi
    rw [(shape_of_isPhi h hphi).2.2]
    rfl
  · rfl

theorem incomingLabels_argumentsTree : (f.argumentsTree d).incomingLabels =
    if d.opcode.isPhi then d.phiBlocks.map f.blockWord else [] := by
  unfold argumentsTree
  split
  · rename_i hphi
    have hlength := (shape_of_isPhi h hphi).2.1
    have hfst : d.incoming.map Prod.fst = d.phiBlocks := List.map_fst_zip hlength.le
    rw [Source.Arguments.incomingLabels, List.map_map, ← hfst, List.map_map]
    rfl
  · rfl

end Flawless

/-! ## Functions whose text can be read -/

instance (p : Char → Bool) (w : String) : Decidable (Source.IsWord p w) :=
  decidable_of_iff (w ≠ "" ∧ w.toList.all p = true)
    ⟨fun h => ⟨h.1, List.all_eq_true.mp h.2⟩, fun h => ⟨h.ne, List.all_eq_true.mpr h.all⟩⟩

/-- The words of the text are names. -/
structure Spellable (f : Function) : Prop where
  name : Source.IsName f.name
  callees : ∀ i ∈ f.attached, ∀ d ∈ f.inst? i, ∀ n ∈ d.callee, Source.IsName n
  valueNames : ∀ v ∈ f.declaredValues, ∀ n ∈ f.valueName? v, Source.IsName n
  blockLabels : ∀ b ∈ f.layout, ∀ l ∈ f.blockLabel? b, Source.IsName l

instance : Decidable f.Spellable :=
  decidable_of_iff (Source.IsName f.name ∧
      (∀ i ∈ f.attached, ∀ d ∈ f.inst? i, ∀ n ∈ d.callee, Source.IsName n) ∧
      (∀ v ∈ f.declaredValues, ∀ n ∈ f.valueName? v, Source.IsName n) ∧
      ∀ b ∈ f.layout, ∀ l ∈ f.blockLabel? b, Source.IsName l)
    ⟨fun ⟨hn, hc, hv, hl⟩ => ⟨hn, hc, hv, hl⟩, fun h => ⟨h.name, h.callees, h.valueNames, h.blockLabels⟩⟩

/-- The words of the text are names, and no two values and no two blocks are written alike. -/
structure Printable (f : Function) : Prop extends f.Spellable where
  values : (f.declaredValues.map f.valueLabel).Nodup
  blocks : (f.layout.map f.blockLabel).Nodup

instance : Decidable f.Printable :=
  decidable_of_iff
    (f.Spellable ∧ (f.declaredValues.map f.valueLabel).Nodup ∧ (f.layout.map f.blockLabel).Nodup)
    ⟨fun ⟨hs, hvs, hbs⟩ => ⟨hs, hvs, hbs⟩, fun h => ⟨h.toSpellable, h.values, h.blocks⟩⟩

theorem isName_text {k : Kind} (e : Entity k) : Source.IsName e.text := by
  have hstem : Source.IsName k.stem := by cases k <;> decide
  have htext := e.toList_text
  refine ⟨fun he => ?_, fun c hc => ?_⟩
  · rw [he] at htext
    exact hstem.ne (String.toList_eq_nil_iff.mp (List.append_eq_nil_iff.mp htext.symm).1)
  · rw [htext] at hc
    rcases List.mem_append.mp hc with hc | hc
    · exact hstem.all c hc
    · exact Source.isDigit_le (Nat.isDigit_of_mem_toDigits (by omega) (by omega) hc)

theorem isWord_opcodeName (o : Opcode) : Source.IsWord Source.isOpcodeChar o.name := by
  have hword : ∀ o ∈ Opcode.all, Source.IsWord Source.isOpcodeChar o.name := by decide
  exact hword o o.mem_all

namespace Spellable

variable (h : f.Spellable)
include h

theorem isName_valueWord {v : ValueId} (hv : v ∈ f.declaredValues) :
    Source.IsName (f.valueWord v) := by
  unfold valueWord
  cases hn : f.valueName? v with
  | some n => exact h.valueNames v hv n hn
  | none => exact isName_text v

theorem isName_blockWord {b : BlockId} (hb : b ∈ f.layout) : Source.IsName (f.blockWord b) := by
  unfold blockWord
  cases hl : f.blockLabel? b with
  | some l => exact h.blockLabels b hb l hl
  | none => exact isName_text b

variable (hs : f.Sound) (ho : f.Orderly) (hd : f.OperandsDefined)
include hs ho hd

theorem wellFormed_instTree {b : BlockId} {i : InstId} (hi : i ∈ f.instsOf b) :
    (f.instTree i).WellFormed := by
  have hattached : i ∈ f.attached := hs.places.mem_attached hi
  obtain ⟨d, hinst⟩ := hs.places.exists_inst? hi
  have hflaws := ho.flawless b i hi d hinst
  have hoperand : ∀ x ∈ d.operands, (f.operandTree x).WellFormed := by
    intro x hx
    cases x with
    | imm n => trivial
    | value v => exact h.isName_valueWord (hd.mem_declaredValues hs.built.coherent hattached hinst hx)
  have hlabel : ∀ c ∈ d.successors ++ d.phiBlocks, Source.IsName (f.blockWord c) := fun c hc =>
    h.isName_blockWord (hs.places.mem_layout_iff.mpr (hs.closed.has_block hinst hc))
  rw [instTree_of_inst? hinst]
  refine ⟨fun n hn => ?_, ?_, h.callees i hattached d hinst, ?_, ?_⟩
  · obtain ⟨v, hv, rfl⟩ := Option.map_eq_some_iff.mp hn
    exact h.isName_valueWord (List.mem_append_right _ (List.mem_filterMap.mpr ⟨i, hattached, hv⟩))
  · exact isWord_opcodeName d.opcode
  · change (f.argumentsTree d).WellFormed
    unfold argumentsTree
    split
    · rename_i hphi
      obtain ⟨hne, hlength, -⟩ := shape_of_isPhi hflaws hphi
      refine ⟨fun hnil => hne ?_, fun pair hpair => ?_⟩
      · rw [List.map_eq_nil_iff, Instruction.incoming, List.zip_eq_nil_iff] at hnil
        exact hnil.elim (fun hp => List.eq_nil_of_length_eq_zero (by rw [← hlength, hp]; rfl)) id
      · obtain ⟨⟨c, x⟩, hmem, rfl⟩ := List.mem_map.mp hpair
        obtain ⟨hc, hx⟩ := List.of_mem_zip hmem
        exact ⟨hoperand x hx, hlabel c (List.mem_append_right _ hc)⟩
    · exact ⟨List.forall_mem_map.mpr hoperand,
        List.forall_mem_map.mpr fun c hc => hlabel c (List.mem_append_left _ hc)⟩
  · change (f.argumentsTree d).isIncoming = decide (d.opcode.name = Opcode.phi.name)
    rw [decide_eq_decide.mpr Opcode.name_inj]
    change _ = d.opcode.isPhi
    unfold argumentsTree
    split <;> simp_all [Source.Arguments.isIncoming]

theorem wellFormed_tree : f.tree.WellFormed where
  name := h.name
  params := List.forall_mem_map.mpr fun _ hv => h.isName_valueWord (List.mem_append_left _ hv)
  blocks := List.forall_mem_map.mpr fun _ hb => ⟨h.isName_blockWord hb,
    List.forall_mem_map.mpr fun _ hi => h.wellFormed_instTree hs ho hd hi⟩

end Spellable

section Declared

variable (hs : f.Sound) (ho : f.Orderly)
include hs ho

/-- Opcodes are known, and the labels that are used are given. -/
theorem fits_tree : ∀ inst ∈ f.tree.insts, Build.Fits f.tree.labels inst := by
  rw [insts_tree, List.forall_mem_map]
  intro i hi
  obtain ⟨b, hb, hib⟩ := List.mem_flatMap.mp hi
  obtain ⟨d, hinst⟩ := hs.places.exists_inst? hib
  have hflaws := ho.flawless b i hib d hinst
  have hlabel : ∀ c ∈ d.successors ++ d.phiBlocks, f.blockWord c ∈ f.tree.labels := fun c hc => by
    rw [labels_tree]
    exact List.mem_map_of_mem (hs.places.mem_layout_iff.mpr (hs.closed.has_block hinst hc))
  rw [instTree_of_inst? hinst]
  refine ⟨?_, fun l hl => ?_⟩
  · change (Opcode.ofName? d.opcode.name).isSome = true
    rw [Opcode.ofName?_name]
    rfl
  · change l ∈ (f.argumentsTree d).successors ++ (f.argumentsTree d).incomingLabels at hl
    rw [successors_argumentsTree hflaws, incomingLabels_argumentsTree hflaws] at hl
    rcases List.mem_append.mp hl with hl | hl
    · obtain ⟨c, hc, rfl⟩ := List.mem_map.mp hl
      exact hlabel c (List.mem_append_left _ hc)
    · split at hl
      · obtain ⟨c, hc, rfl⟩ := List.mem_map.mp hl
        exact hlabel c (List.mem_append_right _ hc)
      · cases hl

variable (hd : f.OperandsDefined)
include hd

/-- The values that are used are given. -/
theorem known_tree : ∀ inst ∈ f.tree.insts, Build.Known f.tree.valueNames inst := by
  rw [insts_tree, List.forall_mem_map]
  intro i hi n hn
  obtain ⟨b, hb, hib⟩ := List.mem_flatMap.mp hi
  obtain ⟨d, hinst⟩ := hs.places.exists_inst? hib
  rw [instTree_of_inst? hinst] at hn
  change .name n ∈ (f.argumentsTree d).operands at hn
  rw [operands_argumentsTree (ho.flawless b i hib d hinst)] at hn
  obtain ⟨x, hx, hname⟩ := List.mem_map.mp hn
  cases x with
  | imm k => cases hname
  | value v =>
    obtain rfl := Source.Operand.name.inj hname
    rw [valueNames_tree hs.places]
    exact List.mem_map_of_mem (hd.mem_declaredValues hs.built.coherent hi hinst hx)

/-- The tree of a function that was found right stands for a function when no word is declared twice. -/
theorem declared_tree_iff :
    f.tree.Declared ↔ f.tree.valueNames.Nodup ∧ f.tree.labels.Nodup :=
  ⟨fun h => ⟨h.values, h.blocks⟩,
    fun ⟨hvalues, hlabels⟩ => ⟨hvalues, hlabels, fits_tree hs ho, known_tree hs ho hd⟩⟩

end Declared

namespace Printable

variable (h : f.Printable) (hs : f.Sound) (ho : f.Orderly) (hd : f.OperandsDefined)
include h hs ho hd

/-- The tree of a function that was found right can be read. -/
theorem wellFormed_tree : f.tree.WellFormed := h.toSpellable.wellFormed_tree hs ho hd

/-- It stands for a function. -/
theorem declared_tree : f.tree.Declared := by
  have hvalues : f.declaredValues.map f.valueLabel = f.tree.valueNames.map ("%" ++ ·) := by
    rw [valueNames_tree hs.places, List.map_map]
    rfl
  have hlabels : f.layout.map f.blockLabel = f.tree.labels.map ("^" ++ ·) := by
    rw [labels_tree, List.map_map]
    rfl
  exact (declared_tree_iff hs ho hd).mpr
    ⟨.of_map _ (hvalues ▸ h.values), .of_map _ (hlabels ▸ h.blocks)⟩

end Printable

end Function

end SsaPrune
