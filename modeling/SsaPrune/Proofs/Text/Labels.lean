import Mathlib.Data.List.Pairwise
import SsaPrune.Proofs.Text.Trees

/-!
# When labels tell entities apart

An entity is written by its name, or for want of one by its text. Names that were given can be distinct
and still two entities be written alike: one bears as its name the text of another that has none, as when
a parameter is called `v1` and the next one is not called anything. Nothing else can happen
(`labels_injOn_iff`). Where the text of a function declares both of them, it declares one name twice, and
cannot be read.
-/

namespace SsaPrune

theorem Entity.text_inj {k : Kind} {d e : Entity k} : d.text = e.text ↔ d = e := by
  refine ⟨fun h => ?_, congrArg _⟩
  have htext : d.text.toList = e.text.toList := congrArg _ h
  rw [d.toList_text, e.toList_text] at htext
  have hindex : d.index = e.index := calc
    d.index = Nat.ofDigitChars 10 (Nat.toDigits 10 d.index) 0 := Nat.ofDigitChars_ten_toDigits.symm
    _ = Nat.ofDigitChars 10 (Nat.toDigits 10 e.index) 0 := by rw [List.append_cancel_left htext]
    _ = e.index := Nat.ofDigitChars_ten_toDigits
  cases d
  cases e
  exact congrArg Entity.mk hindex

/-! ## Words -/

section Words

variable {k : Kind} {name? : Entity k → Option String} {es : List (Entity k)}

/-- The word by which an entity is written: its name, or else its text. -/
def wordBy (name? : Entity k → Option String) (e : Entity k) : String := (name? e).getD e.text

/-- One of the entities has no name, and another bears as its name the text of this one. -/
def Usurped (name? : Entity k → Option String) (es : List (Entity k)) : Prop :=
  ∃ d ∈ es, ∃ e ∈ es, name? d = none ∧ name? e = some d.text

instance : Decidable (Usurped name? es) := inferInstanceAs (Decidable (∃ d ∈ es, _))

/-- When names are distinct, only a usurped text makes two words equal. -/
theorem wordBy_injOn_iff (hdistinct : ∀ d e, ∀ n ∈ name? d, n ∈ name? e → d = e) :
    Set.InjOn (wordBy name?) {e | e ∈ es} ↔ ¬Usurped name? es := by
  constructor
  · rintro hinj ⟨d, hd, e, he, hnone, hsome⟩
    have hword : wordBy name? d = wordBy name? e := by simp [wordBy, hnone, hsome]
    obtain rfl := hinj hd he hword
    rw [hnone] at hsome
    cases hsome
  · intro hno d hd e he hword
    unfold wordBy at hword
    cases hnd : name? d with
    | none =>
      cases hne : name? e with
      | none =>
        rw [hnd, hne] at hword
        exact Entity.text_inj.mp hword
      | some n =>
        rw [hnd, hne] at hword
        exact absurd ⟨d, hd, e, he, hnd, hne.trans (congrArg some hword.symm)⟩ hno
    | some m =>
      cases hne : name? e with
      | none =>
        rw [hnd, hne] at hword
        exact absurd ⟨e, he, d, hd, hne, hnd.trans (congrArg some hword)⟩ hno
      | some n =>
        rw [hnd, hne] at hword
        obtain rfl : m = n := hword
        exact hdistinct d e m hnd hne

theorem nodup_wordBy_iff (hdistinct : ∀ d e, ∀ n ∈ name? d, n ∈ name? e → d = e) (hes : es.Nodup) :
    (es.map (wordBy name?)).Nodup ↔ ¬Usurped name? es := by
  rw [List.nodup_map_iff_inj_on hes, ← wordBy_injOn_iff hdistinct]
  exact Iff.rfl

/-- The sign in front of a word is the same for all entities of a kind. -/
theorem injOn_append_wordBy (sign : String) (s : Set (Entity k)) :
    Set.InjOn (fun e => sign ++ wordBy name? e) s ↔ Set.InjOn (wordBy name?) s := by
  simp only [Set.InjOn, String.append_right_inj]

/-- Names of which no two are the same tell apart what bears them. -/
theorem eq_of_nodup_filterMap {α β : Type} {name? : α → Option β} {as : List α}
    (h : (as.filterMap name?).Nodup) {a b : α} (ha : a ∈ as) (hb : b ∈ as) {n : β}
    (hna : name? a = some n) (hnb : name? b = some n) : a = b := by
  by_contra hne
  have hsymm : Std.Symm fun a b => ∀ m, name? a = some m → ∀ m', name? b = some m' → m ≠ m' :=
    ⟨fun _ _ hab m hm m' hm' => (hab m' hm' m hm).symm⟩
  exact (List.pairwise_filterMap.mp h).forall ha hb hne n hna n hnb rfl

end Words

namespace Function

variable {f : Function}

/-- No name was given to two values, and no label to two blocks. -/
structure DistinctlyNamed (f : Function) : Prop where
  values : (f.values.entities.filterMap f.valueName?).Nodup
  blocks : (f.blocks.entities.filterMap f.blockLabel?).Nodup

instance : Decidable f.DistinctlyNamed :=
  decidable_of_iff ((f.values.entities.filterMap f.valueName?).Nodup ∧
    (f.blocks.entities.filterMap f.blockLabel?).Nodup) ⟨fun ⟨hv, hb⟩ => ⟨hv, hb⟩, fun h => ⟨h.1, h.2⟩⟩

theorem mem_values_entities {v : ValueId} : v ∈ f.values.entities ↔ f.Has (.value v) :=
  Arena.mem_entities.trans f.has_value.symm

theorem mem_blocks_entities {b : BlockId} : b ∈ f.blocks.entities ↔ f.Has (.block b) :=
  Arena.mem_entities.trans f.has_block.symm

namespace DistinctlyNamed

variable (h : f.DistinctlyNamed)
include h

theorem value_eq (v w : ValueId) : ∀ n ∈ f.valueName? v, n ∈ f.valueName? w → v = w :=
  fun _ hv hw => eq_of_nodup_filterMap h.values (mem_values_entities.mpr (has_value_of_name hv))
    (mem_values_entities.mpr (has_value_of_name hw)) hv hw

theorem block_eq (b c : BlockId) : ∀ l ∈ f.blockLabel? b, l ∈ f.blockLabel? c → b = c :=
  fun _ hb hc => eq_of_nodup_filterMap h.blocks (mem_blocks_entities.mpr (has_block_of_label hb))
    (mem_blocks_entities.mpr (has_block_of_label hc)) hb hc

end DistinctlyNamed

/-- No value is declared twice. -/
theorem nodup_declaredValues (hf : f.Coherent) : f.declaredValues.Nodup := by
  have hd := hf.definitions
  refine List.nodup_append.mpr ⟨?_, ?_, ?_⟩
  · refine List.nodup_iff_getElem?_ne_getElem?.mpr fun j k hjk hk heq => ?_
    have hparam := List.getElem?_eq_getElem hk
    have hj := (hd.param_iff j _).mp (heq.trans hparam)
    obtain rfl := Definition.param.inj (Option.some.inj (hj.symm.trans ((hd.param_iff k _).mp hparam)))
    exact Nat.lt_irrefl _ hjk
  · exact List.Nodup.filterMap (fun i j v hi hj => hd.eq_of_result? hi hj) hf.places.nodup_attached
  · rintro v hv w hw rfl
    obtain ⟨k, hk⟩ := List.mem_iff_getElem?.mp hv
    obtain ⟨i, -, hi⟩ := List.mem_filterMap.mp hw
    cases ((hd.param_iff k v).mp hk).symm.trans ((hd.result_iff i v).mp hi)

/-- The text of a function can be read exactly when no word is declared twice in it. -/
theorem parseModule_text_isOk_iff (hs : f.Sound) (hw : f.Spellable) (hv : f.validate = .ok []) :
    (∃ fs, parseModule f.text = .ok fs) ↔ f.tree.valueNames.Nodup ∧ f.tree.labels.Nodup := by
  obtain ⟨ho, hd⟩ := (validate_eq_ok_nil_iff hs.places).mp hv
  have htext : Source.moduleText [f.tree] = f.text := tree_text hs.places
  have hread := List.forall_mem_singleton.mpr (hw.wellFormed_tree hs ho hd)
  simp only [← htext, parseModule_moduleText_iff hread, Source.resolveAll_isOk_iff,
    ← declared_tree_iff hs ho hd]
  simp

/-- **Labels tell entities apart unless a name usurps a text.** When no name was given twice, labels are
different for different values, and for different blocks, as long as none of them bears as its name the
text of another that has none. The text of the function is that of its tree, in which the same holds of
the names that are declared: those of the parameters and of the results of instructions in blocks, and
those of the blocks. If there is nothing else to refuse in it, the text can be read exactly then. -/
theorem labels_injOn_iff (hf : f.Built) (hn : f.DistinctlyNamed) :
    (Set.InjOn f.valueLabel {v | f.Has (.value v)} ↔ ¬Usurped f.valueName? f.values.entities) ∧
    (Set.InjOn f.blockLabel {b | f.Has (.block b)} ↔ ¬Usurped f.blockLabel? f.blocks.entities) ∧
    f.text = f.tree.text ∧
    (f.tree.valueNames.Nodup ↔ ¬Usurped f.valueName? f.declaredValues) ∧
    (f.tree.labels.Nodup ↔ ¬Usurped f.blockLabel? f.blocks.entities) ∧
    (f.Closed → f.Spellable → f.validate = .ok [] → ((∃ fs, parseModule f.text = .ok fs) ↔
      ¬Usurped f.valueName? f.declaredValues ∧ ¬Usurped f.blockLabel? f.blocks.entities)) := by
  have hp := hf.coherent.places
  have hvalues : f.tree.valueNames.Nodup ↔ ¬Usurped f.valueName? f.declaredValues := by
    rw [valueNames_tree hp]
    exact nodup_wordBy_iff hn.value_eq (nodup_declaredValues hf.coherent)
  have hblocks : f.tree.labels.Nodup ↔ ¬Usurped f.blockLabel? f.blocks.entities := by
    rw [labels_tree, hp.layout]
    exact nodup_wordBy_iff hn.block_eq Arena.nodup_entities
  refine ⟨?_, ?_, (tree_text hp).symm, hvalues, hblocks, fun hc hw hv => ?_⟩
  · rw [← wordBy_injOn_iff hn.value_eq, ← injOn_append_wordBy "%"]
    simp only [mem_values_entities]
    rfl
  · rw [← wordBy_injOn_iff hn.block_eq, ← injOn_append_wordBy "^"]
    simp only [mem_blocks_entities]
    rfl
  · rw [parseModule_text_isOk_iff ⟨hf, hc⟩ hw hv, hvalues, hblocks]

/-- A value and a block bear texts that no other entity is written by. -/
theorem labels_injOn_iff_apart : ∃ f : Function, f.Built ∧ f.DistinctlyNamed ∧
    f.print = .ok "func @f(%v2, %v1) \x7b\n  ^block3:\n    ret %v1\n  ^block1:\n    ret %v2\n\x7d\n" ∧
    Set.InjOn f.valueLabel {v | f.Has (.value v)} ∧ Set.InjOn f.blockLabel {b | f.Has (.block b)} ∧
    f.tree.valueNames.Nodup ∧ f.tree.labels.Nodup ∧ ∃ fs, parseModule f.text = .ok fs := by
  have hnew : Session (.empty "f") := .new "f"
  have hnamed := hnew.action (.request (.addParam (some "v2"))) (by decide)
  have hunnamed := hnamed.action (.request (.addParam none)) (by decide)
  have hentry := hunnamed.action (.request (.addBlock (some "block3"))) (by decide)
  have hother := hentry.action (.request (.addBlock none)) (by decide)
  have hret := hother.action (.buildIn ⟨{ opcode := .ret, operands := [.value ⟨1⟩] }, none⟩ ⟨0⟩)
    (by decide)
  have hlast := hret.action (.buildIn ⟨{ opcode := .ret, operands := [.value ⟨0⟩] }, none⟩ ⟨1⟩)
    (by decide)
  obtain ⟨hbuilt, hclosed⟩ := hlast.sound
  obtain ⟨hvalues, hblocks, -, hnames, hlabels, hread⟩ := labels_injOn_iff hbuilt (by decide +kernel)
  refine ⟨_, hbuilt, ?_, ?_, hvalues.mpr ?_, hblocks.mpr ?_, hnames.mpr ?_, hlabels.mpr ?_,
    (hread hclosed ?_ ?_).mpr ⟨?_, ?_⟩⟩
  all_goals decide +kernel

/-- A parameter is called `v1`, and the next one, which is not called anything, is the value with this
text. What is written is accepted by the validator, and cannot be read. -/
theorem labels_not_injOn : ∃ f : Function, f.Built ∧ f.DistinctlyNamed ∧ f.Spellable ∧
    f.validate = .ok [] ∧ f.Has (.value ⟨0⟩) ∧ f.Has (.value ⟨1⟩) ∧
    f.valueLabel ⟨0⟩ = "%v1" ∧ f.valueLabel ⟨1⟩ = "%v1" ∧
    ¬Set.InjOn f.valueLabel {v | f.Has (.value v)} ∧
    f.print = .ok "func @f(%v1, %v1) \x7b\n  ^entry:\n    ret\n\x7d\n" ∧
    parseModule "func @f(%v1, %v1) \x7b\n  ^entry:\n    ret\n\x7d\n" =
      .error ⟨.duplicateValue "v1", 0⟩ := by
  have hbuilt : Built _ := .request (.append ⟨0⟩ ⟨0⟩) (.request (.create { opcode := .ret })
    (.request (.addBlock (some "entry")) (.request (.addParam none)
      (.request (.addParam (some "v1")) (.empty "f") rfl) rfl) rfl) rfl) rfl
  refine ⟨_, hbuilt, ?_, ?_, ?_, ?_, ?_, ?_, ?_, fun hinj => ?_, ?_, ?_⟩
  case refine_8 =>
    have hsame : (⟨0⟩ : ValueId) = ⟨1⟩ := hinj (by decide) (by decide) rfl
    cases hsame
  all_goals decide +kernel

end Function

end SsaPrune
