import SsaPrune.Proofs.Text.Written

/-!
# The trees that are read are well formed

A reader *yields* a property when everything it reads has it, wherever it reads. The lemmas follow
the ways in which readers are put together, and then the grammar; the main statement is
`wellFormed_of_readModule`.
-/

namespace SsaPrune

namespace Reader

variable {α β : Type} {P : α → Prop} {Q : β → Prop} {item : Reader α}

/-- Whatever is read has the property. -/
def Yields (item : Reader α) (P : α → Prop) : Prop := ∀ s a rest, item s = .ok a rest → P a

theorem yields_true (item : Reader α) : Yields item fun _ => True := fun _ _ _ _ => trivial

theorem yields_pure {a : α} (h : P a) : Yields (pure a) P := fun s b rest hb => by
  obtain ⟨rfl, -⟩ := EStateM.Result.ok.inj (show EStateM.Result.ok a s = .ok b rest from hb)
  exact h

theorem Yields.bind {k : α → Reader β} (h : Yields item P) (hk : ∀ a, P a → Yields (k a) Q) :
    Yields (item >>= k) Q := fun s b rest hb => by
  obtain ⟨a, t, ha, hka⟩ := Run.bind_eq_ok.mp hb
  exact hk a (h s a t ha) t b rest hka

theorem Yields.andThen {k : α → Reader β} (hk : ∀ a, Yields (k a) Q) : Yields (item >>= k) Q :=
  (yields_true item).bind fun a _ => hk a

theorem Yields.ite {c : Prop} [Decidable c] {other : Reader α} (h : Yields item P)
    (ho : Yields other P) : Yields (if c then item else other) P := by
  split
  · exact h
  · exact ho

theorem yields_attempt (h : Yields item P) : Yields (attempt item) fun a? => ∀ a ∈ a?, P a := by
  intro s a? rest ha a hmem
  unfold attempt at ha
  cases hi : item s with
  | ok b t =>
    rw [hi] at ha
    obtain ⟨rfl, -⟩ := EStateM.Result.ok.inj ha
    obtain rfl : b = a := by simpa using hmem
    exact h s b t hi
  | error e t =>
    rw [hi] at ha
    obtain ⟨rfl, -⟩ := EStateM.Result.ok.inj ha
    cases hmem

theorem forall_mem_moreItems (h : Yields item P) (s : List Char) :
    ∀ a ∈ (moreItems item s).1, P a := by
  fun_induction moreItems item s with
  | case1 rest a rest' ha hlen more rest'' hmore ih =>
    rw [hmore] at ih
    intro b hb
    rcases List.mem_cons.mp hb with rfl | hb
    · exact h rest b rest' ha
    · exact ih b hb
  | case2 => simp
  | case3 => simp
  | case4 => simp

theorem yields_items1 (h : Yields item P) :
    Yields (items1 item) fun as => as ≠ [] ∧ ∀ a ∈ as, P a := by
  refine h.bind fun a ha => fun s as rest hs => ?_
  obtain ⟨rfl, -⟩ := EStateM.Result.ok.inj
    (show EStateM.Result.ok (a :: (moreItems item s).1) _ = .ok as rest from hs)
  refine ⟨by simp, fun b hb => ?_⟩
  rcases List.mem_cons.mp hb with rfl | hb
  · exact ha
  · exact forall_mem_moreItems h s b hb

theorem yields_items (h : Yields item P) : Yields (items item) fun as => ∀ a ∈ as, P a := by
  refine (yields_attempt (yields_items1 h)).bind fun as? has => yields_pure ?_
  cases as? with
  | none => simp
  | some as => exact (has as rfl).2

theorem yields_itemsUntil (stop : List Char → Bool) (h : Yields item P) :
    Yields (itemsUntil stop item) fun as => ∀ a ∈ as, P a := by
  intro s
  fun_induction itemsUntil stop item s with
  | case1 s hstop =>
    intro as rest has
    obtain ⟨rfl, -⟩ := EStateM.Result.ok.inj has
    simp
  | case2 s hstop a t ha hlen more u hmore ih =>
    intro as rest has
    obtain ⟨rfl, -⟩ := EStateM.Result.ok.inj has
    intro b hb
    rcases List.mem_cons.mp hb with rfl | hb
    · exact h _ b t ha
    · exact ih more u hmore b hb
  | case3 => intro as rest has; cases has
  | case4 => intro as rest has; cases has
  | case5 => intro as rest has; cases has

theorem yields_padded (h : Yields item P) : Yields (padded item) P :=
  .andThen fun _ => h.bind fun _ ha => .andThen fun _ => yields_pure ha

end Reader

namespace Source

open Reader

theorem yields_word (p : Char → Bool) : Yields (word p) (IsWord p) := by
  intro s w rest hw
  unfold word at hw
  cases hc : s.takeWhile p with
  | nil => rw [hc] at hw; cases hw
  | cons c cs =>
    rw [hc] at hw
    obtain ⟨rfl, -⟩ := EStateM.Result.ok.inj hw
    refine ⟨fun he => ?_, fun d hd => ?_⟩
    · have hnil := String.toList_eq_nil_iff.mpr he
      rw [String.toList_ofList] at hnil
      cases hnil
    · rw [String.toList_ofList, ← hc] at hd
      exact List.all_eq_true.mp List.all_takeWhile d hd

theorem yields_readName (sign : Char) : Yields (readName sign) IsName :=
  .andThen fun _ => yields_word isNameChar

theorem yields_readOperand : Yields readOperand Operand.WellFormed :=
  .andThen fun _ => .ite ((yields_readName '%').bind fun _ h => yields_pure h)
    (.andThen fun _ => yields_pure trivial)

theorem yields_readPair :
    Yields readPair fun pair => pair.1.WellFormed ∧ IsName pair.2 :=
  .andThen fun _ => .andThen fun _ => yields_readOperand.bind fun _ hx => .andThen fun _ =>
    .andThen fun _ => .andThen fun _ => (yields_readName '^').bind fun _ hl => .andThen fun _ =>
      .andThen fun _ => yields_pure ⟨hx, hl⟩

theorem yields_readSuccessors :
    Yields readSuccessors fun labels => ∀ label ∈ labels, IsName label :=
  .andThen fun _ => .andThen fun _ =>
    (yields_items1 (yields_padded (yields_readName '^'))).bind fun _ hl => .andThen fun _ =>
      .andThen fun _ => yields_pure hl.2

theorem yields_optional {α : Type} {P : α → Prop} (starts : List Char → Bool)
    {list : Reader (List α)} (h : Yields list fun as => ∀ a ∈ as, P a) :
    Yields (optional starts list) fun as => ∀ a ∈ as, P a := by
  intro s as rest has
  unfold optional at has
  split at has
  · exact h s as rest has
  · obtain ⟨rfl, -⟩ := EStateM.Result.ok.inj has
    simp

theorem yields_readPlain :
    Yields readPlain fun args => args.WellFormed ∧ args.isIncoming = false := by
  have hops : Yields (items1 (padded readOperand)) fun xs => ∀ x ∈ xs, x.WellFormed :=
    fun s xs rest h => (yields_items1 (yields_padded yields_readOperand) s xs rest h).2
  rw [readPlain_eq]
  exact (yields_optional _ hops).bind fun _ hx => .andThen fun _ =>
    (yields_optional _ yields_readSuccessors).bind fun _ hl => yields_pure ⟨⟨hx, hl⟩, rfl⟩

theorem yields_readIncoming :
    Yields readIncoming fun args => args.WellFormed ∧ args.isIncoming = true :=
  (yields_items1 (yields_padded yields_readPair)).bind fun _ h => yields_pure ⟨h, rfl⟩

theorem yields_readInst : Yields readInst Inst.WellFormed := by
  have hresult : Yields readResult IsName := (yields_readName '%').bind fun _ h =>
    .andThen fun _ => .andThen fun _ => .andThen fun _ => yields_pure h
  have hcallee : Yields readCallee IsName := (yields_readName '@').bind fun _ h =>
    .andThen fun _ => yields_pure h
  refine .andThen fun start => (yields_attempt hresult).bind fun result hr =>
    (yields_word isOpcodeChar).bind fun opcode ho => .andThen fun _ =>
      (yields_attempt hcallee).bind fun callee hc => ?_
  by_cases hphi : opcode = Opcode.phi.name
  · simp only [if_pos hphi]
    exact yields_readIncoming.bind fun args ha =>
      yields_pure ⟨hr, ho, hc, ha.1, by simp [ha.2, hphi]⟩
  · simp only [if_neg hphi]
    exact yields_readPlain.bind fun args ha =>
      yields_pure ⟨hr, ho, hc, ha.1, by simp [ha.2, hphi]⟩

theorem yields_readInsts : Yields readInsts fun insts => ∀ inst ∈ insts, inst.WellFormed :=
  yields_itemsUntil _ yields_readInst

theorem yields_readBlock : Yields readBlock Block.WellFormed :=
  .andThen fun _ => .andThen fun _ => (yields_readName '^').bind fun _ hl => .andThen fun _ =>
    .andThen fun _ => yields_readInsts.bind fun _ hi => yields_pure ⟨hl, hi⟩

theorem yields_readFirstBlock :
    Yields readFirstBlock fun blocks => ∀ block ∈ blocks, block.WellFormed := by
  have hentry : IsName "entry" := ⟨by decide, List.all_eq_true.mp rfl⟩
  refine .andThen fun start => .ite (yields_pure (by simp)) (yields_readInsts.bind fun insts hi => ?_)
  exact yields_pure fun block hb => by
    obtain rfl := List.mem_singleton.mp hb
    exact ⟨hentry, hi⟩

theorem yields_readParams : Yields readParams fun params => ∀ name ∈ params, IsName name :=
  .andThen fun _ => .andThen fun _ => (yields_items (.andThen fun _ =>
    (yields_readName '%').bind fun _ h => .andThen fun _ => yields_pure h)).bind fun _ h =>
      .andThen fun _ => .andThen fun _ => yields_pure h

theorem yields_readFunction : Yields readFunction Function.WellFormed :=
  .andThen fun _ => .andThen fun _ => .andThen fun _ => .andThen fun _ =>
    (yields_readName '@').bind fun _ hn => .andThen fun _ => yields_readParams.bind fun _ hp =>
      .andThen fun _ => .andThen fun _ => .andThen fun _ => yields_readFirstBlock.bind fun _ hf =>
        (yields_itemsUntil _ yields_readBlock).bind fun _ hb => .andThen fun _ =>
          yields_pure ⟨hn, hp, fun block hmem =>
            (List.mem_append.mp hmem).elim (hf block) (hb block)⟩

/-- **Whatever is read as a module is well formed.** -/
theorem wellFormed_of_readModule {s rest : List Char} {sources : List Function}
    (h : readModule s = .ok sources rest) : ∀ source ∈ sources, source.WellFormed :=
  yields_itemsUntil _ yields_readFunction s sources rest h

end Source

end SsaPrune
