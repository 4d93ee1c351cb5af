import SsaPrune.Proofs.Text.Locality

/-!
# Where the parts of a text stand

A reader that is given an end of a text leaves an end of it, whether it succeeds or fails, so every part
of a source tree keeps an end of the text: the one from where it was read (`Function.Stands`). What is
shown of a reader `Within` a text is what it leaves and what it reads.

A reader that makes progress leaves less than it is given, so the loops of the grammar run as they would
without a test for progress (`Unguarded`).
-/

namespace SsaPrune.Reader

variable {α β : Type} {text s t : List Char} {item : Reader α} {P P' : α → Prop} {Q : β → Prop}

/-! ## Readers within a text -/

/-- From an end of the text the reader leaves an end of it. What it reads has the property. -/
structure Within (text : List Char) (item : Reader α) (P : α → Prop) : Prop where
  ok : ∀ {s a rest}, s <:+ text → item s = .ok a rest → P a ∧ rest <:+ text
  error : ∀ {s e rest}, s <:+ text → item s = .error e rest → rest <:+ text

theorem Within.imp (h : Within text item P) (hP : ∀ a, P a → P' a) : Within text item P' :=
  ⟨fun hs ha => (h.ok hs ha).imp_left (hP _), h.error⟩

theorem within_pure {a : α} (h : P a) : Within text (pure a) P where
  ok hs ha := by
    obtain ⟨rfl, rfl⟩ := EStateM.Result.ok.inj ha
    exact ⟨h, hs⟩
  error _ ha := by cases ha

theorem Within.bind {k : α → Reader β} (h : Within text item P) (hk : ∀ a, P a → Within text (k a) Q) :
    Within text (item >>= k) Q where
  ok hs hb := by
    obtain ⟨a, t, ha, hka⟩ := Run.bind_eq_ok.mp hb
    obtain ⟨hP, ht⟩ := h.ok hs ha
    exact (hk a hP).ok ht hka
  error {s _ _} hs hb := by
    rw [Run.bind_apply] at hb
    cases ha : item s with
    | ok a t =>
      rw [ha] at hb
      obtain ⟨hP, ht⟩ := h.ok hs ha
      exact (hk a hP).error ht hb
    | error e t =>
      rw [ha] at hb
      obtain ⟨rfl, rfl⟩ := EStateM.Result.error.inj hb
      exact h.error hs ha

theorem Within.weaken (h : Within text item P) : Within text item fun _ => True :=
  h.imp fun _ _ => trivial

/-- A step whose answer does not matter. -/
theorem Within.andThen {k : α → Reader β} (h : Within text item P) (hk : ∀ a, Within text (k a) Q) :
    Within text (item >>= k) Q :=
  h.bind fun a _ => hk a

theorem within_get : Within text get (· <:+ text) where
  ok hs ha := by
    obtain ⟨rfl, rfl⟩ := EStateM.Result.ok.inj ha
    exact ⟨hs, hs⟩
  error _ ha := by cases ha

theorem Within.ite {c : Prop} [Decidable c] {other : Reader α} (h : Within text item P)
    (ho : Within text other P) : Within text (if c then item else other) P := by
  split
  · exact h
  · exact ho

/-- It is enough that the reader leaves an end of what it is given. -/
theorem within_of_suffix (hok : ∀ {s a rest}, item s = .ok a rest → rest <:+ s)
    (herror : ∀ {s e rest}, item s = .error e rest → rest <:+ s) : Within text item fun _ => True :=
  ⟨fun hs ha => ⟨trivial, (hok ha).trans hs⟩, fun hs ha => (herror ha).trans hs⟩

/-! ### Words and blanks -/

theorem within_literal (c : Char) : Within text (literal c) fun _ => True := by
  refine within_of_suffix (fun h => ?_) fun {s e rest} h => ?_
  · rw [eq_cons_of_literal h]
    exact List.suffix_cons c _
  · cases s with
    | nil =>
      obtain ⟨-, rfl⟩ := EStateM.Result.error.inj h
      exact List.suffix_rfl
    | cons d s =>
      rw [literal] at h
      split at h
      · cases h
      · obtain ⟨-, rfl⟩ := EStateM.Result.error.inj h
        exact List.suffix_rfl

theorem within_keyword (w : String) : Within text (keyword w) fun _ => True := by
  refine within_of_suffix (fun h => ?_) fun h => ?_
  all_goals
    unfold keyword at h
    split at h
    all_goals cases h
  · exact List.drop_suffix _ _
  · exact List.suffix_rfl

theorem within_word (p : Char → Bool) : Within text (word p) fun _ => True := by
  refine within_of_suffix (fun h => ?_) fun h => ?_
  all_goals
    unfold word at h
    split at h
    all_goals cases h
  · exact List.dropWhile_suffix p
  · exact List.suffix_rfl

theorem skipBlanks_suffix (comment : Bool) (s : List Char) : skipBlanks comment s <:+ s := by
  induction s generalizing comment with
  | nil => exact List.suffix_rfl
  | cons c s ih =>
    rw [skipBlanks]
    split_ifs
    · exact (ih _).trans (List.suffix_cons c s)
    · exact (ih _).trans (List.suffix_cons c s)
    · exact (ih _).trans (List.suffix_cons c s)
    · exact List.suffix_rfl

theorem within_blanks : Within text blanks fun _ => True := by
  refine within_of_suffix (fun h => ?_) fun h => by cases h
  obtain ⟨-, rfl⟩ := EStateM.Result.ok.inj h
  exact skipBlanks_suffix false _

theorem within_padding : Within text padding fun _ => True := by
  refine within_of_suffix (fun h => ?_) fun h => by cases h
  obtain ⟨-, rfl⟩ := EStateM.Result.ok.inj h
  exact List.dropWhile_suffix _

theorem Within.padded (h : Within text item P) : Within text (padded item) P :=
  within_padding.andThen fun _ => h.bind fun _ ha => within_padding.andThen fun _ => within_pure ha

/-! ### Integers -/

/-- Digits take something off the front. -/
theorem positive?_suffix {n : Int} {rest : List Char} (h : positive? s = some (n, rest)) :
    ∃ c u, s = c :: u ∧ rest <:+ u := by
  unfold positive? at h
  split at h
  · rename_i c u
    split at h
    · rename_i hc
      obtain ⟨-, rfl⟩ := Prod.mk.inj (Option.some.inj h)
      refine ⟨c, u, rfl, ?_⟩
      rw [List.dropWhile_cons_of_pos (Bool.and_eq_true_iff.mp hc).1]
      exact List.dropWhile_suffix _
    · cases h
  · cases h

theorem integer?_suffix {n : Int} {rest : List Char} (h : integer? s = some (n, rest)) :
    ∃ c u, s = c :: u ∧ rest <:+ u := by
  cases s with
  | nil => cases h
  | cons c s =>
    have hsigned : ∀ {m : Int}, positive? s = some (m, rest) → ∃ d u, c :: s = d :: u ∧ rest <:+ u := by
      intro m hm
      obtain ⟨d, u, rfl, hu⟩ := positive?_suffix hm
      exact ⟨c, _, rfl, hu.trans (List.suffix_cons d u)⟩
    rw [integer?_cons] at h
    split_ifs at h
    · obtain ⟨-, rfl⟩ := Prod.mk.inj (Option.some.inj h)
      exact ⟨c, _, rfl, List.suffix_rfl⟩
    · exact hsigned h
    · obtain ⟨⟨m, r⟩, hm, heq⟩ := Option.map_eq_some_iff.mp h
      obtain ⟨-, rfl⟩ := Prod.mk.inj heq
      exact hsigned hm
    · exact positive?_suffix h

theorem integer_suffix {n : Int64} {rest : List Char} (h : integer s = .ok n rest) :
    ∃ c u, s = c :: u ∧ rest <:+ u := by
  unfold integer at h
  split at h
  · rename_i hint
    split at h
    · obtain ⟨-, rfl⟩ := EStateM.Result.ok.inj h
      exact integer?_suffix hint
    · cases h
  · cases h

theorem within_integer : Within text integer fun _ => True := by
  refine within_of_suffix (fun h => ?_) fun h => ?_
  · obtain ⟨c, u, rfl, hu⟩ := integer_suffix h
    exact hu.trans (List.suffix_cons c u)
  · unfold integer at h
    split at h
    · split at h
      all_goals cases h
      exact List.suffix_rfl
    · cases h
      exact List.suffix_rfl

/-! ### Choice and repetition -/

theorem Within.attempt (h : Within text item P) :
    Within text (attempt item) fun a? => ∀ a ∈ a?, P a where
  ok {s a? rest} hs ha := by
    unfold Reader.attempt at ha
    cases hi : item s with
    | ok a t =>
      rw [hi] at ha
      obtain ⟨rfl, rfl⟩ := EStateM.Result.ok.inj ha
      obtain ⟨hP, ht⟩ := h.ok hs hi
      refine ⟨fun b hb => ?_, ht⟩
      obtain rfl : a = b := Option.some.inj hb
      exact hP
    | error e t =>
      rw [hi] at ha
      obtain ⟨rfl, rfl⟩ := EStateM.Result.ok.inj ha
      exact ⟨by simp, hs⟩
  error {s e rest} _ ha := by
    unfold Reader.attempt at ha
    split at ha <;> cases ha

theorem Within.moreItems (h : Within text item P) (hs : s <:+ text) :
    (∀ a ∈ (moreItems item s).1, P a) ∧ (Reader.moreItems item s).2 <:+ text := by
  fun_induction Reader.moreItems item s with
  | case1 rest a rest' ha hlen more rest'' hmore ih =>
    obtain ⟨hP, hrest'⟩ := h.ok ((List.suffix_cons _ _).trans hs) ha
    rw [hmore] at ih
    obtain ⟨hmore, hrest''⟩ := ih hrest'
    exact ⟨List.forall_mem_cons.mpr ⟨hP, hmore⟩, hrest''⟩
  | case2 => exact ⟨by simp, hs⟩
  | case3 => exact ⟨by simp, hs⟩
  | case4 => exact ⟨by simp, hs⟩

theorem Within.items1 (h : Within text item P) : Within text (items1 item) fun as => ∀ a ∈ as, P a := by
  refine h.bind fun a ha => ⟨fun hs has => ?_, fun hs has => by cases has⟩
  obtain ⟨rfl, rfl⟩ := EStateM.Result.ok.inj
    (show EStateM.Result.ok (a :: (Reader.moreItems item _).1) _ = _ from has)
  obtain ⟨hmore, hrest⟩ := h.moreItems hs
  exact ⟨List.forall_mem_cons.mpr ⟨ha, hmore⟩, hrest⟩

theorem Within.items (h : Within text item P) : Within text (items item) fun as => ∀ a ∈ as, P a := by
  refine h.items1.attempt.bind fun as? has => within_pure ?_
  cases as? with
  | none => simp
  | some as => exact has as rfl

theorem Within.itemsUntil (stop : List Char → Bool) (h : Within text item P) :
    Within text (itemsUntil stop item) fun as => ∀ a ∈ as, P a := by
  suffices hall : ∀ s, s <:+ text →
      (∀ as rest, Reader.itemsUntil stop item s = .ok as rest → (∀ a ∈ as, P a) ∧ rest <:+ text) ∧
      ∀ e rest, Reader.itemsUntil stop item s = .error e rest → rest <:+ text from
    ⟨fun hs has => (hall _ hs).1 _ _ has, fun hs has => (hall _ hs).2 _ _ has⟩
  intro s hs
  have hskip := (skipBlanks_suffix false s).trans hs
  fun_induction Reader.itemsUntil stop item s with
  | case1 s hstop =>
    refine ⟨fun as rest has => ?_, fun e rest has => by cases has⟩
    obtain ⟨rfl, rfl⟩ := EStateM.Result.ok.inj has
    exact ⟨by simp, hskip⟩
  | case2 s hstop a t ha hlen more u hmore ih =>
    refine ⟨fun as rest has => ?_, fun e rest has => by cases has⟩
    obtain ⟨rfl, rfl⟩ := EStateM.Result.ok.inj has
    obtain ⟨hP, ht⟩ := h.ok hskip ha
    obtain ⟨hmore, hu⟩ := (ih ht ((skipBlanks_suffix false t).trans ht)).1 _ _ hmore
    exact ⟨List.forall_mem_cons.mpr ⟨hP, hmore⟩, hu⟩
  | case3 s hstop a t ha hlen e u hmore ih =>
    refine ⟨fun as rest has => (by cases has), fun e' rest has => ?_⟩
    obtain ⟨-, rfl⟩ := EStateM.Result.error.inj has
    have ht := (h.ok hskip ha).2
    exact (ih ht ((skipBlanks_suffix false t).trans ht)).2 _ _ hmore
  | case4 s hstop a t ha hlen =>
    refine ⟨fun as rest has => (by cases has), fun e rest has => ?_⟩
    obtain ⟨-, rfl⟩ := EStateM.Result.error.inj has
    exact (h.ok hskip ha).2
  | case5 s hstop e t ha =>
    refine ⟨fun as rest has => (by cases has), fun e' rest has => ?_⟩
    obtain ⟨-, rfl⟩ := EStateM.Result.error.inj has
    exact h.error hskip ha

/-! ## Progress -/

/-- The reader takes something off the front of the text. -/
def Progresses (item : Reader α) : Prop := ∀ s a rest, item s = .ok a rest → rest.length < s.length

theorem length_le_of_within {s rest : List Char} {a : α}
    (h : ∀ text, Within text item fun _ => True) (ha : item s = .ok a rest) :
    rest.length ≤ s.length :=
  ((h s).ok List.suffix_rfl ha).2.length_le

/-- It is enough that the first step takes something off. -/
theorem Progresses.bind {k : α → Reader β} (h : Progresses item)
    (hk : ∀ a text, Within text (k a) fun _ => True) : Progresses (item >>= k) := by
  intro s b rest hb
  obtain ⟨a, t, ha, hka⟩ := Run.bind_eq_ok.mp hb
  exact Nat.lt_of_le_of_lt (length_le_of_within (hk a) hka) (h s a t ha)

/-- It is enough that a later step takes something off. -/
theorem Progresses.after {k : α → Reader β} (h : ∀ text, Within text item fun _ => True)
    (hk : ∀ a, Progresses (k a)) : Progresses (item >>= k) := by
  intro s b rest hb
  obtain ⟨a, t, ha, hka⟩ := Run.bind_eq_ok.mp hb
  exact Nat.lt_of_lt_of_le (hk a t b rest hka) (length_le_of_within h ha)

theorem progresses_literal (c : Char) : Progresses (literal c) := by
  intro s u rest h
  rw [eq_cons_of_literal h]
  exact Nat.lt_succ_self _

theorem progresses_integer : Progresses integer := by
  intro s n rest h
  obtain ⟨c, u, rfl, hu⟩ := integer_suffix h
  exact Nat.lt_succ_of_le hu.length_le

theorem Progresses.padded (h : Progresses item) : Progresses (padded item) :=
  .after (fun _ => within_padding) fun _ => h.bind fun _ _ => within_padding.andThen fun _ =>
    within_pure trivial

theorem progresses_word (p : Char → Bool) : Progresses (word p) := by
  intro s w rest h
  unfold word at h
  split at h
  · cases h
  · rename_i cs hcs
    obtain ⟨-, rfl⟩ := EStateM.Result.ok.inj h
    have hlen := congrArg List.length (List.takeWhile_append_dropWhile (p := p) (l := s))
    have hpos : 0 < (s.takeWhile p).length := List.length_pos_iff.mpr hcs
    rw [List.length_append] at hlen
    omega

/-- Loops over the item go on with less of the text each time, so they run as they would without a test
for that. -/
structure Unguarded (item : Reader α) : Prop where
  progresses : Progresses item
  itemsUntil (stop : List Char → Bool) :
    itemsUntil stop item = (do
      blanks
      if stop (← get) then return []
      let a ← item
      return a :: (← Reader.itemsUntil stop item) : Reader (List α))
  moreItems (s : List Char) :
    moreItems item (',' :: s) =
      match item s with
      | .ok a rest => (a :: (Reader.moreItems item rest).1, (Reader.moreItems item rest).2)
      | .error _ _ => ([], ',' :: s)

theorem Progresses.unguarded (h : Progresses item) : Unguarded item where
  progresses := h
  itemsUntil stop := by
    funext s
    rw [Reader.itemsUntil, Run.bind_of_ok (blanks_apply s), Run.bind_get]
    split
    · rfl
    · rw [Run.bind_apply]
      cases ha : item (skipBlanks false s) with
      | error e rest => rfl
      | ok a rest =>
        simp only [h _ _ _ ha, if_true]
        cases hmore : Reader.itemsUntil stop item rest with
        | ok more t => exact (Run.bind_of_ok (k := fun more => pure (a :: more)) hmore).symm
        | error e t => exact (Run.bind_of_error hmore).symm
  moreItems s := by
    rw [Reader.moreItems]
    cases ha : item s with
    | ok a rest => simp only [Nat.le_of_lt (h _ _ _ ha), if_true]
    | error e rest => rfl

/-! ## Places -/

/-- The part was read from an end of the text. -/
def Stands (text : List Char) (item : Reader α) (start : List Char) (a : α) : Prop :=
  start <:+ text ∧ ∃ rest, item start = .ok a rest

/-- A part that keeps the text from where it can be read stands in the text. -/
theorem Within.stands {start : α → List Char} (h : Within text item P)
    (hstart : ∀ s a rest, item s = .ok a rest → start a <:+ s ∧ item (start a) = .ok a rest) :
    Within text item fun a => P a ∧ Stands text item (start a) a where
  ok hs ha := by
    obtain ⟨hsuffix, hread⟩ := hstart _ _ _ ha
    obtain ⟨hP, hrest⟩ := h.ok hs ha
    exact ⟨⟨hP, hsuffix.trans hs, _, hread⟩, hrest⟩
  error := h.error

end SsaPrune.Reader

namespace SsaPrune.Source

open Reader

variable {text : List Char}

/-! ## The grammar -/

theorem within_readName (sign : Char) : Within text (readName sign) fun _ => True :=
  (within_literal sign).andThen fun _ => within_word _

theorem within_readOperand : Within text readOperand fun _ => True :=
  within_get.andThen fun _ => .ite ((within_readName '%').andThen fun _ => within_pure trivial)
    (within_integer.andThen fun _ => within_pure trivial)

theorem within_readPair : Within text readPair fun _ => True :=
  (within_literal '[').andThen fun _ => within_padding.andThen fun _ =>
    within_readOperand.andThen fun _ => within_padding.andThen fun _ =>
      (within_literal ',').andThen fun _ => within_padding.andThen fun _ =>
        (within_readName '^').andThen fun _ => within_padding.andThen fun _ =>
          (within_literal ']').andThen fun _ => within_pure trivial

theorem within_readSuccessors : Within text readSuccessors fun _ => True :=
  (within_literal '[').andThen fun _ => within_padding.andThen fun _ =>
    (within_readName '^').padded.items1.andThen fun _ => within_padding.andThen fun _ =>
      (within_literal ']').andThen fun _ => within_pure trivial

theorem within_optional {α : Type} {starts : List Char → Bool} {list : Reader (List α)}
    (h : Within text list fun _ => True) : Within text (optional starts list) fun _ => True where
  ok {s as rest} hs has := by
    unfold optional at has
    split at has
    · exact h.ok hs has
    · obtain ⟨-, rfl⟩ := EStateM.Result.ok.inj has
      exact ⟨trivial, hs⟩
  error {s e rest} hs has := by
    unfold optional at has
    split at has
    · exact h.error hs has
    · cases has

theorem within_readPlain : Within text readPlain fun _ => True := by
  have hoperands : Within text (items1 (padded readOperand)) fun _ => True :=
    within_readOperand.padded.items1.weaken
  rw [readPlain_eq]
  exact (within_optional hoperands).andThen fun _ => within_padding.andThen fun _ =>
    (within_optional within_readSuccessors).andThen fun _ => within_pure trivial

theorem within_readIncoming : Within text readIncoming fun _ => True :=
  within_readPair.padded.items1.andThen fun _ => within_pure trivial

theorem within_readResult : Within text readResult fun _ => True :=
  (within_readName '%').andThen fun _ => within_padding.andThen fun _ =>
    (within_literal '=').andThen fun _ => within_padding.andThen fun _ => within_pure trivial

theorem within_readCallee : Within text readCallee fun _ => True :=
  (within_readName '@').andThen fun _ => within_padding.andThen fun _ => within_pure trivial

theorem progresses_readName (sign : Char) : Progresses (readName sign) :=
  (progresses_literal sign).bind fun _ _ => within_word _

theorem progresses_readOperand : Progresses readOperand := by
  refine .after (fun _ => within_get.weaken) fun s => ?_
  split
  · exact (progresses_readName '%').bind fun _ _ => within_pure trivial
  · exact progresses_integer.bind fun _ _ => within_pure trivial

theorem progresses_readPair : Progresses readPair :=
  (progresses_literal '[').bind fun _ _ => within_padding.andThen fun _ =>
    within_readOperand.andThen fun _ => within_padding.andThen fun _ =>
      (within_literal ',').andThen fun _ => within_padding.andThen fun _ =>
        (within_readName '^').andThen fun _ => within_padding.andThen fun _ =>
          (within_literal ']').andThen fun _ => within_pure trivial

theorem progresses_readParam : Progresses readParam :=
  .after (fun _ => within_blanks) fun _ => (progresses_readName '%').bind fun _ _ =>
    within_blanks.andThen fun _ => within_pure trivial

/-! ### Instructions -/

theorem start_of_readInst {s rest : List Char} {inst : Inst} (h : readInst s = .ok inst rest) :
    inst.start = s := by
  rw [readInst, Run.bind_get] at h
  refine (show Yields _ (fun inst : Inst => inst.start = s) from ?_) s inst rest h
  refine .andThen fun result => .andThen fun opcode => .andThen fun _ => .andThen fun callee => ?_
  split
  · exact .andThen fun _ => yields_pure rfl
  · exact .andThen fun _ => yields_pure rfl

theorem within_readInst :
    Within text readInst fun inst => Stands text readInst inst.start inst := by
  have hreads : Within text readInst fun _ => True := by
    refine within_get.andThen fun start => within_readResult.attempt.andThen fun result =>
      (within_word _).andThen fun opcode => within_padding.andThen fun _ =>
        within_readCallee.attempt.andThen fun callee => ?_
    split
    · exact within_readIncoming.andThen fun _ => within_pure trivial
    · exact within_readPlain.andThen fun _ => within_pure trivial
  refine (hreads.stands fun s inst rest h => ?_).imp fun _ h => h.2
  have hstart := start_of_readInst h
  exact ⟨hstart ▸ List.suffix_rfl, hstart.symm ▸ h⟩

theorem progresses_readInst : Progresses readInst := by
  refine .after (fun text => within_get.weaken) fun start =>
    .after (fun text => within_readResult.attempt.weaken) fun result =>
      (progresses_word _).bind fun opcode text => within_padding.andThen fun _ =>
        within_readCallee.attempt.andThen fun callee => ?_
  split
  · exact within_readIncoming.andThen fun _ => within_pure trivial
  · exact within_readPlain.andThen fun _ => within_pure trivial

/-! ### Blocks -/

theorem within_readInsts :
    Within text readInsts fun insts => ∀ inst ∈ insts, Stands text readInst inst.start inst :=
  within_readInst.itemsUntil endsBlock

/-- The block and its instructions stand in the text. -/
def Block.Stands (text : List Char) (block : Block) : Prop :=
  Reader.Stands text readBlock block.start block ∧
    ∀ inst ∈ block.insts, Reader.Stands text readInst inst.start inst

theorem start_of_readBlock {s rest : List Char} {block : Block} (h : readBlock s = .ok block rest) :
    block.start = skipBlanks false s := by
  rw [readBlock, Run.bind_of_ok (blanks_apply s), Run.bind_get] at h
  refine (show Yields _ (fun block : Block => block.start = skipBlanks false s) from ?_) _ _ rest h
  exact .andThen fun label => .andThen fun _ => .andThen fun _ => .andThen fun insts => yields_pure rfl

/-- Blanks in front of a block are not a part of it. -/
theorem readBlock_skipBlanks (s : List Char) : readBlock (skipBlanks false s) = readBlock s := by
  rw [readBlock, Run.bind_of_ok (blanks_apply _), Run.bind_of_ok (blanks_apply s),
    skipBlanks_skipBlanks]

theorem within_readBlock : Within text readBlock (Block.Stands text) := by
  have hreads : Within text readBlock fun block =>
      ∀ inst ∈ block.insts, Stands text readInst inst.start inst :=
    within_blanks.andThen fun _ => within_get.andThen fun start => (within_readName '^').andThen
      fun label => within_padding.andThen fun _ => (within_literal ':').andThen fun _ =>
        within_readInsts.bind fun insts hinsts => within_pure hinsts
  refine (hreads.stands fun s block rest h => ?_).imp fun _ h => h.symm
  rw [start_of_readBlock h]
  exact ⟨skipBlanks_suffix false s, (readBlock_skipBlanks s).trans h⟩

theorem progresses_readBlock : Progresses readBlock :=
  .after (fun _ => within_blanks) fun _ => .after (fun _ => within_get.weaken) fun _ =>
    (progresses_readName '^').bind fun _ _ => within_padding.andThen fun _ =>
      (within_literal ':').andThen fun _ => within_readInsts.andThen fun _ => within_pure trivial

/-- A word is what the text starts with. -/
theorem prefix_of_word {p : Char → Bool} {w : String} {s rest : List Char}
    (h : word p s = .ok w rest) : w.toList <+: s := by
  unfold word at h
  split at h
  · cases h
  · obtain ⟨rfl, -⟩ := EStateM.Result.ok.inj h
    rw [String.toList_ofList]
    exact List.takeWhile_prefix p

/-- The label of a block is what it starts with. -/
theorem prefix_of_readBlock {s rest : List Char} {block : Block} (h : readBlock s = .ok block rest) :
    '^' :: block.label.toList <+: block.start := by
  rw [start_of_readBlock h]
  rw [readBlock, Run.bind_of_ok (blanks_apply s), Run.bind_get] at h
  obtain ⟨label, t, hname, h⟩ := Run.bind_eq_ok.mp h
  obtain ⟨_, u, hsign, hword⟩ := Run.bind_eq_ok.mp hname
  have hlabel : block.label = label := by
    refine (show Yields _ (fun block : Block => block.label = label) from ?_) _ _ rest h
    exact .andThen fun _ => .andThen fun _ => .andThen fun insts => yields_pure rfl
  rw [hlabel, eq_cons_of_literal hsign]
  exact (List.prefix_cons_inj '^').mpr (prefix_of_word hword)

/-! ### Functions -/

/-- The function stands in the text, and so do its instructions and its blocks; the first block need not
have a label. -/
structure Function.Stands (text : List Char) (source : Function) : Prop where
  function : Reader.Stands text readFunction source.start source
  insts : ∀ block ∈ source.blocks, ∀ inst ∈ block.insts, Reader.Stands text readInst inst.start inst
  blocks : ∀ block ∈ source.blocks.tail, block.Stands text

theorem within_readFirstBlock : Within text readFirstBlock fun blocks => blocks.length ≤ 1 ∧
    ∀ block ∈ blocks, ∀ inst ∈ block.insts, Stands text readInst inst.start inst := by
  refine within_get.andThen fun start => .ite (within_pure (by simp)) ?_
  exact within_readInsts.bind fun insts hinsts => within_pure ⟨Nat.le_refl 1, by simpa using hinsts⟩

theorem within_readParams : Within text readParams fun _ => True :=
  (within_literal '(').andThen fun _ => within_blanks.andThen fun _ =>
    (Within.items (within_blanks.andThen fun _ => (within_readName '%').andThen fun _ =>
      within_blanks.andThen fun _ => within_pure trivial)).andThen fun _ =>
        within_blanks.andThen fun _ => (within_literal ')').andThen fun _ => within_pure trivial

theorem eq_append_of_keyword {w : String} {s rest : List Char} {u : Unit}
    (h : keyword w s = .ok u rest) : s = w.toList ++ rest := by
  unfold keyword at h
  split at h
  · rename_i hprefix
    obtain ⟨-, rfl⟩ := EStateM.Result.ok.inj h
    obtain ⟨t, rfl⟩ := List.isPrefixOf_iff_prefix.mp hprefix
    rw [List.drop_left]
  · cases h

/-- A function starts with its word, behind the blanks. -/
theorem start_of_readFunction {s rest : List Char} {source : Function}
    (h : readFunction s = .ok source rest) :
    source.start = skipBlanks false s ∧ "func".toList <+: source.start := by
  rw [readFunction, Run.bind_of_ok (blanks_apply s), Run.bind_get] at h
  obtain ⟨_, t, hfunc, h⟩ := Run.bind_eq_ok.mp h
  have hstart : source.start = skipBlanks false s := by
    refine (show Yields _ (fun source : Function => source.start = skipBlanks false s) from ?_)
      _ _ rest h
    exact .andThen fun _ => .andThen fun _ => .andThen fun _ => .andThen fun _ => .andThen fun _ =>
      .andThen fun _ => .andThen fun _ => .andThen fun _ => .andThen fun _ => .andThen fun _ =>
        yields_pure rfl
  rw [hstart, eq_append_of_keyword hfunc]
  exact ⟨rfl, List.prefix_append _ _⟩

theorem readFunction_skipBlanks (s : List Char) :
    readFunction (skipBlanks false s) = readFunction s := by
  rw [readFunction, Run.bind_of_ok (blanks_apply _), Run.bind_of_ok (blanks_apply s),
    skipBlanks_skipBlanks]

theorem within_readFunction : Within text readFunction (Function.Stands text) := by
  have hreads : Within text readFunction fun source =>
      (∀ block ∈ source.blocks, ∀ inst ∈ block.insts, Stands text readInst inst.start inst) ∧
      ∀ block ∈ source.blocks.tail, block.Stands text := by
    refine within_blanks.andThen fun _ => within_get.andThen fun start =>
      (within_keyword "func").andThen fun _ => within_blanks.andThen fun _ =>
        (within_readName '@').andThen fun name => within_blanks.andThen fun _ =>
          within_readParams.andThen fun params => within_blanks.andThen fun _ =>
            (within_literal '\x7b').andThen fun _ => within_blanks.andThen fun _ =>
              within_readFirstBlock.bind fun first hfirst =>
                (within_readBlock.itemsUntil _).bind fun labelled hlabelled =>
                  (within_literal '\x7d').andThen fun _ => within_pure ⟨?_, ?_⟩
    · exact List.forall_mem_append.mpr ⟨hfirst.2, fun block hb => (hlabelled block hb).2⟩
    · refine fun block hb => hlabelled block ?_
      match first, hfirst with
      | [], _ => exact List.mem_of_mem_tail hb
      | [_], _ => exact hb
  refine (hreads.stands fun s source rest h => ?_).imp fun _ h => ⟨h.2, h.1.1, h.1.2⟩
  rw [(start_of_readFunction h).1]
  exact ⟨skipBlanks_suffix false s, (readFunction_skipBlanks s).trans h⟩

theorem progresses_keyword {w : String} (hw : w ≠ "") : Progresses (keyword w) := by
  intro s u rest h
  have hpos : 0 < w.toList.length :=
    List.length_pos_iff.mpr fun hnil => hw (String.toList_eq_nil_iff.mp hnil)
  rw [eq_append_of_keyword h, List.length_append]
  omega

theorem progresses_readFunction : Progresses readFunction :=
  .after (fun _ => within_blanks) fun _ => .after (fun _ => within_get.weaken) fun _ =>
    (progresses_keyword (by decide)).bind fun _ _ => within_blanks.andThen fun _ =>
      (within_readName '@').andThen fun _ => within_blanks.andThen fun _ =>
        within_readParams.andThen fun _ => within_blanks.andThen fun _ =>
          (within_literal '\x7b').andThen fun _ => within_blanks.andThen fun _ =>
            within_readFirstBlock.andThen fun _ => (within_readBlock.itemsUntil _).andThen fun _ =>
              (within_literal '\x7d').andThen fun _ => within_pure trivial

/-- **Whatever is read of a module stands in its text**, and what is left over is an end of the text. -/
theorem within_readModule : Within text readModule fun sources =>
    ∀ source ∈ sources, source.Stands text :=
  within_readFunction.itemsUntil List.isEmpty

end SsaPrune.Source
