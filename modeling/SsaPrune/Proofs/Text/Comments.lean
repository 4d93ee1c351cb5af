import SsaPrune.Proofs.Text.Positions
import SsaPrune.Proofs.Text.RoundTrip

/-!
# Comments mean nothing

A text is read as it is read without its comments. A comment can stand where blanks can, and there the
reader skips it. Anywhere else its semicolon ends what is being read, and so does the line end that is
left in its place, or the end of the text: no other part of the grammar has room for any of them.

So of each reader it is shown that it goes through both texts side by side (`Blind`): it succeeds in both
or fails in both, and what is left over of the one text is what is left over of the other, without its
comments.
-/

namespace SsaPrune

/-- A text without its comments, each of which runs from a semicolon up to the end of its line; `comment`
says whether the text starts inside one. -/
def uncommented (comment : Bool) : List Char → List Char
  | [] => []
  | c :: s => if c = ';' ∨ comment ∧ c ≠ '\n' then uncommented true s else c :: uncommented false s

/-- The text with each comment taken out, from its semicolon up to the line end, which stays. -/
def withoutComments (text : String) : String := String.ofList (uncommented false text.toList)

namespace Reader

variable {α β γ δ : Type} {s : List Char} {p : Char → Bool}

/-! ## Texts without comments -/

theorem uncommented_cons {c : Char} (hc : c ≠ ';') (s : List Char) :
    uncommented false (c :: s) = c :: uncommented false s := by
  simp [uncommented, hc]

theorem uncommented_semicolon (s : List Char) :
    uncommented false (';' :: s) = uncommented true s := by
  simp [uncommented]

/-- A comment goes up to the line end, which stays. -/
theorem uncommented_true (s : List Char) :
    uncommented true s = uncommented false (s.dropWhile (· ≠ '\n')) := by
  induction s with
  | nil => rfl
  | cons c s ih =>
    by_cases hc : c = '\n'
    · subst hc
      rfl
    · simpa [uncommented, hc] using ih

example : withoutComments "ret ; one\n;two;\n\x7d;" = "ret \n\n\x7d" := by decide

/-- What is left of a comment is the line end behind it, if there is one. -/
theorem uncommented_true_cases (s : List Char) :
    uncommented true s = [] ∨ ∃ t, uncommented true s = '\n' :: t := by
  rw [uncommented_true]
  cases hs : s.dropWhile (· ≠ '\n') with
  | nil => exact .inl rfl
  | cons c t =>
    have hhead := List.head?_dropWhile_not (· ≠ '\n') s
    rw [hs] at hhead
    obtain rfl : c = '\n' := by simpa using hhead
    exact .inr ⟨uncommented false t, uncommented_cons (by decide) t⟩

theorem stops_uncommented (hp : p '\n' = false) (s : List Char) : Stops p (uncommented true s) := by
  obtain hs | ⟨t, hs⟩ := uncommented_true_cases s <;> simp [hs, hp]

theorem uncommented_append {w : List Char} (hw : ∀ c ∈ w, c ≠ ';') (s : List Char) :
    uncommented false (w ++ s) = w ++ uncommented false s := by
  induction w with
  | nil => rfl
  | cons c w ih =>
    obtain ⟨hc, hw⟩ := List.forall_mem_cons.mp hw
    rw [List.cons_append, uncommented_cons hc, ih hw, List.cons_append]

/-- A word in which there is neither a semicolon nor a line end stands at the front of both texts, or of
none. -/
theorem prefix_uncommented_iff {w : List Char} (hw : ∀ c ∈ w, c ≠ ';' ∧ c ≠ '\n') (s : List Char) :
    w <+: uncommented false s ↔ w <+: s := by
  induction w generalizing s with
  | nil => simp
  | cons c w ih =>
    obtain ⟨⟨hc, hn⟩, hw⟩ := List.forall_mem_cons.mp hw
    cases s with
    | nil => rfl
    | cons d s =>
      by_cases hd : d = ';'
      · subst hd
        rw [uncommented_semicolon]
        obtain hs | ⟨t, hs⟩ := uncommented_true_cases s <;> simp [hs, List.cons_prefix_cons, hc, hn]
      · rw [uncommented_cons hd, List.cons_prefix_cons, List.cons_prefix_cons, ih hw]

/-- A scan that stops at a semicolon and at a line end reads the same in both texts. -/
theorem scan_uncommented (hp : p ';' = false ∧ p '\n' = false) (s : List Char) :
    (uncommented false s).takeWhile p = s.takeWhile p ∧
      (uncommented false s).dropWhile p = uncommented false (s.dropWhile p) := by
  induction s with
  | nil => exact ⟨rfl, rfl⟩
  | cons c s ih =>
    by_cases hc : c = ';'
    · subst hc
      have hstops : Stops p (';' :: s) := stops_cons.mpr hp.1
      have hstops' : Stops p (uncommented false (';' :: s)) := by
        rw [uncommented_semicolon]
        exact stops_uncommented hp.2 s
      rw [takeWhile_of_stops hstops, takeWhile_of_stops hstops', dropWhile_of_stops hstops,
        dropWhile_of_stops hstops']
      exact ⟨rfl, rfl⟩
    · rw [uncommented_cons hc, List.takeWhile_cons, List.takeWhile_cons, List.dropWhile_cons,
        List.dropWhile_cons]
      cases p c with
      | false => exact ⟨rfl, (uncommented_cons hc s).symm⟩
      | true => exact ⟨congrArg (c :: ·) ih.1, ih.2⟩

/-- A test of the next character has the same answer in both texts. -/
theorem any_head?_uncommented (hp : p ';' = false ∧ p '\n' = false) (s : List Char) :
    (uncommented false s).head?.any p = s.head?.any p := by
  cases s with
  | nil => rfl
  | cons c s =>
    by_cases hc : c = ';'
    · subst hc
      rw [uncommented_semicolon]
      obtain hs | ⟨t, hs⟩ := uncommented_true_cases s <;> simp [hs, hp]
    · rw [uncommented_cons hc]
      rfl

theorem stops_iff_any : Stops p s ↔ s.head?.any p = false := by
  cases s <;> simp

theorem stops_uncommented_iff (hp : p ';' = false ∧ p '\n' = false) :
    Stops p (uncommented false s) ↔ Stops p s := by
  rw [stops_iff_any, stops_iff_any, any_head?_uncommented hp]

theorem startsWith_eq_any (c : Char) (s : List Char) :
    startsWith c s = s.head?.any fun d => decide (d = c) := by
  cases s <;> simp [startsWith]

theorem startsWith_uncommented {c : Char} (hc : c ≠ ';' ∧ c ≠ '\n') (s : List Char) :
    startsWith c (uncommented false s) = startsWith c s := by
  rw [startsWith_eq_any, startsWith_eq_any]
  exact any_head?_uncommented ⟨decide_eq_false hc.1.symm, decide_eq_false hc.2.symm⟩ s

theorem isEmpty_uncommented (h : Stops (· = ';') s) : (uncommented false s).isEmpty = s.isEmpty := by
  cases s with
  | nil => rfl
  | cons c s => rw [uncommented_cons (by simpa using h), List.isEmpty_cons, List.isEmpty_cons]

/-- Blanks and comments are skipped as the blanks alone are. -/
theorem skipBlanks_uncommented (comment : Bool) (s : List Char) :
    skipBlanks false (uncommented comment s) = uncommented false (skipBlanks comment s) := by
  induction s generalizing comment with
  | nil => rfl
  | cons c s ih =>
    by_cases hc : c = ';'
    · subst hc
      cases comment <;> simpa [uncommented, skipBlanks, isBlank] using ih true
    · by_cases hline : c = '\n'
      · subst hline
        cases comment <;> simpa [uncommented, skipBlanks, isBlank] using ih false
      · cases comment with
        | true => simpa [uncommented, skipBlanks, hline] using ih true
        | false =>
          rw [uncommented_cons hc, skipBlanks, skipBlanks]
          simp only [hc, if_false, Bool.false_eq_true]
          split
          · exact ih false
          · exact (uncommented_cons hc s).symm

/-- Behind blanks there is no comment. -/
theorem stops_skipBlanks (comment : Bool) (s : List Char) :
    Stops (· = ';') (skipBlanks comment s) := by
  induction s generalizing comment with
  | nil => exact stops_nil _
  | cons c s ih =>
    rw [skipBlanks]
    split_ifs with _ _ hc
    · exact ih _
    · exact ih _
    · exact ih _
    · exact stops_cons.mpr (decide_eq_false hc)

/-! ## Readers that are blind to comments -/

/-- The outcome on a text and the one on the text without its comments: what was read is the same up to
places, and what is left over differs in comments only. -/
inductive Alike (bare : α → γ) : EStateM.Result Unit (List Char) α →
    EStateM.Result Unit (List Char) α → Prop
  | ok {a a' : α} (rest : List Char) (h : bare a = bare a') :
      Alike bare (.ok a rest) (.ok a' (uncommented false rest))
  | error (rest : List Char) : Alike bare (.error () rest) (.error () (uncommented false rest))

theorem Alike.eq_ok {bare : α → γ} {a : α} {rest : List Char}
    {r : EStateM.Result Unit (List Char) α} (h : Alike bare (.ok a rest) r) :
    ∃ a', bare a = bare a' ∧ r = .ok a' (uncommented false rest) := by
  cases h with
  | ok _ h => exact ⟨_, h, rfl⟩

theorem Alike.eq_error {bare : α → γ} {e : Unit} {rest : List Char}
    {r : EStateM.Result Unit (List Char) α} (h : Alike bare (.error e rest) r) :
    r = .error () (uncommented false rest) := by
  cases h with
  | error => rfl

/-- The second reader does with a text without its comments what the first does with the text. -/
def Blind (bare : α → γ) (m m' : Reader α) : Prop :=
  ∀ s, Alike bare (m s) (m' (uncommented false s))

section

variable {bare : α → γ} {bare' : β → δ} {m m' item : Reader α} {k k' : α → Reader β}

theorem Blind.of_ok (h : Blind bare m m') {a : α} {rest : List Char} (ha : m s = .ok a rest) :
    ∃ a', bare a = bare a' ∧ m' (uncommented false s) = .ok a' (uncommented false rest) :=
  (ha ▸ h s).eq_ok

theorem Blind.of_error (h : Blind bare m m') {e : Unit} {rest : List Char}
    (he : m s = .error e rest) : m' (uncommented false s) = .error () (uncommented false rest) :=
  (he ▸ h s).eq_error

theorem blind_pure {a a' : α} (h : bare a = bare a') : Blind bare (pure a) (pure a') :=
  fun s => .ok s h

theorem Blind.bind (h : Blind bare m m')
    (hk : ∀ a a', bare a = bare a' → Blind bare' (k a) (k' a')) :
    Blind bare' (m >>= k) (m' >>= k') := by
  intro s
  rw [Run.bind_apply, Run.bind_apply]
  match m s, m' (uncommented false s), h s with
  | _, _, .ok rest ha => exact hk _ _ ha rest
  | _, _, .error rest => exact .error rest

/-- A step that keeps no places. -/
theorem Blind.step (h : Blind id m m') (hk : ∀ a, Blind bare' (k a) (k' a)) :
    Blind bare' (m >>= k) (m' >>= k') :=
  h.bind fun a a' (haa' : a = a') => haa' ▸ hk a

/-- The text from some place on; what is kept of it is a place. -/
theorem blind_get {k k' : List Char → Reader β} (hk : ∀ s, Blind bare' (k s) (k' (uncommented false s))) :
    Blind bare' (get >>= k) (get >>= k') :=
  fun s => hk s s

/-- A choice by what comes next. -/
theorem blind_test {q : List Char → Bool} (hq : ∀ s, q (uncommented false s) = q s)
    (hm : Blind bare m m) (hitem : Blind bare item item) :
    Blind bare (do if q (← get) then m else item) (do if q (← get) then m else item) := by
  refine blind_get fun s => ?_
  rw [hq]
  split
  · exact hm
  · exact hitem

/-! ### Words and blanks -/

theorem blind_literal {c : Char} (hc : c ≠ ';' ∧ c ≠ '\n') :
    Blind id (literal c) (literal c) := by
  intro s
  by_cases hs : Stops (· = c) s
  · have hs' : Stops (· = c) (uncommented false s) :=
      (stops_uncommented_iff ⟨decide_eq_false hc.1.symm, decide_eq_false hc.2.symm⟩).mpr hs
    rw [literal_of_stops hs, literal_of_stops hs']
    exact .error s
  · obtain ⟨s, rfl⟩ : ∃ rest, s = c :: rest := by
      cases s with
      | nil => exact absurd (stops_nil _) hs
      | cons d s => exact ⟨s, by simpa using hs⟩
    rw [uncommented_cons hc.1, literal_cons, literal_cons]
    exact .ok s rfl

theorem blind_word (hp : p ';' = false ∧ p '\n' = false) : Blind id (word p) (word p) := by
  intro s
  obtain ⟨htake, hdrop⟩ := scan_uncommented hp s
  unfold word
  rw [htake, hdrop]
  split
  · exact .error s
  · exact .ok _ rfl

theorem blind_keyword {w : String} (hw : ∀ c ∈ w.toList, c ≠ ';' ∧ c ≠ '\n') :
    Blind id (keyword w) (keyword w) := by
  intro s
  have hiff := prefix_uncommented_iff hw s
  unfold keyword
  by_cases hs : w.toList <+: s
  · rw [if_pos (List.isPrefixOf_iff_prefix.mpr hs),
      if_pos (List.isPrefixOf_iff_prefix.mpr (hiff.mpr hs))]
    obtain ⟨t, rfl⟩ := hs
    rw [uncommented_append fun c hc => (hw c hc).1, List.drop_left, List.drop_left]
    exact .ok t rfl
  · rw [if_neg (mt List.isPrefixOf_iff_prefix.mp hs),
      if_neg (mt List.isPrefixOf_iff_prefix.mp (mt hiff.mp hs))]
    exact .error s

theorem blind_padding : Blind id padding padding := by
  intro s
  rw [padding_apply, padding_apply, (scan_uncommented (by decide) s).2]
  exact .ok _ rfl

theorem blind_blanks : Blind id blanks blanks := by
  intro s
  rw [blanks_apply, blanks_apply, skipBlanks_uncommented]
  exact .ok _ rfl

theorem Blind.padded (h : Blind id item item) : Blind id (padded item) (padded item) :=
  blind_padding.step fun _ => h.step fun _ => blind_padding.step fun _ => blind_pure rfl

theorem Blind.attempt (h : Blind id m m) : Blind id (attempt m) (attempt m) := by
  intro s
  unfold Reader.attempt
  match m s, m (uncommented false s), h s with
  | _, _, .ok rest ha => exact .ok rest (congrArg some ha)
  | _, _, .error rest => exact .ok s rfl

/-! ### Integers -/

theorem positive?_eq (s : List Char) : positive? s =
    if s.head?.any fun c => c.isDigit && c ≠ '0' then
      some ((s.takeWhile Char.isDigit).foldl (fun (n : Int) d => 10 * n + (d.toNat - '0'.toNat)) 0,
        s.dropWhile Char.isDigit)
    else none := by
  cases s <;> rfl

theorem positive?_uncommented (s : List Char) : positive? (uncommented false s) =
    (positive? s).map fun (n, rest) => (n, uncommented false rest) := by
  obtain ⟨htake, hdrop⟩ := scan_uncommented (p := Char.isDigit) (by decide) s
  rw [positive?_eq, positive?_eq, any_head?_uncommented (by decide), htake, hdrop]
  split <;> rfl

theorem integer?_uncommented (s : List Char) : integer? (uncommented false s) =
    (integer? s).map fun (n, rest) => (n, uncommented false rest) := by
  cases s with
  | nil => rfl
  | cons c s =>
    by_cases hc : c = ';'
    · subst hc
      rw [uncommented_semicolon]
      obtain hs | ⟨t, hs⟩ := uncommented_true_cases s
      · rw [hs]
        rfl
      · rw [hs]
        rfl
    · have hpositive := positive?_uncommented (c :: s)
      rw [uncommented_cons hc] at hpositive ⊢
      rw [integer?_cons, integer?_cons]
      split_ifs
      · rfl
      · exact positive?_uncommented s
      · rw [positive?_uncommented, Option.map_map, Option.map_map]
        rfl
      · exact hpositive

theorem blind_integer : Blind id integer integer := by
  intro s
  unfold integer
  rw [integer?_uncommented]
  cases integer? s with
  | none => exact .error s
  | some q =>
    simp only [Option.map_some]
    split
    · exact .ok q.2 rfl
    · exact .error s

/-! ### Lists -/

theorem Blind.moreItems (h : Blind id item item) (hp : Progresses item) (s : List Char) :
    Reader.moreItems item (uncommented false s) =
      ((Reader.moreItems item s).1, uncommented false (Reader.moreItems item s).2) := by
  fun_induction Reader.moreItems item s with
  | case1 rest a rest' ha hlen more rest'' hmore ih =>
    obtain ⟨_, rfl, ha'⟩ := h.of_ok ha
    rw [uncommented_cons (by decide), hp.unguarded.moreItems, ha']
    simp only [ih, hmore]
    rfl
  | case2 rest a rest' ha hlen => exact absurd (Nat.le_of_lt (hp _ _ _ ha)) hlen
  | case3 rest e rest' ha =>
    rw [uncommented_cons (by decide), hp.unguarded.moreItems, h.of_error ha]
  | case4 s hs =>
    have hstops : Stops (· = ',') s := by
      cases s with
      | nil => exact stops_nil _
      | cons c s => exact stops_cons.mpr (by simpa using fun hc => hs s (by rw [hc]))
    exact moreItems_of_stops ((stops_uncommented_iff (by decide)).mpr hstops)

theorem Blind.items1 (h : Blind id item item) (hp : Progresses item) :
    Blind id (items1 item) (items1 item) := by
  have hmore : Blind id (modifyGet (Reader.moreItems item) : Reader (List α))
      (modifyGet (Reader.moreItems item)) := by
    intro s
    change Alike id (.ok _ _) (.ok (Reader.moreItems item (uncommented false s)).1
      (Reader.moreItems item (uncommented false s)).2)
    rw [h.moreItems hp s]
    exact .ok _ rfl
  exact h.step fun a => hmore.step fun more => blind_pure rfl

theorem Blind.items (h : Blind id item item) (hp : Progresses item) :
    Blind id (items item) (items item) :=
  (h.items1 hp).attempt.step fun _ => blind_pure rfl

/-- A list that does not end here goes on with an item. -/
theorem Progresses.itemsUntil {stop : List Char → Bool} (hp : Progresses item) {t : List Char}
    (hs : skipBlanks false s = t) (ht : stop t = false) :
    Reader.itemsUntil stop item s =
      (do return (← item) :: (← Reader.itemsUntil stop item) : Reader (List α)) t := by
  refine (congrFun (hp.unguarded.itemsUntil stop) s).trans ?_
  rw [Run.bind_of_ok (blanks_apply s), Run.bind_get, hs, if_neg (by simp [ht])]

/-- Items with blanks before each, up to a place that both texts agree on. -/
theorem Blind.itemsUntil {stop : List Char → Bool}
    (hstop : ∀ s, Stops (· = ';') s → stop (uncommented false s) = stop s)
    (h : Blind bare item item) (hp : Progresses item) :
    Blind (List.map bare) (itemsUntil stop item) (itemsUntil stop item) := by
  intro s
  have hskip := skipBlanks_uncommented false s
  have hsame := hstop _ (stops_skipBlanks false s)
  fun_induction Reader.itemsUntil stop item s with
  | case1 s hend =>
    rw [itemsUntil_nil hskip (hsame.trans hend)]
    exact .ok _ rfl
  | case2 s hgo a rest ha hlen more u hmore ih =>
    obtain ⟨a', hbare, ha'⟩ := h.of_ok ha
    have hrest := ih (skipBlanks_uncommented false rest) (hstop _ (stops_skipBlanks false rest))
    rw [hmore] at hrest
    obtain ⟨more', hbares, hmore'⟩ := hrest.eq_ok
    rw [hp.itemsUntil hskip (hsame.trans (Bool.eq_false_iff.mpr hgo)), Run.bind_of_ok ha',
      Run.bind_of_ok hmore']
    exact .ok u (by rw [List.map_cons, List.map_cons, hbare, hbares])
  | case3 s hgo a rest ha hlen e u hmore ih =>
    obtain ⟨a', -, ha'⟩ := h.of_ok ha
    have hrest := ih (skipBlanks_uncommented false rest) (hstop _ (stops_skipBlanks false rest))
    rw [hmore] at hrest
    rw [hp.itemsUntil hskip (hsame.trans (Bool.eq_false_iff.mpr hgo)), Run.bind_of_ok ha',
      Run.bind_of_error hrest.eq_error]
    exact .error u
  | case4 s hgo a rest ha hlen => exact absurd (hp _ _ _ ha) hlen
  | case5 s hgo e rest ha =>
    rw [hp.itemsUntil hskip (hsame.trans (Bool.eq_false_iff.mpr hgo)),
      Run.bind_of_error (h.of_error ha)]
    exact .error rest

end

end Reader

namespace Source

open Reader

/-! ## The grammar -/

theorem blind_readName {sign : Char} (hs : sign ≠ ';' ∧ sign ≠ '\n') :
    Blind id (readName sign) (readName sign) :=
  (blind_literal hs).step fun _ => blind_word (by decide)

theorem blind_readOperand : Blind id readOperand readOperand :=
  blind_test (startsWith_uncommented (by decide))
    ((blind_readName (by decide)).step fun _ => blind_pure rfl)
    (blind_integer.step fun _ => blind_pure rfl)

theorem blind_readSuccessors : Blind id readSuccessors readSuccessors :=
  (blind_literal (by decide)).step fun _ => blind_padding.step fun _ =>
    ((blind_readName (by decide)).padded.items1 (progresses_readName '^').padded).step
      fun _ => blind_padding.step fun _ =>
        (blind_literal (by decide)).step fun _ => blind_pure rfl

theorem blind_readPair : Blind id readPair readPair :=
  (blind_literal (by decide)).step fun _ => blind_padding.step fun _ =>
    blind_readOperand.step fun _ => blind_padding.step fun _ =>
      (blind_literal (by decide)).step fun _ => blind_padding.step fun _ =>
        (blind_readName (by decide)).step fun _ => blind_padding.step fun _ =>
          (blind_literal (by decide)).step fun _ => blind_pure rfl

theorem blind_readIncoming : Blind id readIncoming readIncoming :=
  (blind_readPair.padded.items1 progresses_readPair.padded).step fun _ => blind_pure rfl

theorem blind_readResult : Blind id readResult readResult :=
  (blind_readName (by decide)).step fun _ => blind_padding.step fun _ =>
    (blind_literal (by decide)).step fun _ => blind_padding.step fun _ => blind_pure rfl

theorem blind_readCallee : Blind id readCallee readCallee :=
  (blind_readName (by decide)).step fun _ => blind_padding.step fun _ => blind_pure rfl

theorem blind_optional {α : Type} {starts : List Char → Bool} {list : Reader (List α)}
    (hq : ∀ s, starts (uncommented false s) = starts s) (h : Blind id list list) :
    Blind id (optional starts list) (optional starts list) := by
  rw [optional_eq]
  exact blind_test hq h (blind_pure rfl)

theorem blind_readPlain : Blind id readPlain readPlain := by
  rw [readPlain_eq]
  refine (blind_optional (any_head?_uncommented (by decide))
    (blind_readOperand.padded.items1 progresses_readOperand.padded)).step fun _ => ?_
  refine blind_padding.step fun _ => ?_
  exact (blind_optional (startsWith_uncommented (by decide))
    blind_readSuccessors).step fun _ => blind_pure rfl

theorem blind_readInst : Blind Inst.bare readInst readInst := by
  refine blind_get fun start => ?_
  refine blind_readResult.attempt.step fun result => ?_
  refine (blind_word (by decide)).step fun opcode => ?_
  refine blind_padding.step fun _ => blind_readCallee.attempt.step fun callee => ?_
  split
  · exact blind_readIncoming.step fun _ => blind_pure rfl
  · exact blind_readPlain.step fun _ => blind_pure rfl

/-- Where no comment starts, a block ends in both texts or in none. -/
theorem endsBlock_uncommented (s : List Char) (hs : Stops (· = ';') s) :
    endsBlock (uncommented false s) = endsBlock s := by
  rw [endsBlock, endsBlock, startsWith_uncommented (by decide),
    startsWith_uncommented (by decide), isEmpty_uncommented hs]

theorem blind_readInsts : Blind (List.map Inst.bare) readInsts readInsts :=
  blind_readInst.itemsUntil endsBlock_uncommented progresses_readInst

theorem blind_readBlock : Blind Block.bare readBlock readBlock := by
  refine blind_blanks.step fun _ => blind_get fun start => ?_
  refine (blind_readName (by decide)).step fun label => blind_padding.step fun _ => ?_
  refine (blind_literal (by decide)).step fun _ => ?_
  exact blind_readInsts.bind fun insts insts' hinsts => blind_pure (by simp [Block.bare, hinsts])

theorem blind_readFirstBlock : Blind (List.map Block.bare) readFirstBlock readFirstBlock := by
  refine blind_get fun start => ?_
  rw [startsWith_uncommented (by decide), startsWith_uncommented (by decide)]
  split
  · exact blind_pure rfl
  · exact blind_readInsts.bind fun insts insts' hinsts => blind_pure (by simp [Block.bare, hinsts])

theorem blind_readParam : Blind id readParam readParam :=
  blind_blanks.step fun _ => (blind_readName (by decide)).step fun _ =>
    blind_blanks.step fun _ => blind_pure rfl

theorem blind_readParams : Blind id readParams readParams :=
  (blind_literal (by decide)).step fun _ => blind_blanks.step fun _ =>
    (blind_readParam.items progresses_readParam).step fun _ => blind_blanks.step fun _ =>
      (blind_literal (by decide)).step fun _ => blind_pure rfl

theorem blind_readFunction : Blind Function.bare readFunction readFunction := by
  have hblocks : Blind (List.map Block.bare) (itemsUntil (fun s => !startsWith '^' s) readBlock)
      (itemsUntil (fun s => !startsWith '^' s) readBlock) :=
    blind_readBlock.itemsUntil
      (fun s _ => congrArg (!·) (startsWith_uncommented (by decide) s)) progresses_readBlock
  refine blind_blanks.step fun _ => blind_get fun start => ?_
  refine (blind_keyword (by simp)).step fun _ => blind_blanks.step fun _ => ?_
  refine (blind_readName (by decide)).step fun name => blind_blanks.step fun _ => ?_
  refine blind_readParams.step fun params => blind_blanks.step fun _ => ?_
  refine (blind_literal (by decide)).step fun _ => blind_blanks.step fun _ => ?_
  refine blind_readFirstBlock.bind fun first first' hfirst => ?_
  refine hblocks.bind fun labelled labelled' hlabelled => ?_
  refine (blind_literal (by decide)).step fun _ => blind_pure ?_
  simp [Function.bare, hfirst, hlabelled]

theorem blind_readModule : Blind (List.map Function.bare) readModule readModule :=
  blind_readFunction.itemsUntil (fun _ hs => isEmpty_uncommented hs) progresses_readFunction

end Source

/-- **Comments mean nothing**: a text can be read exactly when it can be read without its comments, and
the functions are the same. -/
theorem parseModule_withoutComments (text : String) (fs : List Function) :
    parseModule (withoutComments text) = .ok fs ↔ parseModule text = .ok fs := by
  rw [parseModule_eq_ok, parseModule_eq_ok, withoutComments, String.toList_ofList]
  constructor
  · rintro ⟨sources', rest', hread', hall⟩
    cases hread : Source.readModule text.toList with
    | ok sources rest =>
      obtain ⟨_, hbare, heq⟩ := Source.blind_readModule.of_ok hread
      obtain ⟨rfl, -⟩ := EStateM.Result.ok.inj (hread'.symm.trans heq)
      exact ⟨sources, rest, rfl, Source.resolveAll_of_bare hbare.symm hall⟩
    | error e rest =>
      rw [Source.blind_readModule.of_error hread] at hread'
      cases hread'
  · rintro ⟨sources, rest, hread, hall⟩
    obtain ⟨sources', hbare, hread'⟩ := Source.blind_readModule.of_ok hread
    exact ⟨sources', _, hread', Source.resolveAll_of_bare hbare hall⟩

end SsaPrune
