import SsaPrune.Text.Reader
import SsaPrune.Proofs.Runs

/-!
# Reading back what was written: words, integers and lists

Each reader of a word undoes the writing of that word when the text that follows cannot be taken for
a part of it. The words are read greedily, so the condition is on the first character that follows.

The main statements are `integer_toString` and `items1_intercalate`: an integer is read back from its
decimal digits, and a list from its items with a comma and a blank between them.
-/

namespace SsaPrune.Reader

variable {α : Type} {s t rest : List Char}

/-! ## What comes next -/

/-- The text does not start with a character that satisfies `p`. -/
def Stops (p : Char → Bool) (s : List Char) : Prop := ∀ c ∈ s.head?, p c = false

@[simp] theorem stops_nil (p : Char → Bool) : Stops p [] := by simp [Stops]

@[simp] theorem stops_cons {p : Char → Bool} {c : Char} : Stops p (c :: s) ↔ p c = false := by
  simp [Stops]

theorem Stops.mono {p q : Char → Bool} (h : Stops p s) (hpq : ∀ c, q c = true → p c = true) :
    Stops q s := fun c hc => by
  have := h c hc
  cases hq : q c with
  | false => rfl
  | true => rw [hpq c hq] at this; cases this

theorem takeWhile_of_stops {p : Char → Bool} (h : Stops p s) : s.takeWhile p = [] := by
  cases s with
  | nil => rfl
  | cons c s => simp [stops_cons.mp h]

theorem dropWhile_of_stops {p : Char → Bool} (h : Stops p s) : s.dropWhile p = s := by
  cases s with
  | nil => rfl
  | cons c s => simp [stops_cons.mp h]

/-- A greedy reading takes the word and leaves what follows. -/
theorem takeWhile_append_of_stops {p : Char → Bool} (hs : ∀ c ∈ s, p c = true) (h : Stops p t) :
    (s ++ t).takeWhile p = s := by
  rw [List.takeWhile_append_of_pos hs, takeWhile_of_stops h, List.append_nil]

theorem dropWhile_append_of_stops {p : Char → Bool} (hs : ∀ c ∈ s, p c = true) (h : Stops p t) :
    (s ++ t).dropWhile p = t := by
  rw [List.dropWhile_append_of_pos hs, dropWhile_of_stops h]

/-! ## Characters, words and blanks -/

theorem literal_cons (c : Char) (s : List Char) : literal c (c :: s) = .ok () s := by
  simp [literal]

theorem literal_of_stops {c : Char} (h : Stops (· = c) s) : literal c s = .error () s := by
  cases s with
  | nil => rfl
  | cons d s =>
    have hd : d ≠ c := by simpa using h
    simp [literal, hd]

theorem word_append {p : Char → Bool} {w : String} (hne : w ≠ "") (hw : ∀ c ∈ w.toList, p c = true)
    (h : Stops p rest) : word p (w.toList ++ rest) = .ok w rest := by
  unfold word
  rw [takeWhile_append_of_stops hw h, dropWhile_append_of_stops hw h]
  cases hl : w.toList with
  | nil => exact absurd (String.toList_eq_nil_iff.mp hl) hne
  | cons c cs =>
    change EStateM.Result.ok (String.ofList (c :: cs)) rest = _
    rw [← hl, String.ofList_toList]

theorem padding_apply (s : List Char) : padding s = .ok () (s.dropWhile isPadding) := rfl

theorem blanks_apply (s : List Char) : blanks s = .ok () (skipBlanks false s) := rfl

theorem skipBlanks_of_stops (h : Stops (fun c => isBlank c || c = ';') s) :
    skipBlanks false s = s := by
  cases s with
  | nil => rfl
  | cons c s =>
    obtain ⟨hb, hc⟩ := Bool.or_eq_false_iff.mp (stops_cons.mp h)
    have : c ≠ ';' := by simpa using hc
    simp [skipBlanks, hb, this]

theorem skipBlanks_skipBlanks (comment : Bool) (s : List Char) :
    skipBlanks false (skipBlanks comment s) = skipBlanks comment s := by
  induction s generalizing comment with
  | nil => rfl
  | cons c s ih =>
    rw [skipBlanks]
    split
    · exact ih _
    · split
      · exact ih _
      · split
        · exact ih _
        · rename_i hb hc
          simp [skipBlanks, hb, hc]

theorem skipBlanks_cons {c : Char} (h : isBlank c = true) (s : List Char) :
    skipBlanks false (c :: s) = skipBlanks false s := by
  simp [skipBlanks, h]

/-! ## Integers -/

theorem foldl_digits (digits : List Char) (hd : ∀ c ∈ digits, c.isDigit = true) (n : Nat) :
    digits.foldl (fun (n : Int) d => 10 * n + (d.toNat - '0'.toNat)) n =
      (Nat.ofDigitChars 10 digits n : Nat) := by
  induction digits generalizing n with
  | nil => rfl
  | cons c digits ih =>
    have hc : '0'.toNat ≤ c.toNat := by
      have := hd c List.mem_cons_self
      simp only [Char.isDigit, Bool.and_eq_true, decide_eq_true_eq] at this
      exact this.1
    rw [List.foldl_cons, Nat.ofDigitChars, List.foldl_cons, ← Nat.ofDigitChars]
    have hstep : 10 * (n : Int) + ((c.toNat : Int) - ('0'.toNat : Int)) =
        ((10 * n + (c.toNat - '0'.toNat) : Nat) : Int) := by omega
    rw [hstep, ih (fun d hm => hd d (List.mem_cons_of_mem _ hm))]

/-- The decimal digits of a positive number start with one that is not zero. -/
theorem head?_toDigits (n : Nat) (hn : 0 < n) :
    ∃ c cs, Nat.toDigits 10 n = c :: cs ∧ c ≠ '0' := by
  induction n using Nat.strongRecOn with
  | ind n ih =>
    rw [Nat.toDigits_eq_if (by omega)]
    by_cases h : n < 10
    · refine ⟨n.digitChar, [], by simp [h], ?_⟩
      have : n = 1 ∨ n = 2 ∨ n = 3 ∨ n = 4 ∨ n = 5 ∨ n = 6 ∨ n = 7 ∨ n = 8 ∨ n = 9 := by omega
      rcases this with rfl | rfl | rfl | rfl | rfl | rfl | rfl | rfl | rfl <;> decide
    · obtain ⟨c, cs, hcs, hc⟩ := ih (n / 10) (by omega) (by omega)
      exact ⟨c, cs ++ [(n % 10).digitChar], by simp [h, hcs], hc⟩

theorem positive?_toDigits {n : Nat} (hn : 0 < n) (h : Stops Char.isDigit rest) :
    positive? (Nat.toDigits 10 n ++ rest) = some ((n : Int), rest) := by
  have hdigits : ∀ c ∈ Nat.toDigits 10 n, c.isDigit = true := fun c hc =>
    Nat.isDigit_of_mem_toDigits (by omega) (by omega) hc
  have htake := takeWhile_append_of_stops hdigits h
  have hdrop := dropWhile_append_of_stops hdigits h
  have hval := foldl_digits _ hdigits 0
  rw [Nat.ofDigitChars_ten_toDigits] at hval
  obtain ⟨c, cs, hcs, hc⟩ := head?_toDigits n hn
  have hcd : c.isDigit = true := hdigits c (by simp [hcs])
  rw [hcs] at htake hdrop hval ⊢
  simp only [List.cons_append] at htake hdrop ⊢
  have hval : (c :: cs).foldl (fun (n : Int) d => 10 * n + (d.toNat - '0'.toNat)) 0 = n := hval
  simp only [positive?, hcd, htake, hdrop, hval]
  simp [hc]

theorem integer?_repr (n : Int) (h : Stops Char.isDigit rest) :
    integer? ((toString n).toList ++ rest) = some (n, rest) := by
  cases n with
  | ofNat n =>
    change integer? (n.repr.toList ++ rest) = _
    rw [Nat.toList_repr]
    by_cases hn : n = 0
    · subst hn
      rfl
    · obtain ⟨c, cs, hcs, hc⟩ := head?_toDigits n (by omega)
      have hcd : c.isDigit = true :=
        Nat.isDigit_of_mem_toDigits (b := 10) (n := n) (by omega) (by omega) (by simp [hcs])
      have hp := positive?_toDigits (n := n) (by omega) h
      rw [hcs] at hp ⊢
      have hplus : c ≠ '+' := fun e => by rw [e] at hcd; revert hcd; decide
      have hminus : c ≠ '-' := fun e => by rw [e] at hcd; revert hcd; decide
      unfold integer?
      split
      · rename_i heq
        simp only [List.cons_append, List.cons.injEq] at heq
        exact absurd heq.1 hc
      · rename_i heq
        simp only [List.cons_append, List.cons.injEq] at heq
        exact absurd heq.1 hplus
      · rename_i heq
        simp only [List.cons_append, List.cons.injEq] at heq
        exact absurd heq.1 hminus
      · exact hp
  | negSucc n =>
    change integer? (("-" ++ (n + 1).repr).toList ++ rest) = _
    rw [String.toList_append, Nat.toList_repr]
    change (positive? (Nat.toDigits 10 (n + 1) ++ rest)).map _ = _
    rw [positive?_toDigits (by omega) h]
    rfl

/-- **An integer is read back from its digits.** -/
theorem integer_toString (n : Int64) (h : Stops Char.isDigit rest) :
    integer ((toString n.toInt).toList ++ rest) = .ok n rest := by
  unfold integer
  rw [integer?_repr n.toInt h]
  simp only [n.minValue_le_toInt, n.toInt_le, and_self, if_true, Int64.ofInt_toInt]

/-! ## Lists -/

/-- `around` reads what `item` reads, with `skip` on both sides. -/
structure Surrounds (skip : List Char → List Char) (item around : Reader α) : Prop where
  comma : ∀ s, skip (',' :: s) = ',' :: s
  blank : ∀ s, skip (' ' :: s) = skip s
  length_le : ∀ s, (skip s).length ≤ s.length
  read : ∀ {s : List Char} {a : α} {rest : List Char},
    item (skip s) = .ok a rest → around s = .ok a (skip rest)

theorem surrounds_padded (item : Reader α) :
    Surrounds (·.dropWhile isPadding) item (padded item) where
  comma s := by simp [isPadding]
  blank s := by simp [isPadding]
  length_le s := (List.dropWhile_suffix isPadding).length_le
  read h := by
    unfold padded
    rw [Run.bind_of_ok (padding_apply _), Run.bind_of_ok h, Run.bind_of_ok (padding_apply _)]
    rfl

theorem surrounds_blanks (item : Reader α) :
    Surrounds (skipBlanks false) item (do blanks; let a ← item; blanks; return a) where
  comma s := by simp [skipBlanks, isBlank]
  blank s := by simp [skipBlanks, isBlank]
  length_le := length_skipBlanks_le false
  read h := by
    rw [Run.bind_of_ok (blanks_apply _), Run.bind_of_ok h, Run.bind_of_ok (blanks_apply _)]
    rfl

/-- The writing of `a` does not start with what `skip` drops, and `item` reads it back from in front
of every text that does not go on with a character of `p`. -/
def ReadsBack (p : Char → Bool) (skip : List Char → List Char) (item : Reader α)
    (text : α → String) (a : α) : Prop :=
  ∀ rest, Stops p rest →
    skip ((text a).toList ++ rest) = (text a).toList ++ rest ∧
      item ((text a).toList ++ rest) = .ok a rest

/-- Each item after a comma and a blank. -/
def tailText (text : α → String) (as : List α) : List Char :=
  as.flatMap fun a => ',' :: ' ' :: (text a).toList

theorem toList_intercalate_cons (text : α → String) (a : α) (as : List α) :
    (", ".intercalate ((a :: as).map text)).toList = (text a).toList ++ tailText text as := by
  induction as generalizing a with
  | nil => simp [tailText]
  | cons b as ih =>
    have hb := ih b
    simp only [List.map_cons] at hb ⊢
    rw [String.intercalate_cons_cons, String.toList_append, String.toList_append, hb]
    simp [tailText]

theorem stops_tailText {p : Char → Bool} {text : α → String} (as : List α) (hp : p ',' = false)
    (h : Stops p rest) : Stops p (tailText text as ++ rest) := by
  cases as with
  | nil => exact h
  | cons a as => simpa [tailText] using hp

theorem moreItems_of_stops {item : Reader α} (h : Stops (· = ',') s) :
    moreItems item s = ([], s) := by
  unfold moreItems
  split
  · simp at h
  · rfl

theorem moreItems_cons {item : Reader α} {a : α} {t : List Char} (h : item s = .ok a t)
    (hlen : t.length ≤ s.length) :
    moreItems item (',' :: s) = (a :: (moreItems item t).1, (moreItems item t).2) := by
  rw [moreItems, h]
  simp only [hlen, if_true]

section

variable {p : Char → Bool} {skip : List Char → List Char} {item around : Reader α}
  {text : α → String} {as : List α}

theorem moreItems_tailText (h : Surrounds skip item around)
    (has : ∀ a ∈ as, ReadsBack p skip item text a) (hp : p ',' = false) (hr : Stops p rest)
    (hend : Stops (· = ',') (skip rest)) :
    moreItems around (skip (tailText text as ++ rest)) = (as, skip rest) := by
  induction as with
  | nil => exact moreItems_of_stops hend
  | cons a as ih =>
    obtain ⟨hstart, hitem⟩ := has a List.mem_cons_self _ (stops_tailText as hp hr)
    have hread : around (' ' :: ((text a).toList ++ (tailText text as ++ rest))) =
        .ok a (skip (tailText text as ++ rest)) := by
      apply h.read
      rw [h.blank, hstart, hitem]
    have hshape : tailText text (a :: as) ++ rest =
        ',' :: ' ' :: ((text a).toList ++ (tailText text as ++ rest)) := by
      simp [tailText]
    have hlen := h.length_le (tailText text as ++ rest)
    rw [hshape, h.comma, moreItems_cons hread, ih fun b hb => has b (List.mem_cons_of_mem _ hb)]
    simp only [List.length_cons, List.length_append] at hlen ⊢
    omega

/-- **A list is read back from its items**, each but the first after a comma and a blank. -/
theorem items1_intercalate (h : Surrounds skip item around) (hne : as ≠ [])
    (has : ∀ a ∈ as, ReadsBack p skip item text a) (hp : p ',' = false) (hr : Stops p rest)
    (hend : Stops (· = ',') (skip rest)) :
    items1 around ((", ".intercalate (as.map text)).toList ++ rest) = .ok as (skip rest) := by
  cases as with
  | nil => exact absurd rfl hne
  | cons a as =>
    obtain ⟨hstart, hitem⟩ := has a List.mem_cons_self _ (stops_tailText as hp hr)
    have hfirst : around ((text a).toList ++ (tailText text as ++ rest)) =
        .ok a (skip (tailText text as ++ rest)) := by
      apply h.read
      rw [hstart, hitem]
    have hmore := moreItems_tailText h (fun b hb => has b (List.mem_cons_of_mem _ hb)) hp hr hend
    rw [toList_intercalate_cons, List.append_assoc]
    unfold items1
    rw [Run.bind_of_ok hfirst]
    change EStateM.Result.ok (a :: (moreItems around _).1) (moreItems around _).2 = _
    rw [hmore]

end

/-! ## Repetition up to a stop -/

theorem itemsUntil_nil {stop : List Char → Bool} {item : Reader α} (hs : skipBlanks false s = t)
    (ht : stop t = true) : itemsUntil stop item s = .ok [] t := by
  rw [itemsUntil, hs, if_pos ht]

theorem itemsUntil_cons {stop : List Char → Bool} {item : Reader α} {a : α} {as : List α}
    {u : List Char} (hs : skipBlanks false s = t) (ht : stop t = false) (ha : item t = .ok a rest)
    (hlen : rest.length < t.length) (has : itemsUntil stop item rest = .ok as u) :
    itemsUntil stop item s = .ok (a :: as) u := by
  rw [itemsUntil, hs, if_neg (by simp [ht]), ha]
  simp only [hlen, if_true, has]

end SsaPrune.Reader
