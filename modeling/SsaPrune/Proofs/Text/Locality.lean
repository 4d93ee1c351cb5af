import Mathlib.Tactic.SplitIfs
import SsaPrune.Proofs.Text.ReadBack
import SsaPrune.Proofs.Text.WellFormed

/-!
# What stands behind a brace does not matter

The readers of an instruction are `Confined`: wherever a closing brace follows, they do not read it and do
not look past it, so they succeed or fail alike whatever stands behind it. Blanks are different, since a
comment may hold a brace, and so are the readers of blocks and functions, which skip blanks.
-/

namespace SsaPrune.Reader

variable {α β : Type} {item : Reader α} {k : α → Reader β} {p : Char → Bool} {s t r : List Char}

/-! ## Confined readers -/

/-- The same outcome, with more text left over. -/
def followedBy (t : List Char) :
    EStateM.Result Unit (List Char) α → EStateM.Result Unit (List Char) α
  | .ok a r => .ok a (r ++ t)
  | .error e r => .error e (r ++ t)

/-- The reader does not read a closing brace, and what stands behind one has no influence on it. -/
structure Confined (item : Reader α) : Prop where
  append : ∀ s t, '\x7d' ∈ s → item (s ++ t) = followedBy t (item s)
  mem_iff : ∀ {s a r}, item s = .ok a r → ('\x7d' ∈ s ↔ '\x7d' ∈ r)

theorem confined_pure (a : α) : Confined (pure a : Reader α) where
  append _ _ _ := rfl
  mem_iff h := by
    obtain ⟨-, rfl⟩ := EStateM.Result.ok.inj h
    exact Iff.rfl

theorem Confined.bind (h : Confined item) (hk : ∀ a, Confined (k a)) : Confined (item >>= k) where
  append s t hs := by
    rw [Run.bind_apply, Run.bind_apply, h.append s t hs]
    cases ha : item s with
    | ok a r => exact (hk a).append r t ((h.mem_iff ha).mp hs)
    | error e r => rfl
  mem_iff hb := by
    obtain ⟨a, r, ha, hr⟩ := Run.bind_eq_ok.mp hb
    exact (h.mem_iff ha).trans ((hk a).mem_iff hr)

theorem eq_cons_of_literal {c : Char} {u : Unit} (h : literal c s = .ok u r) : s = c :: r := by
  cases s with
  | nil => cases h
  | cons d s =>
    rw [literal] at h
    split at h
    · obtain ⟨-, rfl⟩ := EStateM.Result.ok.inj h
      rw [‹d = c›]
    · cases h

theorem confined_literal {c : Char} (hc : c ≠ '\x7d') : Confined (literal c) where
  append s t hs := by
    cases s with
    | nil => cases hs
    | cons d s =>
      rw [List.cons_append, literal, literal]
      split <;> rfl
  mem_iff h := by
    rw [eq_cons_of_literal h, List.mem_cons]
    exact or_iff_right hc.symm

/-- A scan that stops at a brace does not see what stands behind it. -/
theorem scan_append (hp : p '\x7d' = false) (hs : '\x7d' ∈ s) :
    (s ++ t).takeWhile p = s.takeWhile p ∧ (s ++ t).dropWhile p = s.dropWhile p ++ t := by
  induction s with
  | nil => cases hs
  | cons c s ih =>
    rw [List.cons_append, List.takeWhile_cons, List.takeWhile_cons, List.dropWhile_cons,
      List.dropWhile_cons]
    cases hc : p c with
    | false => exact ⟨rfl, rfl⟩
    | true =>
      have hne : '\x7d' ≠ c := fun he => by simp [← he, hp] at hc
      obtain ⟨htake, hdrop⟩ := ih (List.mem_of_ne_of_mem hne hs)
      exact ⟨congrArg (c :: ·) htake, hdrop⟩

theorem mem_dropWhile_iff (hp : p '\x7d' = false) : '\x7d' ∈ s ↔ '\x7d' ∈ s.dropWhile p := by
  induction s with
  | nil => simp
  | cons c s ih =>
    rw [List.dropWhile_cons]
    split
    · rename_i hc
      have hne : '\x7d' ≠ c := fun he => by simp [← he, hp] at hc
      rw [← ih, List.mem_cons, or_iff_right hne]
    · rfl

theorem confined_word (hp : p '\x7d' = false) : Confined (word p) where
  append s t hs := by
    obtain ⟨htake, hdrop⟩ := scan_append (t := t) hp hs
    rw [word, word, htake, hdrop]
    split <;> rfl
  mem_iff h := by
    unfold word at h
    split at h
    · cases h
    · obtain ⟨-, rfl⟩ := EStateM.Result.ok.inj h
      exact mem_dropWhile_iff hp

theorem confined_padding : Confined padding where
  append s t hs := by
    rw [padding_apply, padding_apply, (scan_append (by decide) hs).2]
    rfl
  mem_iff h := by
    obtain ⟨-, rfl⟩ := EStateM.Result.ok.inj h
    exact mem_dropWhile_iff (by decide)

theorem Confined.padded (h : Confined item) : Confined (padded item) :=
  confined_padding.bind fun _ => h.bind fun a => confined_padding.bind fun _ => confined_pure a

theorem Confined.attempt (h : Confined item) : Confined (attempt item) where
  append s t hs := by
    unfold Reader.attempt
    rw [h.append s t hs]
    cases item s <;> rfl
  mem_iff {s} _ _ hr := by
    unfold Reader.attempt at hr
    split at hr
    · rename_i ha
      obtain ⟨-, rfl⟩ := EStateM.Result.ok.inj hr
      exact h.mem_iff ha
    · obtain ⟨-, rfl⟩ := EStateM.Result.ok.inj hr
      exact Iff.rfl

/-- A choice by what comes next. -/
theorem confined_test {q : List Char → Bool} {x y : Reader α}
    (hq : ∀ s t, '\x7d' ∈ s → q (s ++ t) = q s) (hx : Confined x) (hy : Confined y) :
    Confined (do if q (← get) then x else y) where
  append s t hs := by
    rw [Run.bind_get, Run.bind_get, hq s t hs]
    split
    · exact hx.append s t hs
    · exact hy.append s t hs
  mem_iff {s} _ _ h := by
    rw [Run.bind_get] at h
    split at h
    · exact hx.mem_iff h
    · exact hy.mem_iff h

/-! ### Integers -/

theorem positive?_append (hs : '\x7d' ∈ s) :
    positive? (s ++ t) = (positive? s).map fun (n, r) => (n, r ++ t) := by
  cases s with
  | nil => cases hs
  | cons c s =>
    obtain ⟨htake, hdrop⟩ := scan_append (p := Char.isDigit) (t := t) (by decide) hs
    rw [List.cons_append] at htake hdrop ⊢
    simp only [positive?, htake, hdrop]
    split <;> rfl

theorem mem_positive?_iff {n : Int} (h : positive? s = some (n, r)) : '\x7d' ∈ s ↔ '\x7d' ∈ r := by
  unfold positive? at h
  split at h
  · split at h
    · obtain ⟨-, rfl⟩ := Prod.mk.inj (Option.some.inj h)
      exact mem_dropWhile_iff (by decide)
    · cases h
  · cases h

/-- What an integer starts with decides how it is read. -/
theorem integer?_cons (c : Char) (s : List Char) : integer? (c :: s) =
    if c = '0' then some (0, s)
    else if c = '+' then positive? s
    else if c = '-' then (positive? s).map fun (n, r) => (-n, r)
    else positive? (c :: s) := by
  unfold integer?
  split <;> simp_all

theorem integer?_append (hs : '\x7d' ∈ s) :
    integer? (s ++ t) = (integer? s).map fun (n, r) => (n, r ++ t) := by
  cases s with
  | nil => cases hs
  | cons c s =>
    have htail : c ≠ '\x7d' → '\x7d' ∈ s := fun hc => List.mem_of_ne_of_mem hc.symm hs
    rw [List.cons_append, integer?_cons, integer?_cons, ← List.cons_append]
    split_ifs with hzero hplus hminus
    · rfl
    · exact positive?_append (htail (by simp [hplus]))
    · rw [positive?_append (htail (by simp [hminus])), Option.map_map, Option.map_map]
      rfl
    · exact positive?_append hs

theorem mem_integer?_iff {n : Int} (h : integer? s = some (n, r)) : '\x7d' ∈ s ↔ '\x7d' ∈ r := by
  cases s with
  | nil => cases h
  | cons c s =>
    have htail : c ≠ '\x7d' → ('\x7d' ∈ c :: s ↔ '\x7d' ∈ s) := fun hc => by
      rw [List.mem_cons, or_iff_right hc.symm]
    rw [integer?_cons] at h
    split_ifs at h with hzero hplus hminus
    · obtain ⟨-, rfl⟩ := Prod.mk.inj (Option.some.inj h)
      exact htail (by simp [hzero])
    · exact (htail (by simp [hplus])).trans (mem_positive?_iff h)
    · obtain ⟨⟨m, q⟩, hpos, heq⟩ := Option.map_eq_some_iff.mp h
      obtain ⟨-, rfl⟩ := Prod.mk.inj heq
      exact (htail (by simp [hminus])).trans (mem_positive?_iff hpos)
    · exact mem_positive?_iff h

theorem confined_integer : Confined integer where
  append s t hs := by
    unfold integer
    rw [integer?_append hs]
    cases integer? s with
    | none => rfl
    | some q =>
      simp only [Option.map_some]
      split <;> rfl
  mem_iff h := by
    unfold integer at h
    split at h
    · split at h
      · obtain ⟨-, rfl⟩ := EStateM.Result.ok.inj h
        exact mem_integer?_iff ‹_›
      · cases h
    · cases h

/-! ### Lists -/

theorem Confined.moreItems (h : Confined item) (s : List Char) :
    ('\x7d' ∈ s ↔ '\x7d' ∈ (moreItems item s).2) ∧
    ('\x7d' ∈ s → ∀ t, Reader.moreItems item (s ++ t) =
      ((Reader.moreItems item s).1, (Reader.moreItems item s).2 ++ t)) := by
  have htail : ∀ rest : List Char, '\x7d' ∈ ',' :: rest ↔ '\x7d' ∈ rest := by simp
  fun_induction Reader.moreItems item s with
  | case1 rest a rest' hitem hle items rest'' hmore ih =>
    rw [hmore] at ih
    refine ⟨(htail rest).trans ((h.mem_iff hitem).trans ih.1), fun hs t => ?_⟩
    have hs := (htail rest).mp hs
    have hread : item (rest ++ t) = .ok a (rest' ++ t) := by rw [h.append rest t hs, hitem]; rfl
    rw [List.cons_append, moreItems_cons hread (by simpa using hle),
      ih.2 ((h.mem_iff hitem).mp hs) t]
  | case2 rest a rest' hitem hle =>
    refine ⟨Iff.rfl, fun hs t => ?_⟩
    have hread : item (rest ++ t) = .ok a (rest' ++ t) := by
      rw [h.append rest t ((htail rest).mp hs), hitem]
      rfl
    rw [List.cons_append, Reader.moreItems, hread]
    exact if_neg (by simpa using hle)
  | case3 rest e rest' hitem =>
    refine ⟨Iff.rfl, fun hs t => ?_⟩
    have hread : item (rest ++ t) = .error e (rest' ++ t) := by
      rw [h.append rest t ((htail rest).mp hs), hitem]
      rfl
    rw [List.cons_append, Reader.moreItems, hread]
  | case4 s hs =>
    refine ⟨Iff.rfl, fun hmem t => moreItems_of_stops ?_⟩
    cases s with
    | nil => cases hmem
    | cons c s => exact stops_cons.mpr (by simpa using fun hc => hs s (by rw [hc]))

theorem Confined.items1 (h : Confined item) : Confined (items1 item) := by
  have happly : ∀ s, (modifyGet (Reader.moreItems item) : Reader (List α)) s =
      .ok (Reader.moreItems item s).1 (Reader.moreItems item s).2 := fun _ => rfl
  have hmore : Confined (modifyGet (Reader.moreItems item) : Reader (List α)) := by
    refine ⟨fun s t hs => ?_, fun {s _ _} hr => ?_⟩
    · rw [happly, happly, (h.moreItems s).2 hs t]
      rfl
    · rw [happly] at hr
      obtain ⟨-, rfl⟩ := EStateM.Result.ok.inj hr
      exact (h.moreItems s).1
  exact h.bind fun a => hmore.bind fun more => confined_pure (a :: more)

end SsaPrune.Reader

namespace SsaPrune.Source

open Reader

/-! ## The readers of an instruction -/

section

variable {s t : List Char}

theorem head?_append (hs : '\x7d' ∈ s) : (s ++ t).head? = s.head? := by
  cases s with
  | nil => cases hs
  | cons c s => rfl

theorem startsWith_append (c : Char) (s t : List Char) (hs : '\x7d' ∈ s) :
    startsWith c (s ++ t) = startsWith c s := by
  rw [startsWith, startsWith, head?_append hs]

theorem startsOperand_append (s t : List Char) (hs : '\x7d' ∈ s) :
    startsOperand (s ++ t) = startsOperand s := by
  rw [startsOperand, startsOperand, head?_append hs]

end

theorem confined_readName {sign : Char} (h : sign ≠ '\x7d') : Confined (readName sign) :=
  (confined_literal h).bind fun _ => confined_word (by decide)

theorem confined_readOperand : Confined readOperand :=
  confined_test (startsWith_append '%')
    ((confined_readName (by decide)).bind fun n => confined_pure (Operand.name n))
    (confined_integer.bind fun n => confined_pure (Operand.imm n))

theorem confined_readSuccessors : Confined readSuccessors :=
  (confined_literal (by decide)).bind fun _ => confined_padding.bind fun _ =>
    (confined_readName (by decide)).padded.items1.bind fun _ => confined_padding.bind fun _ =>
      (confined_literal (by decide)).bind fun _ => confined_pure _

theorem confined_readPair : Confined readPair :=
  (confined_literal (by decide)).bind fun _ => confined_padding.bind fun _ =>
    confined_readOperand.bind fun _ => confined_padding.bind fun _ =>
      (confined_literal (by decide)).bind fun _ => confined_padding.bind fun _ =>
        (confined_readName (by decide)).bind fun _ => confined_padding.bind fun _ =>
          (confined_literal (by decide)).bind fun _ => confined_pure _

theorem confined_readIncoming : Confined readIncoming :=
  confined_readPair.padded.items1.bind fun _ => confined_pure _

theorem confined_readResult : Confined readResult :=
  (confined_readName (by decide)).bind fun _ => confined_padding.bind fun _ =>
    (confined_literal (by decide)).bind fun _ => confined_padding.bind fun _ => confined_pure _

theorem confined_readCallee : Confined readCallee :=
  (confined_readName (by decide)).bind fun _ => confined_padding.bind fun _ => confined_pure _

theorem optional_eq {α : Type} (starts : List Char → Bool) (list : Reader (List α)) :
    optional starts list = (do if starts (← get) then list else pure []) := by
  funext s
  rw [Run.bind_get, optional]
  split <;> rfl

theorem confined_optional {α : Type} {starts : List Char → Bool} {list : Reader (List α)}
    (hq : ∀ s t, '\x7d' ∈ s → starts (s ++ t) = starts s) (h : Confined list) :
    Confined (optional starts list) := by
  rw [optional_eq]
  exact confined_test hq h (confined_pure [])

theorem confined_readPlain : Confined readPlain := by
  rw [readPlain_eq]
  exact (confined_optional startsOperand_append confined_readOperand.padded.items1).bind fun _ =>
    confined_padding.bind fun _ =>
      (confined_optional (startsWith_append '[') confined_readSuccessors).bind fun _ =>
        confined_pure _

/-! ## Parameters -/

/-- A parameter with the blanks around it. -/
def readParam : Reader String := do
  blanks
  let name ← readName '%'
  blanks
  return name

end SsaPrune.Source
