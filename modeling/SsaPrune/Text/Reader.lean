/-!
# Readers

A reader takes something off the front of a text. It either succeeds with what it read, or fails;
the text that is left over says where, in both cases. Failing does not put back what was read
before: a sequence that fails half-way stops where it failed. Three readers do put back: `attempt`,
`integer`, and the lists, which give up the last separator when no item follows it.

Blanks come in two sizes. `blanks` also passes over line ends and comments, which run from a
semicolon to the end of the line; `padding` stays on the line.
-/

namespace SsaPrune

/-- A reader of `α`: on success and on failure alike it leaves the rest of the text. -/
abbrev Reader (α : Type) := EStateM Unit (List Char) α

/-- The size of a text in bytes of its UTF-8 form. -/
def utf8Size : List Char → Nat
  | [] => 0
  | c :: rest => c.utf8Size + utf8Size rest

namespace Reader

variable {α : Type}

/-! ## Characters and words -/

def startsWith (c : Char) (s : List Char) : Bool := s.head? = some c

/-- One given character. -/
def literal (c : Char) : Reader Unit
  | [] => .error () []
  | d :: rest => if d = c then .ok () rest else .error () (d :: rest)

/-- A given word; a partial match reads nothing. -/
def keyword (word : String) : Reader Unit := fun s =>
  if word.toList.isPrefixOf s then .ok () (s.drop word.toList.length) else .error () s

/-- The longest word of characters that satisfy `p`; it must not be empty. -/
def word (p : Char → Bool) : Reader String := fun s =>
  match s.takeWhile p with
  | [] => .error () s
  | cs => .ok (String.ofList cs) (s.dropWhile p)

/-! ## Blanks -/

/-- Blanks within a text: space, tab, line feed, form feed and carriage return. -/
def isBlank (c : Char) : Bool :=
  c = ' ' || c = '\t' || c = '\n' || c = '\x0c' || c = '\r'

/-- Blanks within a line. -/
def isPadding (c : Char) : Bool := c = ' ' || c = '\t'

/-- The text after its blanks and comments; `comment` says whether it starts inside a comment. -/
def skipBlanks (comment : Bool) : List Char → List Char
  | [] => []
  | c :: rest =>
    if comment then skipBlanks (c ≠ '\n') rest
    else if isBlank c then skipBlanks false rest
    else if c = ';' then skipBlanks true rest
    else c :: rest

theorem length_skipBlanks_le (comment : Bool) (s : List Char) :
    (skipBlanks comment s).length ≤ s.length := by
  induction s generalizing comment with
  | nil => simp [skipBlanks]
  | cons c rest ih =>
    unfold skipBlanks
    split
    · exact Nat.le_succ_of_le (ih _)
    · split
      · exact Nat.le_succ_of_le (ih _)
      · split
        · exact Nat.le_succ_of_le (ih _)
        · exact Nat.le_refl _

def blanks : Reader Unit := fun s => .ok () (skipBlanks false s)

def padding : Reader Unit := fun s => .ok () (s.dropWhile isPadding)

/-- An item with padding on both sides. -/
def padded (item : Reader α) : Reader α := do
  padding
  let a ← item
  padding
  return a

/-! ## Integers -/

/-- Digits that do not start with zero, as a number. -/
def positive? (s : List Char) : Option (Int × List Char) :=
  match s with
  | c :: _ =>
    if c.isDigit && c ≠ '0' then
      let digits := s.takeWhile Char.isDigit
      some (digits.foldl (fun n d => 10 * n + (d.toNat - '0'.toNat)) 0, s.dropWhile Char.isDigit)
    else none
  | [] => none

/-- A single zero, or a sign that may be missing followed by digits that do not start with zero. -/
def integer? : List Char → Option (Int × List Char)
  | '0' :: rest => some (0, rest)
  | '+' :: rest => positive? rest
  | '-' :: rest => (positive? rest).map fun (n, rest) => (-n, rest)
  | s => positive? s

/-- An integer that fits into 64 bits; a failure reads nothing. -/
def integer : Reader Int64 := fun s =>
  match integer? s with
  | some (n, rest) =>
    if Int64.minValue.toInt ≤ n ∧ n ≤ Int64.maxValue.toInt then .ok (.ofInt n) rest
    else .error () s
  | none => .error () s

/-! ## Choice and repetition -/

/-- The item if it can be read; otherwise nothing is read. -/
def attempt (item : Reader α) : Reader (Option α) := fun s =>
  match item s with
  | .ok a rest => .ok (some a) rest
  | .error _ _ => .ok none s

/-- The items that follow, each after a comma. It ends before a comma that no item follows. -/
def moreItems (item : Reader α) (s : List Char) : List α × List Char :=
  match s with
  | ',' :: rest =>
    match item rest with
    | .ok a rest' =>
      if rest'.length ≤ rest.length then
        let (items, rest'') := moreItems item rest'
        (a :: items, rest'')
      else ([], s)
    | .error _ _ => ([], s)
  | _ => ([], s)
termination_by s.length

/-- One item or more, with commas between them. -/
def items1 (item : Reader α) : Reader (List α) := do
  let a ← item
  let more ← modifyGet (moreItems item)
  return a :: more

/-- Items with commas between them, if there are any. -/
def items (item : Reader α) : Reader (List α) := do
  return (← attempt (items1 item)).getD []

/-- Items with blanks before each, until `stop` holds of the text after the blanks. -/
def itemsUntil (stop : List Char → Bool) (item : Reader α) (s : List Char) :
    EStateM.Result Unit (List Char) (List α) :=
  if stop (skipBlanks false s) then .ok [] (skipBlanks false s)
  else
    match item (skipBlanks false s) with
    | .ok a rest =>
      if rest.length < (skipBlanks false s).length then
        match itemsUntil stop item rest with
        | .ok more rest' => .ok (a :: more) rest'
        | .error e rest' => .error e rest'
      else .error () rest
    | .error e rest => .error e rest
termination_by s.length
decreasing_by
  have := length_skipBlanks_le false s
  omega

end Reader

end SsaPrune
