import SsaPrune.Text.Parse
import SsaPrune.Text.Printer
import SsaPrune.Proofs.Text.Tokens

/-!
# The writing of source trees

A source tree is written the way a function is, with its names in place of the entities. A tree is
*well formed* when its names can be read: they are words of name characters, and an instruction has
incoming pairs exactly when its opcode is that of a phi.

The main statement here is `readInst_text`: a well-formed instruction is read back from its line,
with the text that stands there. Trees read at different places agree when these texts are left out;
`bare` does that.
-/

namespace SsaPrune.Source

open Reader

/-! ## Writing -/

def Operand.text : Operand → String
  | name word => "%" ++ word
  | imm n => toString n.toInt

def labelText (label : String) : String := "^" ++ label

def pairText (pair : Operand × String) : String :=
  "[" ++ pair.1.text ++ ", " ++ labelText pair.2 ++ "]"

def successorsText : List String → String
  | [] => ""
  | labels => " [" ++ ", ".intercalate (labels.map labelText) ++ "]"

def Arguments.text : Arguments → String
  | plain operands successors =>
    SsaPrune.Function.spaced (operands.map Operand.text) ++ successorsText successors
  | incoming pairs => SsaPrune.Function.spaced (pairs.map pairText)

def resultText : Option String → String
  | some name => "%" ++ name ++ " = "
  | none => ""

def Inst.text (inst : Inst) : String :=
  resultText inst.result ++ inst.opcode ++ SsaPrune.Function.calleeText inst.callee ++
    inst.arguments.text

def Block.text (block : Block) : String :=
  "  " ++ labelText block.label ++ ":\n" ++
    String.join (block.insts.map fun inst => "    " ++ inst.text ++ "\n")

def Function.text (source : Function) : String :=
  "func @" ++ source.name ++ "(" ++ ", ".intercalate (source.params.map ("%" ++ ·)) ++ ") \x7b\n" ++
    String.join (source.blocks.map Block.text) ++ "\x7d\n"

/-- Several functions, with an empty line between them. -/
def moduleText (sources : List Function) : String := "\n".intercalate (sources.map Function.text)

/-! ## Trees without their places -/

def Inst.bare (inst : Inst) : Inst := { inst with start := [] }

def Block.bare (block : Block) : Block :=
  { start := [], label := block.label, insts := block.insts.map Inst.bare }

def Function.bare (source : Function) : Function :=
  { start := [], name := source.name, params := source.params,
    blocks := source.blocks.map Block.bare }

/-! ## Well-formed trees -/

/-- A nonempty word of characters that satisfy `p`. -/
structure IsWord (p : Char → Bool) (w : String) : Prop where
  ne : w ≠ ""
  all : ∀ c ∈ w.toList, p c = true

abbrev IsName : String → Prop := IsWord isNameChar

def Operand.WellFormed : Operand → Prop
  | name word => IsName word
  | imm _ => True

def Arguments.WellFormed : Arguments → Prop
  | plain operands successors =>
    (∀ x ∈ operands, x.WellFormed) ∧ ∀ label ∈ successors, IsName label
  | incoming pairs => pairs ≠ [] ∧ ∀ pair ∈ pairs, pair.1.WellFormed ∧ IsName pair.2

def Arguments.isIncoming : Arguments → Bool
  | plain _ _ => false
  | incoming _ => true

structure Inst.WellFormed (inst : Inst) : Prop where
  result : ∀ name ∈ inst.result, IsName name
  opcode : IsWord isOpcodeChar inst.opcode
  callee : ∀ name ∈ inst.callee, IsName name
  arguments : inst.arguments.WellFormed
  isIncoming : inst.arguments.isIncoming = decide (inst.opcode = Opcode.phi.name)

structure Block.WellFormed (block : Block) : Prop where
  label : IsName block.label
  insts : ∀ inst ∈ block.insts, inst.WellFormed

structure Function.WellFormed (source : Function) : Prop where
  name : IsName source.name
  params : ∀ name ∈ source.params, IsName name
  blocks : ∀ block ∈ source.blocks, block.WellFormed

/-! ## Names and operands -/

variable {rest : List Char}

theorem isDigit_le {c : Char} (h : c.isDigit = true) : isNameChar c = true := by
  simp [isNameChar, Char.isAlphanum, h]

theorem readName_append {sign : Char} {w : String} (hw : IsName w) (h : Stops isNameChar rest) :
    readName sign (sign :: (w.toList ++ rest)) = .ok w rest := by
  unfold readName
  rw [Run.bind_of_ok (literal_cons sign _)]
  exact word_append hw.ne hw.all h

theorem readName_of_stops {sign : Char} {s : List Char} (h : Stops (· = sign) s) :
    readName sign s = .error () s := by
  unfold readName
  rw [Run.bind_of_error (literal_of_stops h)]

/-- The digits of an integer start with one of them or with a minus sign. -/
theorem toList_toString_int (n : Int) :
    ∃ c cs, (toString n).toList = c :: cs ∧ (c.isDigit = true ∨ c = '-') := by
  cases n with
  | ofNat n =>
    change ∃ c cs, n.repr.toList = c :: cs ∧ _
    rw [Nat.toList_repr]
    cases hd : Nat.toDigits 10 n with
    | nil => exact absurd hd Nat.toDigits_ne_nil
    | cons c cs =>
      have hc : c.isDigit = true :=
        Nat.isDigit_of_mem_toDigits (b := 10) (n := n) (by omega) (by omega) (by simp [hd])
      exact ⟨c, cs, rfl, .inl hc⟩
  | negSucc n => exact ⟨'-', (n + 1).repr.toList, by
      change ("-" ++ (n + 1).repr).toList = _
      simp, .inr rfl⟩

/-- The writing of an operand starts with a sign or a digit. -/
theorem Operand.toList_text (x : Operand) :
    ∃ c cs, x.text.toList = c :: cs ∧ (c = '%' ∨ c.isDigit = true ∨ c = '-') := by
  cases x with
  | name name => exact ⟨'%', name.toList, by simp [text], .inl rfl⟩
  | imm n =>
    obtain ⟨c, cs, hcs, hc⟩ := toList_toString_int n.toInt
    exact ⟨c, cs, hcs, .inr hc⟩

theorem isPadding_of_isDigit {c : Char} (h : c.isDigit = true ∨ c = '-') : isPadding c = false := by
  rcases h with h | rfl
  · have hne : c ≠ ' ' ∧ c ≠ '\t' :=
      ⟨fun e => by rw [e] at h; revert h; decide, fun e => by rw [e] at h; revert h; decide⟩
    simp [isPadding, hne]
  · decide

theorem readOperand_text {x : Operand} (hx : x.WellFormed) (h : Stops isNameChar rest) :
    readOperand (x.text.toList ++ rest) = .ok x rest := by
  unfold readOperand
  rw [Run.bind_get]
  cases x with
  | name name =>
    have hshape : (Operand.name name).text.toList ++ rest = '%' :: (name.toList ++ rest) := by
      simp [Operand.text]
    rw [hshape, if_pos (by simp [startsWith]), Run.bind_of_ok (readName_append hx h)]
    rfl
  | imm n =>
    obtain ⟨c, cs, hcs, hc⟩ := toList_toString_int n.toInt
    have hne : c ≠ '%' := by
      rcases hc with hc | rfl
      · exact fun e => by rw [e] at hc; revert hc; decide
      · decide
    have hstart : startsWith '%' ((toString n.toInt).toList ++ rest) = false := by
      rw [hcs]
      simpa [startsWith] using hne
    change (if startsWith '%' ((toString n.toInt).toList ++ rest) = true then _ else _ : Reader _)
      ((toString n.toInt).toList ++ rest) = _
    rw [hstart, if_neg (by decide)]
    rw [Run.bind_of_ok (integer_toString n (h.mono fun _ => isDigit_le))]
    rfl

theorem Operand.stops_text (x : Operand) : Stops isPadding (x.text.toList ++ rest) := by
  obtain ⟨c, cs, hcs, rfl | hc⟩ := x.toList_text
  · rw [hcs]
    exact stops_cons.mpr (by decide)
  · rw [hcs]
    exact stops_cons.mpr (isPadding_of_isDigit hc)

theorem readsBack_operand {x : Operand} (hx : x.WellFormed) :
    ReadsBack isNameChar (·.dropWhile isPadding) readOperand Operand.text x := fun _ h =>
  ⟨dropWhile_of_stops x.stops_text, readOperand_text hx h⟩

theorem readsBack_label {label : String} (h : IsName label) :
    ReadsBack isNameChar (·.dropWhile isPadding) (readName '^') labelText label := fun rest hr => by
  have hshape : (labelText label).toList ++ rest = '^' :: (label.toList ++ rest) := by
    simp [labelText]
  rw [hshape]
  exact ⟨by simp [isPadding], readName_append h hr⟩

/-! ## Arguments -/

theorem readsBack_pair {pair : Operand × String} (hx : pair.1.WellFormed) (hb : IsName pair.2) :
    ReadsBack (fun _ => false) (·.dropWhile isPadding) readPair pairText pair := fun rest _ => by
  obtain ⟨x, label⟩ := pair
  have hshape : (pairText (x, label)).toList ++ rest =
      '[' :: (x.text.toList ++ ',' :: ' ' :: '^' :: (label.toList ++ ']' :: rest)) := by
    simp [pairText, labelText]
  have hpad : ∀ c s, isPadding c = false → padding (c :: s) = .ok () (c :: s) := fun c s hc => by
    rw [padding_apply, List.dropWhile_cons_of_neg (by simp [hc])]
  rw [hshape]
  refine ⟨by simp [isPadding], ?_⟩
  unfold readPair
  rw [Run.bind_of_ok (literal_cons _ _), Run.bind_of_ok (padding_apply _),
    dropWhile_of_stops x.stops_text,
    Run.bind_of_ok (readOperand_text hx (stops_cons.mpr (by decide))),
    Run.bind_of_ok (hpad ',' _ (by decide)), Run.bind_of_ok (literal_cons _ _),
    Run.bind_of_ok (padding_apply _), List.dropWhile_cons_of_pos (by decide),
    List.dropWhile_cons_of_neg (by decide),
    Run.bind_of_ok (readName_append hb (stops_cons.mpr (by decide))),
    Run.bind_of_ok (hpad ']' _ (by decide)), Run.bind_of_ok (literal_cons _ _)]
  rfl

theorem readSuccessors_text {labels : List String} (hne : labels ≠ [])
    (h : ∀ label ∈ labels, IsName label) :
    readSuccessors ('[' :: ((", ".intercalate (labels.map labelText)).toList ++ ']' :: rest)) =
      .ok labels rest := by
  have hstart : ∃ s, (", ".intercalate (labels.map labelText)).toList ++ ']' :: rest = '^' :: s := by
    cases labels with
    | nil => exact absurd rfl hne
    | cons label labels =>
      rw [toList_intercalate_cons, labelText, String.toList_append]
      exact ⟨_, rfl⟩
  have hitems := items1_intercalate (surrounds_padded _) hne
    (fun label hl => readsBack_label (h label hl)) (by decide)
    (show Stops _ (']' :: rest) from stops_cons.mpr (by decide)) (by simp [isPadding])
  have hclose : padding (']' :: rest) = .ok () (']' :: rest) := by simp [padding_apply, isPadding]
  unfold readSuccessors
  obtain ⟨s, hs⟩ := hstart
  rw [Run.bind_of_ok (literal_cons _ _), Run.bind_of_ok (padding_apply _)]
  rw [hs, List.dropWhile_cons_of_neg (by decide), ← hs, Run.bind_of_ok hitems,
    List.dropWhile_cons_of_neg (by decide), Run.bind_of_ok hclose,
    Run.bind_of_ok (literal_cons _ _)]
  rfl

theorem spaced_map {α : Type} (text : α → String) {as : List α} (h : as ≠ []) :
    (SsaPrune.Function.spaced (as.map text)).toList =
      ' ' :: (", ".intercalate (as.map text)).toList := by
  cases as with
  | nil => exact absurd rfl h
  | cons a as => simp [SsaPrune.Function.spaced]

theorem startsOperand_text (x : Operand) (s : List Char) :
    startsOperand (x.text.toList ++ s) = true := by
  obtain ⟨c, cs, hcs, hc⟩ := x.toList_text
  rw [hcs]
  rcases hc with rfl | hc | rfl
  · rfl
  · simp [startsOperand, hc]
  · rfl

/-- The text that follows the operands of an instruction, from the targets to the end of the line. -/
def targetsLine (labels : List String) (rest : List Char) : List Char :=
  (successorsText labels).toList ++ '\n' :: rest

theorem targetsLine_nil : targetsLine [] rest = '\n' :: rest := rfl

theorem targetsLine_of_ne {labels : List String} (h : labels ≠ []) : targetsLine labels rest =
    ' ' :: '[' :: ((", ".intercalate (labels.map labelText)).toList ++ ']' :: '\n' :: rest) := by
  cases labels with
  | nil => exact absurd rfl h
  | cons label labels => simp [targetsLine, successorsText]

theorem stops_targetsLine (labels : List String) {p : Char → Bool} (hb : p ' ' = false)
    (hn : p '\n' = false) : Stops p (targetsLine labels rest) := by
  by_cases h : labels = []
  · rw [h, targetsLine_nil]
    exact stops_cons.mpr hn
  · rw [targetsLine_of_ne h]
    exact stops_cons.mpr hb

/-- Past the padding, the targets start with a bracket or a line end. -/
theorem dropWhile_targetsLine (labels : List String) {p : Char → Bool} (hb : p '[' = false)
    (hn : p '\n' = false) : Stops p ((targetsLine labels rest).dropWhile isPadding) := by
  by_cases h : labels = []
  · rw [h, targetsLine_nil]
    exact stops_cons.mpr hn
  · rw [targetsLine_of_ne h]
    exact stops_cons.mpr hb

/-- A list that is only read when the text starts as it should. -/
def optional {α : Type} (starts : List Char → Bool) (list : Reader (List α)) : Reader (List α) :=
  fun s => if starts s then list s else .ok [] s

theorem readPlain_eq : readPlain = do
    let operands ← optional startsOperand (items1 (padded readOperand))
    padding
    let successors ← optional (startsWith '[') readSuccessors
    return .plain operands successors := by
  have hbind : ∀ {α β : Type} (starts : List Char → Bool) (list : Reader (List α))
      (k : List α → Reader β), (do
        if starts (← get) then do let as ← list; k as
        else do let as ← pure []; k as) = optional starts list >>= k := by
    intro α β starts list k
    funext s
    rw [Run.bind_get, Run.bind_apply, optional]
    cases starts s with
    | true => exact Run.bind_apply ..
    | false => rfl
  unfold readPlain
  simp only [hbind]

theorem optional_targetsLine {labels : List String} (h : ∀ label ∈ labels, IsName label) :
    optional (startsWith '[') readSuccessors ((targetsLine labels rest).dropWhile isPadding) =
      .ok labels ('\n' :: rest) := by
  by_cases hne : labels = []
  · subst hne
    rfl
  · rw [targetsLine_of_ne hne]
    exact readSuccessors_text hne h

/-- Reading the operands leaves the padding in front of the targets behind. -/
theorem optional_operands {operands : List Operand} (h : ∀ x ∈ operands, x.WellFormed)
    (labels : List String) :
    optional startsOperand (items1 (padded readOperand))
        (((SsaPrune.Function.spaced (operands.map Operand.text)).toList ++
          targetsLine labels rest).dropWhile isPadding) =
      .ok operands ((targetsLine labels rest).dropWhile isPadding) := by
  by_cases hne : operands = []
  · subst hne
    have hstop : Stops (fun c => c = '%' || c = '-' || c.isDigit)
        ((targetsLine labels rest).dropWhile isPadding) :=
      dropWhile_targetsLine labels (by decide) (by decide)
    have hno : startsOperand ((targetsLine labels rest).dropWhile isPadding) = false := by
      unfold startsOperand
      cases hh : ((targetsLine labels rest).dropWhile isPadding).head? with
      | none => rfl
      | some c => exact hstop c hh
    change optional _ _ ((targetsLine labels rest).dropWhile isPadding) = _
    rw [optional, if_neg (by simp [hno])]
  · have hitems := items1_intercalate (surrounds_padded readOperand) hne
      (fun x hx => readsBack_operand (h x hx)) (by decide)
      (show Stops _ (targetsLine labels rest) from
        stops_targetsLine labels (by decide) (by decide))
      (dropWhile_targetsLine labels (by decide) (by decide))
    obtain ⟨x, xs, rfl⟩ := List.exists_cons_of_ne_nil hne
    rw [toList_intercalate_cons, List.append_assoc] at hitems
    rw [spaced_map _ hne, List.cons_append, List.dropWhile_cons_of_pos (by decide),
      toList_intercalate_cons, List.append_assoc, dropWhile_of_stops x.stops_text, optional,
      if_pos (startsOperand_text _ _), hitems]

theorem readPlain_text {operands : List Operand} {successors : List String}
    (h : (Arguments.plain operands successors).WellFormed) :
    readPlain (((Arguments.plain operands successors).text.toList ++ '\n' :: rest).dropWhile
      isPadding) = .ok (.plain operands successors) ('\n' :: rest) := by
  obtain ⟨hops, hsuccs⟩ := h
  have hline : (Arguments.plain operands successors).text.toList ++ '\n' :: rest =
      (SsaPrune.Function.spaced (operands.map Operand.text)).toList ++
        targetsLine successors rest := by
    simp [Arguments.text, targetsLine]
  have hstop : Stops isPadding ((targetsLine successors rest).dropWhile isPadding) :=
    dropWhile_targetsLine successors (by decide) (by decide)
  rw [readPlain_eq, hline, Run.bind_of_ok (optional_operands hops successors),
    Run.bind_of_ok (padding_apply _), dropWhile_of_stops hstop,
    Run.bind_of_ok (optional_targetsLine hsuccs)]
  rfl

theorem readIncoming_text {pairs : List (Operand × String)}
    (h : (Arguments.incoming pairs).WellFormed) :
    readIncoming (((Arguments.incoming pairs).text.toList ++ '\n' :: rest).dropWhile isPadding) =
      .ok (.incoming pairs) ('\n' :: rest) := by
  obtain ⟨hne, hpairs⟩ := h
  have hitems := items1_intercalate (surrounds_padded readPair) hne
    (fun pair hp => readsBack_pair (hpairs pair hp).1 (hpairs pair hp).2) rfl
    (show Stops _ ('\n' :: rest) from stops_cons.mpr rfl) (by simp [isPadding])
  have hstart : Stops isPadding ((", ".intercalate (pairs.map pairText)).toList ++ '\n' :: rest) := by
    obtain ⟨pair, more, rfl⟩ := List.exists_cons_of_ne_nil hne
    rw [toList_intercalate_cons, pairText, List.append_assoc]
    simp [isPadding]
  have hline : (Arguments.incoming pairs).text.toList ++ '\n' :: rest =
      ' ' :: ((", ".intercalate (pairs.map pairText)).toList ++ '\n' :: rest) := by
    simp only [Arguments.text, spaced_map _ hne, List.cons_append]
  unfold readIncoming
  rw [hline, List.dropWhile_cons_of_pos (by decide), dropWhile_of_stops hstart,
    Run.bind_of_ok hitems, List.dropWhile_cons_of_neg (by decide)]
  rfl

/-! ## Instructions -/

/-- The arguments start with a blank or a line end. -/
theorem Arguments.stops_text (args : Arguments) {p : Char → Bool} (hb : p ' ' = false)
    (hn : p '\n' = false) : Stops p (args.text.toList ++ '\n' :: rest) := by
  have hspaced : ∀ {α : Type} (text : α → String) (as : List α) (s : List Char), Stops p s →
      Stops p ((SsaPrune.Function.spaced (as.map text)).toList ++ s) := by
    intro α text as s hs
    by_cases hne : as = []
    · subst hne
      exact hs
    · rw [spaced_map text hne]
      exact stops_cons.mpr hb
  cases args with
  | plain operands successors =>
    have hline : Stops p (targetsLine successors rest) := stops_targetsLine successors hb hn
    simpa [text, targetsLine] using hspaced Operand.text operands _ hline
  | incoming pairs => exact hspaced pairText pairs _ (stops_cons.mpr hn)

/-- No callee starts where the arguments start. -/
theorem Arguments.stops_dropWhile {args : Arguments} (h : args.WellFormed) :
    Stops (· = '@') ((args.text.toList ++ '\n' :: rest).dropWhile isPadding) := by
  cases args with
  | plain operands successors =>
    have hline : (Arguments.plain operands successors).text.toList ++ '\n' :: rest =
        (SsaPrune.Function.spaced (operands.map Operand.text)).toList ++
          targetsLine successors rest := by
      simp [text, targetsLine]
    rw [hline]
    by_cases hne : operands = []
    · subst hne
      exact dropWhile_targetsLine successors (by decide) (by decide)
    · rw [spaced_map _ hne, List.cons_append, List.dropWhile_cons_of_pos (by decide)]
      obtain ⟨x, xs, rfl⟩ := List.exists_cons_of_ne_nil hne
      rw [toList_intercalate_cons, List.append_assoc, dropWhile_of_stops x.stops_text]
      obtain ⟨c, cs, hcs, hc⟩ := x.toList_text
      have hat : c ≠ '@' := by
        rcases hc with rfl | hc | rfl
        · decide
        · exact fun e => by rw [e] at hc; revert hc; decide
        · decide
      rw [hcs]
      exact stops_cons.mpr (by simpa using hat)
  | incoming pairs =>
    obtain ⟨pair, more, rfl⟩ := List.exists_cons_of_ne_nil h.1
    rw [text, spaced_map _ h.1, List.cons_append, List.dropWhile_cons_of_pos (by decide),
      toList_intercalate_cons, pairText, List.append_assoc]
    simp [isPadding]

theorem attempt_of_ok {α : Type} {item : Reader α} {s t : List Char} {a : α}
    (h : item s = .ok a t) : attempt item s = .ok (some a) t := by
  rw [attempt, h]

theorem attempt_of_error {α : Type} {item : Reader α} {s t : List Char}
    (h : item s = .error () t) : attempt item s = .ok none s := by
  rw [attempt, h]

theorem attempt_readResult {result : Option String} (h : ∀ name ∈ result, IsName name)
    {s : List Char} (hs : Stops (fun c => c = '%' || isPadding c) s) :
    attempt readResult ((resultText result).toList ++ s) = .ok result s := by
  cases result with
  | none =>
    refine attempt_of_error (t := s) ?_
    unfold readResult
    exact Run.bind_of_error (readName_of_stops (hs.mono fun c hc => by simp [hc]))
  | some name =>
    have hshape : (resultText (some name)).toList ++ s =
        '%' :: (name.toList ++ ' ' :: '=' :: ' ' :: s) := by
      simp [resultText]
    rw [hshape]
    refine attempt_of_ok ?_
    unfold readResult
    rw [Run.bind_of_ok (readName_append (h name rfl) (stops_cons.mpr (by decide))),
      Run.bind_of_ok (padding_apply _), List.dropWhile_cons_of_pos (by decide),
      List.dropWhile_cons_of_neg (by decide), Run.bind_of_ok (literal_cons _ _),
      Run.bind_of_ok (padding_apply _), List.dropWhile_cons_of_pos (by decide),
      dropWhile_of_stops (hs.mono fun c hc => by simp [hc])]
    rfl

theorem attempt_readCallee {callee : Option String} (h : ∀ name ∈ callee, IsName name)
    {s : List Char} (hs : Stops isNameChar s)
    (hat : Stops (· = '@') (s.dropWhile isPadding)) :
    attempt readCallee (((SsaPrune.Function.calleeText callee).toList ++ s).dropWhile isPadding) =
      .ok callee (s.dropWhile isPadding) := by
  cases callee with
  | none =>
    refine attempt_of_error (t := s.dropWhile isPadding) ?_
    unfold readCallee
    exact Run.bind_of_error (readName_of_stops hat)
  | some name =>
    have hshape : (SsaPrune.Function.calleeText (some name)).toList ++ s =
        ' ' :: '@' :: (name.toList ++ s) := by
      simp [SsaPrune.Function.calleeText]
    rw [hshape, List.dropWhile_cons_of_pos (by decide), List.dropWhile_cons_of_neg (by decide)]
    refine attempt_of_ok ?_
    unfold readCallee
    rw [Run.bind_of_ok (readName_append (h name rfl) hs), Run.bind_of_ok (padding_apply _)]
    rfl

theorem IsWord.exists_cons {p : Char → Bool} {w : String} (h : IsWord p w) :
    ∃ c cs, w.toList = c :: cs ∧ p c = true := by
  cases hw : w.toList with
  | nil => exact absurd (String.toList_eq_nil_iff.mp hw) h.ne
  | cons c cs => exact ⟨c, cs, rfl, h.all c (by simp [hw])⟩

theorem isOpcodeChar_cases {c : Char} (h : isOpcodeChar c = true) :
    c ≠ '%' ∧ isPadding c = false ∧ c ≠ ';' ∧ isBlank c = false := by
  have hne : ∀ d, isOpcodeChar d = false → c ≠ d := fun d hd e => by
    rw [e, hd] at h
    cases h
  have hs := hne ' ' (by decide)
  have ht := hne '\t' (by decide)
  have hn := hne '\n' (by decide)
  have hf := hne '\x0c' (by decide)
  have hr := hne '\r' (by decide)
  exact ⟨hne '%' (by decide), by simp [isPadding, hs, ht], hne ';' (by decide),
    by simp [isBlank, hs, ht, hn, hf, hr]⟩

/-- **An instruction is read back from its line.** -/
theorem readInst_text {inst : Inst} (h : inst.WellFormed) :
    readInst (inst.text.toList ++ '\n' :: rest) =
      .ok { inst with start := inst.text.toList ++ '\n' :: rest } ('\n' :: rest) := by
  obtain ⟨start, result, opcode, callee, args⟩ := inst
  obtain ⟨hresult, hopcode, hcallee, hargs, hphi⟩ := h
  simp only at hresult hopcode hcallee hargs hphi
  have hshape : (Inst.text ⟨start, result, opcode, callee, args⟩).toList ++ '\n' :: rest =
      (resultText result).toList ++ (opcode.toList ++
        ((SsaPrune.Function.calleeText callee).toList ++ (args.text.toList ++ '\n' :: rest))) := by
    simp [Inst.text]
  have hstart : ∀ s, Stops (fun c => c = '%' || isPadding c) (opcode.toList ++ s) := fun s => by
    obtain ⟨c, cs, hcs, hc⟩ := hopcode.exists_cons
    rw [hcs]
    simp [isOpcodeChar_cases hc]
  have hafter : Stops isOpcodeChar ((SsaPrune.Function.calleeText callee).toList ++
      (args.text.toList ++ '\n' :: rest)) := by
    cases callee with
    | none => exact args.stops_text (by decide) (by decide)
    | some name =>
      simp only [SsaPrune.Function.calleeText, String.toList_append]
      exact stops_cons.mpr (by decide)
  unfold readInst
  rw [Run.bind_get, hshape, Run.bind_of_ok (attempt_readResult hresult (hstart _)),
    Run.bind_of_ok (word_append hopcode.ne hopcode.all hafter), Run.bind_of_ok (padding_apply _),
    Run.bind_of_ok (attempt_readCallee hcallee (args.stops_text (by decide) (by decide))
      (Arguments.stops_dropWhile hargs))]
  cases args with
  | plain operands successors =>
    have hno : opcode ≠ Opcode.phi.name := by simpa [Arguments.isIncoming] using hphi
    simp only [if_neg hno]
    rw [Run.bind_of_ok (readPlain_text hargs)]
    rfl
  | incoming pairs =>
    have hyes : opcode = Opcode.phi.name := by simpa [Arguments.isIncoming] using hphi
    simp only [if_pos hyes]
    rw [Run.bind_of_ok (readIncoming_text hargs)]
    rfl

end SsaPrune.Source
