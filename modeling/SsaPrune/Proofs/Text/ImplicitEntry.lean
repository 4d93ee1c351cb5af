import SsaPrune.Proofs.Text.Comments
import SsaPrune.Proofs.Text.Replacement

/-!
# A body whose first label is left out

The label of the first block can be left out, and is `entry` then. This is a shorthand and nothing else:
wherever a body starts with neither a label nor the closing brace, writing the label makes no difference
to what the text stands for, or to whether it stands for anything (`parseModule_writtenEntry`).

The first block of a body is read in one of two ways. `readBlocks_concurs` says that both come to the
same, however the body goes on, and the rest is about what stands around: what was read before the body
starts does not depend on the body (`readHead_exchange`), nor do the functions in front of it.
-/

namespace SsaPrune

namespace Reader

variable {α β γ δ : Type}

/-! ## The same outcome -/

/-- The same outcome, up to places of what was read: both are successes or both are failures, with the same
text left over. -/
inductive Concurs (bare : α → γ) : EStateM.Result Unit (List Char) α →
    EStateM.Result Unit (List Char) α → Prop
  | ok {a a' : α} (rest : List Char) (h : bare a = bare a') : Concurs bare (.ok a rest) (.ok a' rest)
  | error (rest : List Char) : Concurs bare (.error () rest) (.error () rest)

variable {bare : α → γ} {bare' : β → δ}

theorem Concurs.refl (r : EStateM.Result Unit (List Char) α) : Concurs bare r r := by
  cases r with
  | ok a rest => exact .ok rest rfl
  | error e rest => exact .error rest

theorem Concurs.symm {r r' : EStateM.Result Unit (List Char) α} (h : Concurs bare r r') :
    Concurs bare r' r := by
  cases h with
  | ok rest h => exact .ok rest h.symm
  | error rest => exact .error rest

/-- Steps that go on from the same outcome. -/
theorem Concurs.bind {m m' : Reader α} {k k' : α → Reader β} {s s' : List Char}
    (h : Concurs bare (m s) (m' s'))
    (hk : ∀ a a' rest, bare a = bare a' → Concurs bare' (k a rest) (k' a' rest)) :
    Concurs bare' ((m >>= k) s) ((m' >>= k') s') := by
  rw [Run.bind_apply, Run.bind_apply]
  match m s, m' s', h with
  | _, _, .ok rest ha => exact hk _ _ rest ha
  | _, _, .error rest => exact .error rest

end Reader

namespace Source

open Reader

variable {s t u v : List Char}

/-! ## The body -/

/-- The label of the first block. -/
def entryLabel : List Char := "^entry:".toList

theorem skipBlanks_entryLabel (v : List Char) :
    skipBlanks false (entryLabel ++ v) = entryLabel ++ v :=
  skipBlanks_of_stops (stops_cons.mpr (by decide))

/-- The rest of a body from the instructions of its first block on, which is kept as one that stands at
`start` and has the label `entry`. -/
def readFromEntry (start : List Char) : Reader (List Block) := do
  let insts ← readInsts
  let labelled ← readLabelled
  return { start, label := "entry", insts } :: labelled

theorem concurs_readFromEntry (start start' v : List Char) :
    Concurs (List.map Block.bare) (readFromEntry start v) (readFromEntry start' v) := by
  have hinsts : Concurs id (readInsts v) (readInsts v) := .refl _
  apply hinsts.bind
  rintro insts _ rest rfl
  have hlabelled : Concurs id (readLabelled rest) (readLabelled rest) := .refl _
  apply hlabelled.bind
  rintro labelled _ rest' rfl
  exact .ok rest' rfl

/-- Without a label the instructions come first. -/
theorem readBlocks_of_unlabelled (hlabel : v.head? ≠ some '^') (hbrace : v.head? ≠ some '\x7d') :
    readBlocks v = readFromEntry v v := by
  have hno : ¬(startsWith '^' v || startsWith '\x7d' v) = true := by
    simp [startsWith, hlabel, hbrace]
  have hfirst : readFirstBlock v =
      (do return [{ start := v, label := "entry", insts := ← readInsts }] : Reader (List Block)) v := by
    rw [readFirstBlock, Run.bind_get, if_neg hno]
  rw [readBlocks, Run.bind_apply, hfirst, readFromEntry, Run.bind_apply, Run.bind_apply]
  cases readInsts v with
  | ok insts rest => rfl
  | error e rest => rfl

/-- A label that is written is read, and then the instructions. -/
theorem readBlock_entryLabel (v : List Char) : readBlock (entryLabel ++ v) =
    (do return { start := entryLabel ++ v, label := "entry", insts := ← readInsts } : Reader Block) v := by
  have htext : entryLabel ++ v = '^' :: ("entry".toList ++ ':' :: v) := rfl
  have hentry : IsName "entry" := ⟨by decide, List.all_eq_true.mp rfl⟩
  have hname : readName '^' (entryLabel ++ v) = .ok "entry" (':' :: v) :=
    htext ▸ readName_append hentry (stops_cons.mpr (by decide))
  have hpadding : padding (':' :: v) = .ok () (':' :: v) := rfl
  rw [readBlock, Run.bind_of_ok (blanks_apply _), skipBlanks_entryLabel, Run.bind_get,
    Run.bind_of_ok hname, Run.bind_of_ok hpadding, Run.bind_of_ok (literal_cons ':' v)]

theorem readBlocks_entryLabel (v : List Char) :
    readBlocks (entryLabel ++ v) = readFromEntry (entryLabel ++ v) v := by
  have hnone : readFirstBlock (entryLabel ++ v) = .ok [] (entryLabel ++ v) := rfl
  have hmore : readLabelled (entryLabel ++ v) =
      (do return (← readBlock) :: (← readLabelled) : Reader (List Block)) (entryLabel ++ v) :=
    progresses_readBlock.itemsUntil (skipBlanks_entryLabel v) rfl
  rw [readBlocks, Run.bind_of_ok hnone, Run.bind_apply, hmore, readFromEntry]
  cases hinsts : readInsts v with
  | ok insts rest =>
    have hblock : readBlock (entryLabel ++ v) =
        .ok { start := entryLabel ++ v, label := "entry", insts } rest := by
      rw [readBlock_entryLabel, Run.bind_of_ok hinsts]
      rfl
    rw [Run.bind_of_ok hblock, Run.bind_of_ok hinsts, Run.bind_apply]
    cases readLabelled rest <;> rfl
  | error e rest =>
    have hblock : readBlock (entryLabel ++ v) = .error e rest := by
      rw [readBlock_entryLabel, Run.bind_of_error hinsts]
    rw [Run.bind_of_error hblock, Run.bind_of_error hinsts]

/-- **A body can be read without the label of its first block exactly when it can be read with it.** -/
theorem readBlocks_concurs (hlabel : v.head? ≠ some '^') (hbrace : v.head? ≠ some '\x7d') :
    Concurs (List.map Block.bare) (readBlocks v) (readBlocks (entryLabel ++ v)) := by
  rw [readBlocks_of_unlabelled hlabel hbrace, readBlocks_entryLabel]
  exact concurs_readFromEntry _ _ v

/-! ## The function around it -/

/-- The body of a function whose head was read. -/
def readBody (head : Function) : Reader Function := do
  let blocks ← readBlocks
  literal '\x7d'
  return { head with blocks }

theorem concurs_readBody {head head' : Function} (hhead : head.bare = head'.bare) {s s' : List Char}
    (h : Concurs (List.map Block.bare) (readBlocks s) (readBlocks s')) :
    Concurs Function.bare (readBody head s) (readBody head' s') := by
  apply h.bind
  intro blocks blocks' rest hblocks
  have hclose : Concurs id (literal '\x7d' rest) (literal '\x7d' rest) := .refl _
  apply hclose.bind
  rintro _ _ rest' -
  refine .ok rest' ?_
  simp only [Function.bare, Function.mk.injEq, true_and] at hhead ⊢
  exact ⟨hhead.1, hhead.2.1, hblocks⟩

/-- Behind the opening brace the label is what comes next, or it has become a part of a comment that goes
on to the end of the text. -/
theorem skipBlanks_append_entryLabel {w : List Char} (h : skipBlanks false (w ++ v) = v) :
    skipBlanks false (w ++ (entryLabel ++ v)) = entryLabel ++ v ∨
      v = [] ∧ skipBlanks false (w ++ (entryLabel ++ v)) = [] := by
  by_cases hv : v = []
  · subst hv
    rw [List.append_nil] at h
    obtain ⟨open?, hopen⟩ := skipBlanks_cases h (entryLabel ++ [])
    rw [hopen]
    cases open? with
    | false => exact .inl (skipBlanks_entryLabel [])
    | true => exact .inr ⟨rfl, by decide⟩
  · left
    rw [skipBlanks_exchange (r := []) h hv]
    exact skipBlanks_entryLabel v

/-- A function is read alike with the label and without it. -/
theorem readFunction_concurs {head : Function} (h : readHead (s ++ v) = .ok head v)
    (hlabel : v.head? ≠ some '^') (hbrace : v.head? ≠ some '\x7d') :
    Concurs Function.bare (readFunction (s ++ v)) (readFunction (s ++ (entryLabel ++ v))) := by
  obtain ⟨w, hw, hexchange⟩ := readHead_exchange h
  obtain ⟨head', hbare, hhead'⟩ := hexchange (entryLabel ++ v)
  have heq : readFunction = readHead >>= readBody := readFunction_eq
  rw [heq, Run.bind_of_ok h, Run.bind_of_ok hhead']
  apply concurs_readBody hbare
  obtain hskip | ⟨rfl, hskip⟩ := skipBlanks_append_entryLabel hw
  · rw [hskip]
    exact readBlocks_concurs hlabel hbrace
  · rw [hskip]
    exact .refl _

/-! ## The module around it -/

/-- When functions are read one after the other from the start of the first text, the second is where the
body of one starts: its head was read, and all functions in front of it. What the body holds and whether
it can be read does not matter. -/
inductive Opens : List Char → List Char → Prop
  | here {s v : List Char} {head : Function} (h : readHead s = .ok head v) : Opens s v
  | later {s rest v : List Char} {source : Function} (h : readFunction s = .ok source rest)
      (hrest : Opens rest v) : Opens s v

theorem within_readHead {text : List Char} : Within text readHead fun _ => True := by
  have h : Steady (fun _ => True) Function.bare readHead readHead := steady_readHead
  exact h.within text

theorem Opens.suffix (h : Opens s v) : v <:+ s := by
  induction h with
  | here h => exact (within_readHead.ok List.suffix_rfl h).2
  | later h _ ih => exact ih.trans (within_readFunction.ok List.suffix_rfl h).2

theorem ne_nil_of_readHead {head : Function} (h : readHead s = .ok head v) :
    skipBlanks false s ≠ [] := by
  intro hnil
  obtain ⟨_, t, hsignature, -⟩ := Run.bind_eq_ok.mp h
  rw [readSignature, Run.bind_of_ok (blanks_apply s), hnil] at hsignature
  cases hsignature

theorem exists_readHead {source : Function} {rest : List Char} (h : readFunction s = .ok source rest) :
    ∃ head v, readHead s = .ok head v := by
  rw [readFunction_eq] at h
  obtain ⟨head, v, hhead, -⟩ := Run.bind_eq_ok.mp h
  exact ⟨head, v, hhead⟩

/-- Where the head of a function stands, the module goes on with that function. -/
theorem readModule_of_readHead {head : Function} (h : readHead s = .ok head v) : readModule s =
    (do return (← readFunction) :: (← readModule) : Reader (List Function)) s := by
  have hne := ne_nil_of_readHead h
  have hmore : readModule s = (do return (← readFunction) :: (← readModule) : Reader (List Function))
      (skipBlanks false s) :=
    progresses_readFunction.itemsUntil rfl (by simpa using hne)
  rw [hmore, Run.bind_apply, Run.bind_apply, readFunction_skipBlanks]

theorem readModule_concurs (h : Opens (s ++ v) v) (hlabel : v.head? ≠ some '^')
    (hbrace : v.head? ≠ some '\x7d') :
    Concurs (List.map Function.bare) (readModule (s ++ v)) (readModule (s ++ (entryLabel ++ v))) := by
  generalize hsv : s ++ v = u at h
  induction h generalizing s with
  | here h =>
    subst hsv
    obtain ⟨w, -, hexchange⟩ := readHead_exchange h
    obtain ⟨head', -, hhead'⟩ := hexchange (entryLabel ++ _)
    rw [readModule_of_readHead h, readModule_of_readHead hhead']
    apply (readFunction_concurs h hlabel hbrace).bind
    intro source source' rest hbare
    have hrest : Concurs id (readModule rest) (readModule rest) := .refl _
    apply hrest.bind
    rintro sources _ rest' rfl
    exact .ok rest' (by simp [hbare])
  | later h hopens ih =>
    subst hsv
    obtain ⟨head, t, hhead⟩ := exists_readHead h
    -- the function that was read stands in front of the place
    obtain ⟨q, rfl⟩ := hopens.suffix
    obtain ⟨p, hp⟩ := (within_readFunction.ok List.suffix_rfl h).2
    rw [← List.append_assoc] at hp
    obtain rfl := List.append_cancel_right hp
    rw [List.append_assoc] at h hhead
    obtain ⟨source', hbare, h'⟩ := readFunction_exchange (r := []) h (q ++ (entryLabel ++ _))
    obtain ⟨head', t', hhead'⟩ := exists_readHead h'
    rw [List.append_assoc, List.append_assoc, readModule_of_readHead hhead, readModule_of_readHead hhead',
      Run.bind_of_ok h, Run.bind_of_ok h']
    apply (ih hlabel hbrace rfl).bind
    intro sources sources' rest' hbares
    exact .ok rest' (by simp [hbare, hbares])

/-- The same outcome stands for the same functions. -/
theorem exists_resolveAll_of_concurs {fs : List SsaPrune.Function}
    {r r' : EStateM.Result Unit (List Char) (List Function)}
    (h : Concurs (List.map Function.bare) r r') :
    (∃ sources rest, r = .ok sources rest ∧ resolveAll [] sources = .ok fs) →
      ∃ sources rest, r' = .ok sources rest ∧ resolveAll [] sources = .ok fs := by
  rintro ⟨sources, rest, rfl, hall⟩
  cases h with
  | ok _ hbare => exact ⟨_, rest, rfl, resolveAll_of_bare hbare hall⟩

end Source

/-- **A first label that is left out is `entry`**: writing it at the start of a body that has neither a
label nor its closing brace there changes neither whether the text can be read nor what is read. -/
theorem parseModule_writtenEntry (before after : String)
    (hopens : Source.Opens (before ++ after).toList after.toList)
    (hlabel : after.toList.head? ≠ some '^') (hbrace : after.toList.head? ≠ some '\x7d')
    (fs : List Function) :
    parseModule (before ++ "^entry:" ++ after) = .ok fs ↔ parseModule (before ++ after) = .ok fs := by
  rw [String.toList_append] at hopens
  have hconcurs := Source.readModule_concurs hopens hlabel hbrace
  have htext : (before ++ "^entry:" ++ after).toList =
      before.toList ++ (Source.entryLabel ++ after.toList) := by
    rw [String.toList_append, String.toList_append, List.append_assoc]
    rfl
  rw [parseModule_eq_ok, parseModule_eq_ok, htext, String.toList_append]
  exact ⟨Source.exists_resolveAll_of_concurs hconcurs.symm, Source.exists_resolveAll_of_concurs hconcurs⟩

/-- A module up to where the body of its second function starts. -/
def unlabelledFront : String := "func @g() \x7b\n ret\n\x7d\nfunc @f(%n) \x7b ; the body\n "

/-- The body: its first block is left without the label by which both terminators call it. -/
def unlabelledBody : String := "condbr %n [^b, ^entry]\n ^b:\n br [^entry]\n\x7d"

/-- Both texts stand for two functions, and the block without a label is the entry of the second. -/
theorem parseModule_writtenEntry_second : ∃ g f,
    parseModule (unlabelledFront ++ unlabelledBody) = .ok [g, f] ∧ g.name = "g" ∧ f.name = "f" ∧
      f.layout.map f.blockLabel = ["^entry", "^b"] ∧
      parseModule (unlabelledFront ++ "^entry:" ++ unlabelledBody) = .ok [g, f] := by
  have hruns : Run.succeeds (Source.readFunction (unlabelledFront ++ unlabelledBody).toList)
      (fun rest => Run.succeeds (Source.readHead rest) fun v => v = unlabelledBody.toList) = true := by
    decide +kernel
  have hparses : (parseModule (unlabelledFront ++ unlabelledBody)).toOption.any (fun fs =>
      fs.map (·.name) = ["g", "f"] ∧
        fs.map (fun f => f.layout.map f.blockLabel) = [["^entry"], ["^entry", "^b"]]) = true := by
    decide +kernel
  obtain ⟨source, rest, hsource, hhead⟩ := Run.exists_of_succeeds hruns
  obtain ⟨head, v, hhead, hv⟩ := Run.exists_of_succeeds hhead
  obtain rfl := of_decide_eq_true hv
  obtain ⟨fs, hfs, hchecks⟩ := Run.exists_eq_ok_and hparses
  obtain ⟨hnames, hlabels⟩ := of_decide_eq_true hchecks
  obtain ⟨g, f, rfl⟩ : ∃ g f, fs = [g, f] :=
    List.length_eq_two.mp (by simpa using congrArg List.length hnames)
  simp only [List.map_cons, List.map_nil, List.cons.injEq, and_true] at hnames hlabels
  exact ⟨g, f, hfs, hnames.1, hnames.2, hlabels.2, (parseModule_writtenEntry _ _
    (.later hsource (.here hhead)) (by decide) (by decide) _).mpr hfs⟩

end SsaPrune
