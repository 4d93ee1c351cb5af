import SsaPrune.Proofs.Text.Written

/-!
# A module is read back from its writing

Between the parts of a module stand blanks, which the readers of blocks and functions skip before
they look at what comes next. So each statement is about a text up to the blanks in front of it.

The main statement is `readModule_moduleText`.
-/

namespace SsaPrune.Source

open Reader

variable {s rest : List Char}

/-! ## Blocks -/

/-- The lines of some instructions, each with the line end in front of it. -/
def linesText (insts : List Inst) : List Char :=
  insts.flatMap fun inst => '\n' :: ("    ".toList ++ inst.text.toList)

theorem lineEnd_join (insts : List Inst) :
    '\n' :: (String.join (insts.map fun inst => "    " ++ inst.text ++ "\n")).toList =
      linesText insts ++ ['\n'] := by
  induction insts with
  | nil => rfl
  | cons inst insts ih =>
    rw [String.toList_join] at ih ⊢
    rw [List.map_cons, List.flatMap_cons]
    have hline : linesText (inst :: insts) ++ ['\n'] =
        '\n' :: ("    ".toList ++ inst.text.toList ++ (linesText insts ++ ['\n'])) := by
      simp [linesText]
    rw [hline, ← ih]
    simp

theorem Block.toList_text (block : Block) : block.text.toList ++ rest =
    ' ' :: ' ' :: '^' :: (block.label.toList ++ ':' :: (linesText block.insts ++ '\n' :: rest)) := by
  have hlines := lineEnd_join block.insts
  have hsplit : block.text.toList ++ rest = ' ' :: ' ' :: '^' :: (block.label.toList ++ ':' ::
      ('\n' :: (String.join (block.insts.map fun inst => "    " ++ inst.text ++ "\n")).toList ++
        rest)) := by
    simp [text, labelText]
  rw [hsplit, hlines, List.append_assoc]
  rfl

theorem skipBlanks_line {inst : Inst} (h : inst.WellFormed) (t : List Char) :
    skipBlanks false ('\n' :: ("    ".toList ++ inst.text.toList ++ t)) = inst.text.toList ++ t := by
  have hstart : Stops (fun c => isBlank c || c = ';') (inst.text.toList ++ t) := by
    obtain ⟨c, cs, hcs, hc⟩ := h.opcode.exists_cons
    obtain ⟨-, -, hcomment, hblank⟩ := isOpcodeChar_cases hc
    unfold Inst.text
    cases inst.result with
    | none => simp [resultText, hcs, hcomment, hblank]
    | some name => simp [resultText, isBlank]
  change skipBlanks false ('\n' :: ' ' :: ' ' :: ' ' :: ' ' :: (inst.text.toList ++ t)) = _
  rw [skipBlanks_cons (by decide), skipBlanks_cons (by decide), skipBlanks_cons (by decide),
    skipBlanks_cons (by decide), skipBlanks_cons (by decide), skipBlanks_of_stops hstart]

/-- A line of an instruction is not the end of the block. -/
theorem endsBlock_text {inst : Inst} (h : inst.WellFormed) (t : List Char) :
    endsBlock (inst.text.toList ++ t) = false := by
  obtain ⟨c, cs, hcs, hc⟩ := h.opcode.exists_cons
  have hne : ∀ d, isOpcodeChar d = false → c ≠ d := fun d hd e => by
    rw [e, hd] at hc
    cases hc
  unfold Inst.text
  cases inst.result with
  | none => simp [resultText, hcs, endsBlock, startsWith, hne '^' (by decide), hne '\x7d' (by decide)]
  | some name => simp [resultText, endsBlock, startsWith]

theorem readInsts_linesText {insts : List Inst} (h : ∀ inst ∈ insts, inst.WellFormed)
    (hend : endsBlock (skipBlanks false rest) = true) :
    ∃ insts', insts'.map Inst.bare = insts.map Inst.bare ∧
      readInsts (linesText insts ++ '\n' :: rest) = .ok insts' (skipBlanks false rest) := by
  induction insts with
  | nil =>
    refine ⟨[], rfl, itemsUntil_nil ?_ hend⟩
    exact skipBlanks_cons (by decide) rest
  | cons inst insts ih =>
    have hinst := h inst List.mem_cons_self
    obtain ⟨insts', hbare, hread⟩ := ih fun j hj => h j (List.mem_cons_of_mem _ hj)
    have hshape : linesText (inst :: insts) ++ '\n' :: rest =
        '\n' :: ("    ".toList ++ inst.text.toList ++ (linesText insts ++ '\n' :: rest)) := by
      simp [linesText]
    obtain ⟨t, ht⟩ : ∃ t, linesText insts ++ '\n' :: rest = '\n' :: t := by
      cases insts with
      | nil => exact ⟨rest, rfl⟩
      | cons j js => exact ⟨_, rfl⟩
    have hline : readInst (inst.text.toList ++ '\n' :: t) = _ := readInst_text hinst
    rw [← ht] at hline
    have hlen : 0 < inst.text.toList.length := by
      obtain ⟨c, cs, hcs, -⟩ := hinst.opcode.exists_cons
      simp only [Inst.text, String.toList_append, hcs, List.length_append, List.length_cons]
      omega
    refine ⟨{ inst with start := inst.text.toList ++ (linesText insts ++ '\n' :: rest) } :: insts',
      ?_, ?_⟩
    · rw [List.map_cons, hbare]
      rfl
    · rw [hshape]
      refine itemsUntil_cons (skipBlanks_line hinst _) (endsBlock_text hinst _) hline ?_ hread
      simp only [List.length_append]
      omega

theorem readBlock_text {block : Block} (h : block.WellFormed)
    (hend : endsBlock (skipBlanks false rest) = true)
    (hs : skipBlanks false s =
      '^' :: (block.label.toList ++ ':' :: (linesText block.insts ++ '\n' :: rest))) :
    ∃ block', block'.bare = block.bare ∧ readBlock s = .ok block' (skipBlanks false rest) := by
  obtain ⟨insts, hbare, hread⟩ := readInsts_linesText h.insts hend
  refine ⟨⟨skipBlanks false s, block.label, insts⟩, by simp [Block.bare, hbare], ?_⟩
  unfold readBlock
  rw [Run.bind_of_ok (blanks_apply s), Run.bind_get, hs,
    Run.bind_of_ok (readName_append h.label (stops_cons.mpr (by decide))),
    Run.bind_of_ok (padding_apply _), List.dropWhile_cons_of_neg (by decide),
    Run.bind_of_ok (literal_cons _ _), Run.bind_of_ok hread]
  rfl

/-- The blocks of a function and the brace behind them. -/
def bodyText (blocks : List Block) (rest : List Char) : List Char :=
  blocks.flatMap (·.text.toList) ++ '\x7d' :: rest

theorem bodyText_cons (block : Block) (blocks : List Block) :
    bodyText (block :: blocks) rest =
      ' ' :: ' ' :: '^' :: (block.label.toList ++
        ':' :: (linesText block.insts ++ '\n' :: bodyText blocks rest)) := by
  rw [← block.toList_text]
  simp [bodyText]

theorem skipBlanks_bodyText_cons (block : Block) (blocks : List Block) :
    skipBlanks false (bodyText (block :: blocks) rest) =
      '^' :: (block.label.toList ++
        ':' :: (linesText block.insts ++ '\n' :: bodyText blocks rest)) := by
  rw [bodyText_cons, skipBlanks_cons (by decide), skipBlanks_cons (by decide)]
  exact skipBlanks_of_stops (stops_cons.mpr (by decide))

theorem skipBlanks_bodyText_nil : skipBlanks false (bodyText [] rest) = '\x7d' :: rest :=
  skipBlanks_of_stops (stops_cons.mpr (by decide))

theorem startsWith_bodyText (blocks : List Block) :
    (startsWith '^' (skipBlanks false (bodyText blocks rest)) ||
      startsWith '\x7d' (skipBlanks false (bodyText blocks rest))) = true := by
  cases blocks with
  | nil => rw [skipBlanks_bodyText_nil]; rfl
  | cons block blocks => rw [skipBlanks_bodyText_cons]; rfl

theorem endsBlock_bodyText (blocks : List Block) :
    endsBlock (skipBlanks false (bodyText blocks rest)) = true := by
  rw [endsBlock, Bool.or_assoc, startsWith_bodyText, Bool.or_true]

theorem readBlocks_bodyText {blocks : List Block} (h : ∀ block ∈ blocks, block.WellFormed)
    (hs : skipBlanks false s = skipBlanks false (bodyText blocks rest)) :
    ∃ blocks', blocks'.map Block.bare = blocks.map Block.bare ∧
      itemsUntil (fun s => !startsWith '^' s) readBlock s = .ok blocks' ('\x7d' :: rest) := by
  induction blocks generalizing s with
  | nil =>
    refine ⟨[], rfl, itemsUntil_nil (hs.trans skipBlanks_bodyText_nil) (by simp [startsWith])⟩
  | cons block blocks ih =>
    rw [skipBlanks_bodyText_cons] at hs
    obtain ⟨block', hbare, hread⟩ := readBlock_text (h block List.mem_cons_self)
      (endsBlock_bodyText blocks) ((skipBlanks_skipBlanks false s).trans hs)
    obtain ⟨blocks', hbares, hreads⟩ := ih (fun b hb => h b (List.mem_cons_of_mem _ hb))
      (skipBlanks_skipBlanks false (bodyText blocks rest))
    refine ⟨block' :: blocks', by simp [hbare, hbares], ?_⟩
    refine itemsUntil_cons rfl (by simp [hs, startsWith]) hread ?_ hreads
    have hlen := length_skipBlanks_le false (bodyText blocks rest)
    rw [hs]
    simp only [List.length_cons, List.length_append]
    omega

/-! ## Functions -/

theorem blanks_of_ne {c : Char} (hb : isBlank c = false) (hc : c ≠ ';') (s : List Char) :
    blanks (c :: s) = .ok () (c :: s) := by
  rw [blanks_apply, skipBlanks_of_stops (stops_cons.mpr (by simp [hb, hc]))]

theorem blanks_blank (s : List Char) : blanks (' ' :: s) = .ok () (skipBlanks false s) := by
  rw [blanks_apply, skipBlanks_cons (by decide)]

theorem readsBack_param {name : String} (h : IsName name) :
    ReadsBack isNameChar (skipBlanks false) (readName '%') ("%" ++ ·) name := fun rest hr => by
  have hshape : ("%" ++ name).toList ++ rest = '%' :: (name.toList ++ rest) := by simp
  rw [hshape]
  exact ⟨skipBlanks_of_stops (stops_cons.mpr (by decide)), readName_append h hr⟩

theorem readParams_text {params : List String} (h : ∀ name ∈ params, IsName name) :
    readParams ('(' :: ((", ".intercalate (params.map ("%" ++ ·))).toList ++ ')' :: rest)) =
      .ok params rest := by
  have hclose : blanks (')' :: rest) = .ok () (')' :: rest) :=
    blanks_of_ne (by decide) (by decide) rest
  unfold readParams
  rw [Run.bind_of_ok (literal_cons _ _)]
  by_cases hne : params = []
  · subst hne
    change (blanks >>= _) (')' :: rest) = _
    rw [Run.bind_of_ok hclose]
    have hitems : items (do blanks; let name ← readName '%'; blanks; return name) (')' :: rest) =
        .ok [] (')' :: rest) := by
      have hitem : items1 (do blanks; let name ← readName '%'; blanks; return name)
          (')' :: rest) = .error () (')' :: rest) := by
        unfold items1
        apply Run.bind_of_error
        rw [Run.bind_of_ok hclose]
        exact Run.bind_of_error (readName_of_stops (stops_cons.mpr (by decide)))
      unfold items
      rw [Run.bind_of_ok (attempt_of_error hitem)]
      rfl
    rw [Run.bind_of_ok hitems, Run.bind_of_ok hclose, Run.bind_of_ok (literal_cons _ _)]
    rfl
  · have hitems := items1_intercalate (surrounds_blanks (readName '%')) hne
      (fun name hn => readsBack_param (h name hn)) (by decide)
      (show Stops _ (')' :: rest) from stops_cons.mpr (by decide)) (by simp [skipBlanks, isBlank])
    have hskip : skipBlanks false (')' :: rest) = ')' :: rest :=
      skipBlanks_of_stops (stops_cons.mpr (by decide))
    have hlist : items (do blanks; let name ← readName '%'; blanks; return name)
        ((", ".intercalate (params.map ("%" ++ ·))).toList ++ ')' :: rest) =
        .ok params (')' :: rest) := by
      unfold items
      rw [Run.bind_of_ok (attempt_of_ok hitems), hskip]
      rfl
    obtain ⟨name, names, rfl⟩ := List.exists_cons_of_ne_nil hne
    obtain ⟨t, ht⟩ : ∃ t, (", ".intercalate ((name :: names).map ("%" ++ ·))).toList ++
        ')' :: rest = '%' :: t := by
      rw [toList_intercalate_cons, String.toList_append]
      exact ⟨_, rfl⟩
    rw [ht] at hlist ⊢
    rw [Run.bind_of_ok (blanks_of_ne (by decide) (by decide) t), Run.bind_of_ok hlist,
      Run.bind_of_ok hclose, Run.bind_of_ok (literal_cons _ _)]
    rfl

theorem keyword_append (w : String) (s : List Char) :
    keyword w (w.toList ++ s) = .ok () s := by
  unfold keyword
  rw [if_pos (by simp), List.drop_left]

theorem Function.toList_text (source : Function) : source.text.toList ++ rest =
    "func".toList ++ ' ' :: '@' :: (source.name.toList ++ '(' ::
      ((", ".intercalate (source.params.map ("%" ++ ·))).toList ++ ')' :: ' ' :: '\x7b' :: '\n' ::
        bodyText source.blocks ('\n' :: rest))) := by
  unfold text bodyText
  simp only [String.toList_append, String.toList_join, List.flatMap_map, List.append_assoc]
  rfl

theorem readFunction_text {source : Function} (h : source.WellFormed)
    (hs : skipBlanks false s = source.text.toList ++ rest) :
    ∃ source', source'.bare = source.bare ∧ readFunction s = .ok source' ('\n' :: rest) := by
  have hbody : skipBlanks false ('\n' :: bodyText source.blocks ('\n' :: rest)) =
      skipBlanks false (bodyText source.blocks ('\n' :: rest)) := skipBlanks_cons (by decide) _
  obtain ⟨blocks, hbare, hread⟩ := readBlocks_bodyText h.blocks
    (skipBlanks_skipBlanks false (bodyText source.blocks ('\n' :: rest)))
  have hfirst : readFirstBlock (skipBlanks false (bodyText source.blocks ('\n' :: rest))) =
      .ok [] (skipBlanks false (bodyText source.blocks ('\n' :: rest))) := by
    unfold readFirstBlock
    rw [Run.bind_get, if_pos (startsWith_bodyText source.blocks)]
    rfl
  refine ⟨⟨skipBlanks false s, source.name, source.params, blocks⟩,
    by simp [Function.bare, hbare], ?_⟩
  unfold readFunction
  rw [Run.bind_of_ok (blanks_apply s), Run.bind_get, hs, source.toList_text,
    Run.bind_of_ok (keyword_append "func" _), Run.bind_of_ok (blanks_blank _),
    skipBlanks_of_stops (stops_cons.mpr (by decide)),
    Run.bind_of_ok (readName_append h.name (stops_cons.mpr (by decide))),
    Run.bind_of_ok (blanks_of_ne (by decide) (by decide) _), Run.bind_of_ok (readParams_text h.params),
    Run.bind_of_ok (blanks_blank _), skipBlanks_of_stops (stops_cons.mpr (by decide)),
    Run.bind_of_ok (literal_cons _ _), Run.bind_of_ok (blanks_apply _), hbody,
    Run.bind_of_ok hfirst, Run.bind_of_ok hread, Run.bind_of_ok (literal_cons _ _)]
  rfl

/-! ## Modules -/

theorem Function.exists_cons_text (source : Function) :
    ∃ t, source.text.toList = 'f' :: 'u' :: t := by
  have h : source.text.toList ++ [] = _ := source.toList_text
  rw [List.append_nil] at h
  exact ⟨_, h⟩

theorem skipBlanks_functionText (source : Function) :
    skipBlanks false (source.text.toList ++ rest) = source.text.toList ++ rest := by
  obtain ⟨t, ht⟩ := source.exists_cons_text
  rw [ht]
  exact skipBlanks_of_stops (stops_cons.mpr (by decide))

/-- **A module is read back from its writing.** -/
theorem readModule_moduleText {sources : List Function}
    (h : ∀ source ∈ sources, source.WellFormed) :
    ∃ sources', sources'.map Function.bare = sources.map Function.bare ∧
      readModule (moduleText sources).toList = .ok sources' [] := by
  suffices hall : ∀ s, skipBlanks false s = skipBlanks false (moduleText sources).toList →
      ∃ sources', sources'.map Function.bare = sources.map Function.bare ∧
        readModule s = .ok sources' [] from hall _ rfl
  induction sources with
  | nil => exact fun s hs => ⟨[], rfl, itemsUntil_nil hs rfl⟩
  | cons source sources ih =>
    intro s hs
    have hsource := h source List.mem_cons_self
    have ih := ih fun f hf => h f (List.mem_cons_of_mem _ hf)
    -- what stands behind the closing brace is the rest of the module up to its blanks
    obtain ⟨rest, hrest, htext⟩ : ∃ rest,
        skipBlanks false ('\n' :: rest) = skipBlanks false (moduleText sources).toList ∧
        (moduleText (source :: sources)).toList = source.text.toList ++ rest := by
      cases sources with
      | nil => exact ⟨[], rfl, by simp [moduleText]⟩
      | cons g gs =>
        refine ⟨'\n' :: (moduleText (g :: gs)).toList, ?_, ?_⟩
        · rw [skipBlanks_cons (by decide), skipBlanks_cons (by decide)]
        · simp [moduleText, String.intercalate_cons_cons]
    rw [htext, skipBlanks_functionText] at hs
    obtain ⟨source', hbare, hread⟩ := readFunction_text hsource
      ((skipBlanks_skipBlanks false s).trans hs)
    obtain ⟨sources', hbares, hreads⟩ := ih _ hrest
    refine ⟨source' :: sources', by simp [hbare, hbares], ?_⟩
    obtain ⟨t, ht⟩ := source.exists_cons_text
    refine itemsUntil_cons rfl (by rw [hs, ht]; rfl) hread ?_ hreads
    rw [hs, ht]
    simp only [List.length_cons, List.length_append]
    omega

end SsaPrune.Source
