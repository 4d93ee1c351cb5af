import SsaPrune.Proofs.Text.Failures
import SsaPrune.Proofs.Text.Positions

/-!
# Errors say where

An error names a place of the text by the number of bytes in front of it. Every error is about something
that stands there: `ParseCause.PointsAt` says for each cause what it is.

What a construction can be blamed for is in the source tree (`Source.Function.Blamable`), and the parts
of the tree stand in the text (`Source.Function.Stands`); `parseModule_locates` puts the two together.
-/

namespace SsaPrune

/-! ## Bytes -/

theorem utf8Size_append (s t : List Char) : utf8Size (s ++ t) = utf8Size s + utf8Size t := by
  induction s with
  | nil => exact (Nat.zero_add _).symm
  | cons c s ih => rw [List.cons_append, utf8Size, utf8Size, ih, Nat.add_assoc]

theorem utf8ByteSize_ofList (s : List Char) : (String.ofList s).utf8ByteSize = utf8Size s := by
  induction s with
  | nil => rfl
  | cons c s ih =>
    rw [String.ofList_cons, String.utf8ByteSize_append, String.utf8ByteSize_singleton, ih, utf8Size]

/-- The size of what stands in front of some character is a place between two characters. -/
theorem isValid_utf8Size {text : String} {before rest : List Char} (h : text.toList = before ++ rest) :
    String.Pos.Raw.IsValid text ⟨utf8Size before⟩ := by
  refine String.Pos.Raw.isValid_iff_exists_append.mpr
    ⟨String.ofList before, String.ofList rest, ?_, ?_⟩
  · rw [← String.ofList_append, ← h, String.ofList_toList]
  · rw [← utf8ByteSize_ofList]
    rfl

/-! ## What stands at the place of an error -/

open Source Reader

/-- What the text has at the place of an error: the function, block or instruction that is to blame, or
whatever the grammar does not allow there. A function is to blame for its own name and for one that its
parameters share, an instruction for its result, for its opcode and for what it mentions. -/
inductive ParseCause.PointsAt (text : List Char) : ParseCause → List Char → Prop
  | malformed {s : List Char} {u : Unit} (hread : readModule text = .error u s) :
      PointsAt text .malformed s
  | duplicateFunction {s rest : List Char} {source : Source.Function}
      (hread : readFunction s = .ok source rest) (hfunc : "func".toList <+: s) :
      PointsAt text (.duplicateFunction source.name) s
  | duplicateParam {s rest : List Char} {source : Source.Function} {name : String}
      (hread : readFunction s = .ok source rest) (hfunc : "func".toList <+: s)
      (hname : List.Duplicate name source.params) : PointsAt text (.duplicateValue name) s
  | duplicateBlock {s rest : List Char} {block : Block} (hread : readBlock s = .ok block rest)
      (hlabel : '^' :: block.label.toList <+: s) : PointsAt text (.duplicateBlock block.label) s
  | duplicateResult {s rest : List Char} {inst : Inst} {name : String}
      (hread : readInst s = .ok inst rest) (hname : inst.result = some name) :
      PointsAt text (.duplicateValue name) s
  | unknownOpcode {s rest : List Char} {inst : Inst} (hread : readInst s = .ok inst rest)
      (hopcode : Opcode.ofName? inst.opcode = none) : PointsAt text (.unknownOpcode inst.opcode) s
  | undefinedBlock {s rest : List Char} {inst : Inst} {label : String}
      (hread : readInst s = .ok inst rest)
      (hlabel : label ∈ inst.arguments.successors ++ inst.arguments.incomingLabels) :
      PointsAt text (.undefinedBlock label) s
  | undefinedValue {s rest : List Char} {inst : Inst} {name : String}
      (hread : readInst s = .ok inst rest) (hname : .name name ∈ inst.arguments.operands) :
      PointsAt text (.undefinedValue name) s

/-- The problem is with something that stands at its place in the text. -/
def Problem.Located (text : List Char) (p : Problem) : Prop :=
  p.start <:+ text ∧ p.cause.PointsAt text p.start

namespace Source

variable {text : List Char}

theorem Inst.blamable_of_stands {inst : Inst} (h : Reader.Stands text readInst inst.start inst) :
    inst.Blamable (Problem.Located text) := by
  obtain ⟨hsuffix, rest, hread⟩ := h
  exact ⟨fun hopcode => ⟨hsuffix, .unknownOpcode hread hopcode⟩,
    fun l hl => ⟨hsuffix, .undefinedBlock hread hl⟩,
    fun n hn => ⟨hsuffix, .duplicateResult hread hn⟩,
    fun n hn => ⟨hsuffix, .undefinedValue hread hn⟩⟩

theorem Function.blamable_of_stands {source : Function} (h : source.Stands text) :
    source.Blamable (Problem.Located text) := by
  obtain ⟨hsuffix, rest, hread⟩ := h.function
  have hfunc := (start_of_readFunction hread).2
  refine ⟨⟨hsuffix, .duplicateFunction hread hfunc⟩,
    fun n hn => ⟨hsuffix, .duplicateParam hread hfunc hn⟩, fun block hb => ?_, fun inst hinst => ?_⟩
  · obtain ⟨⟨hsuffix, rest, hread⟩, -⟩ := h.blocks block hb
    exact ⟨hsuffix, .duplicateBlock hread (prefix_of_readBlock hread)⟩
  · obtain ⟨block, hblock, hmem⟩ := List.mem_flatMap.mp hinst
    exact Inst.blamable_of_stands (h.insts block hblock inst hmem)

end Source

theorem located_of_parseModule {text : String} {e : ParseError} (h : parseModule text = .error e) :
    ∃ p : Problem, (Source.ofText text.toList).bind (resolveAll []) = .error p ∧
      e = p.locate text.toList ∧ p.Located text.toList := by
  have hmodule : Within text.toList readModule _ := within_readModule
  obtain ⟨p, hp, rfl⟩ := exists_problem_of_parseModule h
  refine ⟨p, hp, rfl, ?_⟩
  obtain ⟨⟨u, hread⟩, hcause⟩ | ⟨sources, rest, hread, hall⟩ := ofText_bind_eq_error.mp hp
  · exact ⟨hmodule.error List.suffix_rfl hread, hcause ▸ .malformed hread⟩
  · have hstands := (hmodule.ok List.suffix_rfl hread).1
    exact problem_of_resolveAll (fun source hs => Function.blamable_of_stands (hstands source hs)) hall

/-! ## Labels are found again -/

namespace Build

variable {s t : Scope}

/-- After the blocks were added, the table leads from their labels to them. -/
theorem lookup_of_addBlocks {blocks : List Block} {bs : List (BlockId × Block)}
    (h : (blocks.mapM fun block => return (← addBlock block, block)) s = .ok (bs, t)) :
    (∀ l b, s.blocks.lookup l = some b → t.blocks.lookup l = some b) ∧
      ∀ p ∈ bs, t.blocks.lookup p.2.label = some p.1 := by
  induction blocks generalizing s bs with
  | nil =>
    obtain ⟨rfl, rfl⟩ := Prod.mk.inj (mapM_nil_eq_ok.mp h)
    exact ⟨fun _ _ hl => hl, by simp⟩
  | cons block blocks ih =>
    obtain ⟨p, s', ps, u, hone, hrest, heq⟩ := mapM_cons_eq_ok.mp h
    obtain ⟨rfl, rfl⟩ := Prod.mk.inj heq
    obtain ⟨b, s'', hadd, hpure⟩ := bind_eq_ok.mp hone
    obtain ⟨rfl, rfl⟩ := Prod.mk.inj (pure_eq_ok.mp hpure)
    obtain ⟨hnew, g, -, heq⟩ := addBlock_eq_ok_iff.mp hadd
    obtain ⟨rfl, rfl⟩ := Prod.mk.inj heq
    obtain ⟨hkept, hfound⟩ := ih hrest
    refine ⟨fun l b hl => hkept l b ?_, List.forall_mem_cons.mpr ⟨hkept _ _ ?_, hfound⟩⟩
    · exact SsaPrune.Function.lookup_cons_of_ne_none _ (lookup_eq_none_iff_notMem.mpr hnew) hl
    · exact List.lookup_cons_self

theorem blocks_of_addInst {b : BlockId} {inst : Inst} {i : InstId}
    (h : addInst b inst s = .ok (i, t)) : t.blocks = s.blocks := by
  obtain ⟨d, g₁, g₂, g, -, -, -, -, rfl⟩ := addInst_eq_ok_iff.mp h
  rfl

/-- A pass whose steps leave the table of blocks alone does so as well. -/
theorem blocks_of_mapM {α β : Type} {k : α → Build β}
    (hk : ∀ x s y t, k x s = .ok (y, t) → t.blocks = s.blocks) {xs : List α} {ys : List β}
    (h : xs.mapM k s = .ok (ys, t)) : t.blocks = s.blocks := by
  induction xs generalizing s ys with
  | nil =>
    obtain ⟨-, rfl⟩ := Prod.mk.inj (mapM_nil_eq_ok.mp h)
    rfl
  | cons x xs ih =>
    obtain ⟨y, s', zs, u, hone, hrest, heq⟩ := mapM_cons_eq_ok.mp h
    obtain ⟨-, rfl⟩ := Prod.mk.inj heq
    exact (ih hrest).trans (hk x s y s' hone)

end Build

/-- When the instructions of a tree are added, the table leads from the label of each of its blocks to the
block, whichever blocks were filled before. -/
def Source.Function.BlocksFound (source : Source.Function) : Prop :=
  ∀ (s t u : Scope) (bs filled : List (BlockId × Block)) (iss : List (List (InstId × Inst))),
    (source.blocks.mapM fun block => return (← Build.addBlock block, block)) s = .ok (bs, t) →
    (filled.mapM fun (p : BlockId × Block) => p.2.insts.mapM fun inst =>
      return (← Build.addInst p.1 inst, inst) : Build _) t = .ok (iss, u) →
    ∀ p ∈ bs, u.blocks.lookup p.2.label = some p.1

theorem Source.Function.blocksFound (source : Source.Function) : source.BlocksFound := by
  intro s t u bs filled iss hblocks hinsts p hp
  have hsame : u.blocks = t.blocks := by
    refine Build.blocks_of_mapM (fun p s is t his => Build.blocks_of_mapM ?_ his) hinsts
    intro inst s q t hq
    obtain ⟨i, t', hadd, hpure⟩ := Build.bind_eq_ok.mp hq
    obtain ⟨-, rfl⟩ := Prod.mk.inj (Build.pure_eq_ok.mp hpure)
    exact Build.blocks_of_addInst hadd
  rw [hsame]
  exact (Build.lookup_of_addBlocks hblocks).2 p hp

/-! ## Texts -/

/-- The loops of the grammar need no test for progress. -/
structure LoopsEnd : Prop where
  functions : Unguarded readFunction
  blocks : Unguarded readBlock
  insts : Unguarded readInst
  params : Unguarded readParam
  operands : Unguarded (padded readOperand)
  labels : Unguarded (padded (readName '^'))
  pairs : Unguarded (padded readPair)

theorem loopsEnd : LoopsEnd where
  functions := progresses_readFunction.unguarded
  blocks := progresses_readBlock.unguarded
  insts := progresses_readInst.unguarded
  params := progresses_readParam.unguarded
  operands := progresses_readOperand.padded.unguarded
  labels := (progresses_readName '^').padded.unguarded
  pairs := progresses_readPair.padded.unguarded

/-- The error is at a place between two characters of the text, and is about what stands behind it. -/
structure ParseError.Splits (e : ParseError) (text : String) (before rest : List Char) : Prop where
  splits : text.toList = before ++ rest
  offset : e.offset = utf8Size before
  inside : e.offset ≤ text.utf8ByteSize
  boundary : String.Pos.Raw.IsValid text ⟨e.offset⟩
  points : e.cause.PointsAt text.toList rest

/-- **Every error points at what is to blame for it.**

What is found wrong keeps an end of the text, and the offset of the error is the size of what stands in
front of that: it is a place between two characters, behind which stands the function, the block or the
instruction that the error is about. The loops of the grammar use up the text, and the blocks of a
function are found again by their labels. -/
theorem parseModule_locates (text : String) :
    (∀ e, parseModule text = .error e → ∃ p before,
      (Source.ofText text.toList).bind (resolveAll []) = .error p ∧ e = p.locate text.toList ∧
      e.Splits text before p.start) ∧
    LoopsEnd ∧ ∀ source : Source.Function, source.BlocksFound := by
  refine ⟨fun e he => ?_, loopsEnd, Source.Function.blocksFound⟩
  obtain ⟨p, hp, rfl, ⟨before, hbefore⟩, hpoints⟩ := located_of_parseModule he
  have hoffset : (p.locate text.toList).offset = utf8Size before := by
    rw [Problem.locate, ← hbefore, utf8Size_append, Nat.add_sub_cancel]
  have hvalid := isValid_utf8Size hbefore.symm
  exact ⟨p, before, hp, rfl, hbefore.symm, hoffset, hoffset ▸ hvalid.le_rawEndPos, hoffset ▸ hvalid,
    hpoints⟩

/-- A module with a comment of two-byte characters, in which the last of two functions uses a name of the
first. -/
def mislaid : String :=
  "; éé\nfunc @f(%x) \x7b\n ret\n\x7d\nfunc @g() \x7b\n ^a:\n ret %x ; é\n\x7d"

/-- The error points at the instruction. -/
theorem parseModule_locates_mislaid :
    parseModule mislaid = .error ⟨.undefinedValue "x", 46⟩ ∧
    (∃ p before, (Source.ofText mislaid.toList).bind (resolveAll []) = .error p ∧
      (⟨.undefinedValue "x", 46⟩ : ParseError) = p.locate mislaid.toList ∧
      ParseError.Splits ⟨.undefinedValue "x", 46⟩ mislaid before p.start) ∧
    LoopsEnd ∧ ∀ source : Source.Function, source.BlocksFound := by
  have hruns : (match parseModule mislaid with
      | .error e => decide (e = ⟨.undefinedValue "x", 46⟩)
      | .ok _ => false) = true := by
    decide +kernel
  have herror : parseModule mislaid = .error ⟨.undefinedValue "x", 46⟩ := by
    split at hruns
    · rename_i e he
      exact he.trans (congrArg _ (of_decide_eq_true hruns))
    · cases hruns
  obtain ⟨hlocates, hloops, hfound⟩ := parseModule_locates mislaid
  exact ⟨herror, hlocates _ herror, hloops, hfound⟩

end SsaPrune
