import Mathlib.Data.List.Duplicate
import SsaPrune.Proofs.Text.Declarations

/-!
# Why a construction fails

Each step of a construction that fails blames a part of the source tree: the parameter, the block or the
instruction that it is made for. `Blamable P` says of a part that whatever it can be blamed for has the
property `P`; then so has every failure (`Source.problem_of_resolveAll`).

A text is refused because of its grammar or its names only. The edits that the construction makes are
about entities that it created before, and place each instruction once, so none of them is refused
(`parseModule_ne_refused`).
-/

namespace SsaPrune

/-! ## Blame -/

namespace Source

/-- All that an instruction can be blamed for has the property. -/
structure Inst.Blamable (P : Problem → Prop) (inst : Inst) : Prop where
  opcode : Opcode.ofName? inst.opcode = none → P ⟨.unknownOpcode inst.opcode, inst.start⟩
  labels : ∀ l ∈ inst.arguments.successors ++ inst.arguments.incomingLabels,
    P ⟨.undefinedBlock l, inst.start⟩
  result : ∀ n ∈ inst.result, P ⟨.duplicateValue n, inst.start⟩
  operands : ∀ n, .name n ∈ inst.arguments.operands → P ⟨.undefinedValue n, inst.start⟩

/-- All that a function can be blamed for has the property; the label of its first block is new. -/
structure Function.Blamable (P : Problem → Prop) (source : Function) : Prop where
  name : P ⟨.duplicateFunction source.name, source.start⟩
  params : ∀ n, List.Duplicate n source.params → P ⟨.duplicateValue n, source.start⟩
  blocks : ∀ block ∈ source.blocks.tail, P ⟨.duplicateBlock block.label, block.start⟩
  insts : ∀ inst ∈ source.insts, inst.Blamable P

end Source

namespace Build

variable {α β : Type} {P : Problem → Prop} {m : Build α} {s t : Scope} {start : List Char}

/-- From the scope `s`, the step fails for reasons with the property only. -/
def FailsBy (P : Problem → Prop) (m : Build α) (s : Scope) : Prop := ∀ p, m s = .error p → P p

/-! ## Sequences -/

theorem failsBy_of_ok {r : α × Scope} (h : m s = .ok r) : FailsBy P m s := by
  intro p hp
  cases h.symm.trans hp

theorem failsBy_throw {p : Problem} (h : P p) : FailsBy P (throw p : Build α) s := by
  intro q hq
  obtain rfl := Except.error.inj (hq : Except.error p = .error q)
  exact h

theorem FailsBy.bind {k : α → Build β} (h : FailsBy P m s)
    (hk : ∀ a t, m s = .ok (a, t) → FailsBy P (k a) t) : FailsBy P (m >>= k) s := by
  intro p hp
  change (m s >>= fun r => k r.1 r.2) = .error p at hp
  cases hm : m s with
  | error q =>
    rw [hm] at hp
    obtain rfl := Except.error.inj (hp : Except.error q = .error p)
    exact h q hm
  | ok r =>
    rw [hm] at hp
    exact hk r.1 r.2 hm p hp

/-- A step that does not fail leaves the failures to what follows it. -/
theorem failsBy_bind_of_ok {k : α → Build β} {a : α} (h : m s = .ok (a, t))
    (hk : FailsBy P (k a) t) : FailsBy P (m >>= k) s := by
  refine (failsBy_of_ok h).bind fun b u hb => ?_
  obtain ⟨rfl, rfl⟩ := Prod.mk.inj (Except.ok.inj (h.symm.trans hb))
  exact hk

section Lists

variable {names : Scope → List String} {I : Scope → Prop} {xs : List α} {C : α → Prop}
  {ns : α → List String}

/-- A pass fails by one of its steps. -/
theorem failsBy_mapM {k : α → Build β} (hk : ∀ x ∈ xs, Declares names I (k x) (C x) (ns x))
    (hf : ∀ x ∈ xs, ∀ s, I s → FailsBy P (k x) s) (hs : I s) : FailsBy P (xs.mapM k) s := by
  induction xs generalizing s with
  | nil => exact failsBy_of_ok (mapM_nil_eq_ok.mpr rfl)
  | cons x xs ih =>
    obtain ⟨hx, hxs⟩ := List.forall_mem_cons.mp hk
    obtain ⟨hfx, hfxs⟩ := List.forall_mem_cons.mp hf
    rw [List.mapM_cons]
    refine (hfx s hs).bind fun y t hy => ?_
    exact (ih hxs hfxs (hx.keeps s y t hs hy).1).bind fun ys u _ => failsBy_of_ok rfl

theorem failsBy_forM {k : α → Build PUnit} (hk : ∀ x ∈ xs, Declares names I (k x) (C x) (ns x))
    (hf : ∀ x ∈ xs, ∀ s, I s → FailsBy P (k x) s) (hs : I s) : FailsBy P (xs.forM k) s := by
  induction xs generalizing s with
  | nil => exact failsBy_of_ok (rfl : _ = Except.ok _)
  | cons x xs ih =>
    obtain ⟨hx, hxs⟩ := List.forall_mem_cons.mp hk
    obtain ⟨hfx, hfxs⟩ := List.forall_mem_cons.mp hf
    exact (hfx s hs).bind fun y t hy => ih hxs hfxs (hx.keeps s y t hs hy).1

/-- Lookups leave the scope as it is. -/
theorem failsBy_mapM_of_lookup {k : α → Build β} (hk : ∀ x y t, k x s = .ok (y, t) → t = s)
    (hf : ∀ x ∈ xs, FailsBy P (k x) s) : FailsBy P (xs.mapM k) s := by
  induction xs with
  | nil => exact failsBy_of_ok (mapM_nil_eq_ok.mpr rfl)
  | cons x xs ih =>
    obtain ⟨hfx, hfxs⟩ := List.forall_mem_cons.mp hf
    rw [List.mapM_cons]
    refine hfx.bind fun y t hy => ?_
    obtain rfl := hk x y t hy
    exact (ih hfxs).bind fun ys u _ => failsBy_of_ok rfl

end Lists

/-! ## Steps -/

theorem failsBy_edit {e : Edit α} {a : α} {g : Function} (h : e s.function = .ok a g) :
    FailsBy P (edit start e) s :=
  failsBy_of_ok (edit_eq_ok.mpr ⟨g, h, rfl⟩)

theorem failsBy_declareValue {name : String} {v : ValueId}
    (h : name ∈ s.valueNames → P ⟨.duplicateValue name, start⟩) :
    FailsBy P (declareValue start name v) s := by
  obtain ⟨-, hrun⟩ | ⟨hmem, hrun⟩ := declareValue_cases start name v s
  · exact failsBy_of_ok hrun
  · intro p hp
    obtain rfl := Except.error.inj (hrun.symm.trans hp)
    exact h hmem

theorem failsBy_resolveOperand {x : Source.Operand}
    (h : ∀ n, x = .name n → P ⟨.undefinedValue n, start⟩) :
    FailsBy P (resolveOperand start x) s := by
  cases x with
  | imm n => exact failsBy_of_ok rfl
  | name name =>
    cases hl : s.values.lookup name with
    | some v =>
      have hstands : s.Stands (.name name) (.value v) := hl
      exact failsBy_of_ok (resolveOperand_eq_ok.mpr ⟨hstands, rfl⟩)
    | none =>
      intro p hp
      rw [resolveOperand, get_bind_apply, hl] at hp
      exact failsBy_throw (h name rfl) p hp

theorem failsBy_resolveOperands {xs : List Source.Operand}
    (h : ∀ n, .name n ∈ xs → P ⟨.undefinedValue n, start⟩) :
    FailsBy P (xs.mapM (resolveOperand start)) s :=
  failsBy_mapM_of_lookup (fun _ _ _ hy => (resolveOperand_eq_ok.mp hy).2) fun _ hx =>
    failsBy_resolveOperand fun n hn => h n (hn ▸ hx)

theorem failsBy_addParam {name : String}
    (h : name ∈ s.valueNames → P ⟨.duplicateValue name, start⟩) :
    FailsBy P (addParam start name) s := by
  have hedit : edit start (Edit.addParam (some name)) s = .ok _ := edit_eq_ok.mpr ⟨_, rfl, rfl⟩
  exact failsBy_bind_of_ok hedit (failsBy_declareValue h)

theorem failsBy_addParams {names : List String} (h : ∀ n,
    (n ∈ names ∧ n ∈ s.valueNames) ∨ List.Duplicate n names → P ⟨.duplicateValue n, start⟩) :
    FailsBy P (names.forM (addParam start)) s := by
  induction names generalizing s with
  | nil => exact failsBy_of_ok (rfl : _ = Except.ok _)
  | cons name names ih =>
    have hname : name ∈ s.valueNames → P ⟨.duplicateValue name, start⟩ := fun hn =>
      h name (.inl ⟨List.mem_cons_self, hn⟩)
    refine (failsBy_addParam hname).bind fun u t ht => ih fun n hn => h n ?_
    obtain ⟨-, g, -, heq⟩ := addParam_eq_ok_iff.mp ht
    obtain ⟨-, rfl⟩ := Prod.mk.inj heq
    obtain ⟨hn, hs⟩ | hn := hn
    · obtain rfl | hs := List.mem_cons.mp hs
      · exact .inr (.cons_mem hn)
      · exact .inl ⟨List.mem_cons_of_mem name hn, hs⟩
    · exact .inr (hn.duplicate_cons name)

/-- A block fails by its label, unless that is new. -/
theorem failsBy_addBlock {block : Source.Block}
    (h : block.label ∈ s.labels → P ⟨.duplicateBlock block.label, block.start⟩) :
    FailsBy P (addBlock block) s := by
  unfold addBlock
  change FailsBy P (if (s.blocks.lookup block.label).isSome = true then _ else _ : Build BlockId) s
  split
  · rename_i hsome
    exact failsBy_throw (h (by_contra fun hno => by simp [isSome_lookup_eq_false.mpr hno] at hsome))
  · have hedit : Edit.addBlock (some block.label) s.function = .ok _ _ := rfl
    exact (failsBy_edit hedit).bind fun b t _ => failsBy_of_ok rfl

/-- A new instruction is created once, gets its first result and is placed for the first time, so none of
the requests for it is refused. -/
theorem failsBy_addInst {labels : List String} {bs : List BlockId} {b : BlockId} (hb : b ∈ bs)
    {inst : Source.Inst} (h : inst.Blamable P) (hs : ValuePass labels bs s) :
    FailsBy P (addInst b inst) s := by
  intro p hp
  have hends := addInst_ends b inst s
  rw [hp] at hends
  cases hends with
  | unknownOpcode hno => exact h.opcode hno
  | undefinedBlock hl => exact h.labels _ hl
  | duplicateValue hn => exact h.result _ hn
  | refused hd hno =>
    obtain ⟨g₁, g₂, g, hg⟩ := exists_inserts hs.sound.composed (hs.has b hb) hd.parent inst.result
    exact absurd hg (hno g₁ g₂ g)

theorem failsBy_addOperands {valueNames : List String} {is : List InstId} {i : InstId} (hi : i ∈ is)
    {inst : Source.Inst} (h : inst.Blamable P) (hs : OperandPass valueNames is s) :
    FailsBy P (addOperands i inst) s := by
  unfold addOperands
  refine (failsBy_resolveOperands h.operands).bind fun operands t ht => ?_
  obtain ⟨-, rfl⟩ := (mapM_eq_ok_iff_of_lookup fun _ _ _ => resolveOperand_eq_ok).mp ht
  obtain ⟨g, hg⟩ : ∃ g, (Request.setOperands i operands).Leads t.function g := ⟨_, hs.has i hi, rfl⟩
  have hset : Edit.setOperands i operands t.function = .ok () g := Request.run_eq_ok_iff.mpr hg
  exact failsBy_edit hset

/-! ## The whole construction -/

/-- The first block has a new label, so one of the others is to blame. -/
theorem failsBy_addBlocks {valueNames : List String} {blocks : List Source.Block}
    (h : ∀ block ∈ blocks.tail, P ⟨.duplicateBlock block.label, block.start⟩)
    (hs : BlockPass valueNames s) (hnone : s.labels = []) :
    FailsBy P (blocks.mapM fun block => return (← addBlock block, block)) s := by
  have hdeclares : ∀ block : Source.Block, Declares Scope.labels (BlockPass valueNames)
      (do return (← addBlock block, block)) _ _ := fun block =>
    (declares_addBlock valueNames block).bind fun b => Declares.pure (b, block)
  cases blocks with
  | nil => exact failsBy_of_ok (mapM_nil_eq_ok.mpr rfl)
  | cons block blocks =>
    have hfirst : FailsBy P (do return (← addBlock block, block)) s :=
      (failsBy_addBlock (by simp [hnone])).bind fun b t _ => failsBy_of_ok rfl
    rw [List.mapM_cons]
    refine hfirst.bind fun p t hp => ?_
    have ht := ((hdeclares block).keeps s p t hs hp).1
    refine (failsBy_mapM (fun block _ => hdeclares block) (fun block hb u _ => ?_) ht).bind
      fun ps u _ => failsBy_of_ok rfl
    exact (failsBy_addBlock fun _ => h block hb).bind fun b t _ => failsBy_of_ok rfl

theorem failsBy_addFunction {source : Source.Function} (h : source.Blamable P) :
    FailsBy P (addFunction source) ⟨.empty source.name, [], []⟩ := by
  unfold addFunction
  refine (failsBy_addParams fun n hn => h.params n ?_).bind fun u s₁ hparams => ?_
  · exact hn.resolve_left fun ⟨_, hnone⟩ => nomatch hnone
  have hs₁ := paramsAdded hparams
  refine (failsBy_addBlocks h.blocks hs₁.pass hs₁.labels).bind fun bs s₂ hblocks => ?_
  have hs₂ := hs₁.blocksAdded hblocks
  have hblamable : ∀ p ∈ bs, ∀ inst ∈ p.2.insts, inst.Blamable P := fun p hp inst hinst =>
    h.insts inst (hs₂.insts ▸ List.mem_flatMap.mpr ⟨p, hp, hinst⟩)
  have hstep : ∀ p ∈ bs, ∀ inst ∈ p.2.insts, Declares Scope.valueNames
      (ValuePass s₂.labels (bs.map (·.1))) (do return (← addInst p.1 inst, inst)) _ _ :=
    fun p hp inst _ => (declares_addInst (List.mem_map.mpr ⟨p, hp, rfl⟩) inst).bind fun i =>
      Declares.pure (i, inst)
  refine (failsBy_mapM (fun p hp => Declares.mapM (hstep p hp)) (fun p hp s hs =>
    failsBy_mapM (hstep p hp) (fun inst hinst s hs => ?_) hs) hs₂.pass).bind fun iss s₃ hinsts => ?_
  · exact (failsBy_addInst (List.mem_map.mpr ⟨p, hp, rfl⟩) (hblamable p hp inst hinst) hs).bind
      fun i t _ => failsBy_of_ok rfl
  · have hs₃ := hs₂.instsAdded hinsts
    refine failsBy_forM (fun p hp => declares_addOperands (List.mem_map.mpr ⟨p, hp, rfl⟩) p.2)
      (fun p hp s hs => failsBy_addOperands (List.mem_map.mpr ⟨p, hp, rfl⟩) ?_ hs) hs₃.pass
    exact h.insts p.2 (hs₃.insts ▸ List.mem_map.mpr ⟨p, hp, rfl⟩)

end Build

namespace Source

variable {P : Problem → Prop} {p : Problem}

theorem Function.problem_of_resolve {source : Function} (h : source.Blamable P)
    (hp : source.resolve = .error p) : P p := by
  unfold resolve at hp
  cases hadd : Build.addFunction source ⟨.empty source.name, [], []⟩ with
  | ok r =>
    rw [hadd] at hp
    cases hp
  | error q =>
    rw [hadd] at hp
    obtain rfl := Except.error.inj (hp : Except.error q = .error p)
    exact Build.failsBy_addFunction h q hadd

/-- **A module is refused for what one of its functions can be blamed for.** -/
theorem problem_of_resolveAll {seen : List String} {sources : List Function}
    (h : ∀ source ∈ sources, source.Blamable P) (hp : resolveAll seen sources = .error p) : P p := by
  induction sources generalizing seen with
  | nil => cases hp
  | cons source sources ih =>
    obtain ⟨hsource, hsources⟩ := List.forall_mem_cons.mp h
    unfold resolveAll at hp
    by_cases hseen : source.name ∈ seen
    · rw [if_pos hseen] at hp
      obtain rfl := Except.error.inj (hp : Except.error _ = .error p)
      exact hsource.name
    · rw [if_neg hseen] at hp
      change (source.resolve >>= fun f => resolveAll (source.name :: seen) sources >>= fun fs =>
        pure (f :: fs)) = .error p at hp
      cases hf : source.resolve with
      | error q =>
        rw [hf] at hp
        obtain rfl := Except.error.inj (hp : Except.error q = .error p)
        exact Function.problem_of_resolve hsource hf
      | ok f =>
        rw [hf] at hp
        cases hrest : resolveAll (source.name :: seen) sources with
        | error q =>
          change (resolveAll (source.name :: seen) sources >>= _) = .error p at hp
          rw [hrest] at hp
          obtain rfl := Except.error.inj (hp : Except.error q = .error p)
          exact ih hsources hrest
        | ok fs =>
          change (resolveAll (source.name :: seen) sources >>= _) = .error p at hp
          rw [hrest] at hp
          cases hp

end Source

/-! ## Texts -/

theorem exists_problem_of_parseModule {text : String} {e : ParseError}
    (h : parseModule text = .error e) : ∃ p,
      (Source.ofText text.toList).bind (Source.resolveAll []) = .error p ∧ e = p.locate text.toList := by
  unfold parseModule parseChars at h
  cases hall : (Source.ofText text.toList).bind (Source.resolveAll []) with
  | ok fs =>
    rw [hall] at h
    cases h
  | error p =>
    rw [hall] at h
    exact ⟨p, rfl, (Except.error.inj h).symm⟩

/-- A text is refused by its grammar, or by the names in its functions. -/
theorem ofText_bind_eq_error {text : List Char} {p : Problem} :
    (Source.ofText text).bind (Source.resolveAll []) = .error p ↔
      ((∃ u, Source.readModule text = .error u p.start) ∧ p.cause = .malformed) ∨
      ∃ sources rest, Source.readModule text = .ok sources rest ∧
        Source.resolveAll [] sources = .error p := by
  unfold Source.ofText
  cases hread : Source.readModule text with
  | error u rest =>
    constructor
    · intro h
      obtain rfl := Except.error.inj h
      exact .inl ⟨⟨u, rfl⟩, rfl⟩
    · rintro (⟨⟨v, hv⟩, hcause⟩ | ⟨sources, rest, hok, -⟩)
      · obtain ⟨cause, start⟩ := p
        obtain ⟨-, rfl⟩ := EStateM.Result.error.inj hv
        obtain rfl : cause = .malformed := hcause
        rfl
      · cases hok
  | ok sources rest => simp [Except.bind]

/-- **No edit is refused while a text is read.** -/
theorem parseModule_ne_refused {text : String} {e : ParseError} (h : parseModule text = .error e)
    (fault : Fault) : e.cause ≠ .refused fault := by
  obtain ⟨p, hp, rfl⟩ := exists_problem_of_parseModule h
  obtain ⟨-, hcause⟩ | ⟨sources, rest, -, hall⟩ := ofText_bind_eq_error.mp hp
  · simp [Problem.locate, hcause]
  · refine Source.problem_of_resolveAll (P := fun p => p.cause ≠ .refused fault)
      (fun source _ => ⟨?_, ?_, ?_, fun inst _ => ⟨?_, ?_, ?_, ?_⟩⟩) hall <;> simp

end SsaPrune
