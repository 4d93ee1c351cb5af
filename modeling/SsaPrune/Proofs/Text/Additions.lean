import SsaPrune.Proofs.Text.Scope

/-!
# What the steps of a construction come to

A construction adds parameters, blocks, instructions and operands one at a time. Each step looks up names
and makes a few requests, and it is said here which, once for each step; everything else about the
construction is told by the requests.

The addition of an instruction has five ways to end (`Ending`): it is added, or one of four things is
wrong. `addInst_ends` is the only place where its body is taken apart. When it succeeds, and with what,
follows since no two ways go together (`addInst_eq_ok_iff`).
-/

namespace SsaPrune

/-! ## Related lists -/

theorem exists_mem_of_forall₂ {α β : Type} {R : α → β → Prop} {as : List α} {bs : List β}
    (h : List.Forall₂ R as bs) {a : α} (ha : a ∈ as) : ∃ b ∈ bs, R a b := by
  induction h with
  | nil => cases ha
  | cons h _ ih =>
    rcases List.mem_cons.mp ha with rfl | ha
    · exact ⟨_, List.mem_cons_self, h⟩
    · obtain ⟨b, hb, hR⟩ := ih ha
      exact ⟨b, List.mem_cons_of_mem _ hb, hR⟩

theorem forall_of_forall₂ {α β : Type} {R : α → β → Prop} {P : β → Prop} (hR : ∀ a b, R a b → P b)
    {as : List α} {bs : List β} (h : List.Forall₂ R as bs) : ∀ b ∈ bs, P b := by
  intro b hb
  obtain ⟨a, -, hab⟩ := exists_mem_of_forall₂ h.flip hb
  exact hR a b hab

/-! ## Names in the tables -/

theorem lookup_eq_none_iff_notMem {k : Kind} {table : List (String × Entity k)} {n : String} :
    table.lookup n = none ↔ n ∉ table.map (·.1) := by
  rw [List.lookup_eq_none_iff]
  simp only [bne_iff_ne, List.mem_map, not_exists, not_and]
  exact ⟨fun h p hp he => h p hp he.symm, fun h p hp he => h p hp he.symm⟩

theorem isSome_lookup_eq_false {k : Kind} {table : List (String × Entity k)} {n : String} :
    (table.lookup n).isSome = false ↔ n ∉ table.map (·.1) := by
  rw [← lookup_eq_none_iff_notMem, Option.isSome_eq_false_iff, Option.isNone_iff_eq_none]

namespace Scope

/-- The names of the values so far. -/
def valueNames (s : Scope) : List String := s.values.map (·.1)

/-- The labels of the blocks so far. -/
def labels (s : Scope) : List String := s.blocks.map (·.1)

/-- The instruction is the written one as it is created: its opcode is known, its labels are those of
blocks, and it has no operands and no place yet. -/
structure Drafts (s : Scope) (inst : Source.Inst) (d : Instruction) : Prop where
  opcode : Opcode.ofName? inst.opcode = some d.opcode
  successors : List.Forall₂ (fun l c => s.blocks.lookup l = some c) inst.arguments.successors d.successors
  phiBlocks : List.Forall₂ (fun l c => s.blocks.lookup l = some c) inst.arguments.incomingLabels d.phiBlocks
  callee : d.callee = inst.callee
  operands : d.operands = []
  parent : d.parent = none

variable {s : Scope} {inst : Source.Inst} {d d' : Instruction}

theorem eq_of_forall₂_lookup {ls : List String} {bs cs : List BlockId}
    (hb : List.Forall₂ (fun l c => s.blocks.lookup l = some c) ls bs)
    (hc : List.Forall₂ (fun l c => s.blocks.lookup l = some c) ls cs) : bs = cs := by
  induction hb generalizing cs with
  | nil =>
    cases hc
    rfl
  | cons hb _ ih =>
    cases hc with
    | cons hc hcs => rw [Option.some.inj (hb.symm.trans hc), ih hcs]

theorem Drafts.unique (h : s.Drafts inst d) (h' : s.Drafts inst d') : d = d' := by
  obtain ⟨hopcode, hsucc, hphi, hcallee, hoperands, hparent⟩ := h
  obtain ⟨hopcode', hsucc', hphi', hcallee', hoperands', hparent'⟩ := h'
  cases d
  cases d'
  obtain rfl := Option.some.inj (hopcode.symm.trans hopcode')
  obtain rfl := eq_of_forall₂_lookup hsucc hsucc'
  obtain rfl := eq_of_forall₂_lookup hphi hphi'
  simp_all

/-- The labels of a draft are found. -/
theorem Drafts.exists_lookup (h : s.Drafts inst d) {l : String}
    (hl : l ∈ inst.arguments.successors ++ inst.arguments.incomingLabels) :
    ∃ c, s.blocks.lookup l = some c := by
  have hall : List.Forall₂ (fun l c => s.blocks.lookup l = some c)
      (inst.arguments.successors ++ inst.arguments.incomingLabels) (d.successors ++ d.phiBlocks) :=
    List.rel_append h.successors h.phiBlocks
  obtain ⟨c, -, hc⟩ := exists_mem_of_forall₂ hall hl
  exact ⟨c, hc⟩

end Scope

namespace Build

variable {s t : Scope} {start : List Char}

/-! ## Parameters, blocks and operands -/

theorem addParam_eq_ok_iff {name : String} {r : Unit × Scope} : addParam start name s = .ok r ↔
    name ∉ s.valueNames ∧ ∃ g, (Request.addParam (some name)).run s.function = .ok () g ∧
      r = ((), ⟨g, (name, s.function.values.next) :: s.values, s.blocks⟩) := by
  obtain ⟨u, t⟩ := r
  unfold addParam Scope.valueNames
  rw [← isSome_lookup_eq_false, bind_eq_ok]
  constructor
  · rintro ⟨v, s', hedit, hdeclare⟩
    obtain ⟨g, hg, rfl⟩ := edit_eq_ok.mp hedit
    obtain ⟨rfl, rfl⟩ := EStateM.Result.ok.inj hg
    obtain ⟨hnew, rfl⟩ := declareValue_eq_ok.mp hdeclare
    exact ⟨hnew, _, rfl, rfl⟩
  · rintro ⟨hnew, g, hg, heq⟩
    obtain ⟨-, rfl⟩ := EStateM.Result.ok.inj hg
    obtain ⟨rfl, rfl⟩ := Prod.mk.inj heq
    exact ⟨_, _, edit_eq_ok.mpr ⟨_, rfl, rfl⟩, declareValue_eq_ok.mpr ⟨hnew, rfl⟩⟩

theorem addBlock_eq_ok_iff {block : Source.Block} {r : BlockId × Scope} :
    addBlock block s = .ok r ↔
      block.label ∉ s.labels ∧ ∃ g, (Request.addBlock (some block.label)).run s.function = .ok () g ∧
        r = (s.function.blocks.next,
          ⟨g, s.values, (block.label, s.function.blocks.next) :: s.blocks⟩) := by
  unfold addBlock Scope.labels
  rw [← isSome_lookup_eq_false]
  change (if (s.blocks.lookup block.label).isSome = true then _ else _ : Build BlockId) s = _ ↔ _
  cases (s.blocks.lookup block.label).isSome with
  | true =>
    simp only [if_true, Bool.true_eq_false, false_and, iff_false]
    exact fun h => nomatch h
  | false =>
    simp only [Bool.false_eq_true, if_false, true_and]
    constructor
    · intro h
      exact ⟨_, rfl, (Except.ok.inj h).symm⟩
    · rintro ⟨g, hg, rfl⟩
      obtain ⟨-, rfl⟩ := EStateM.Result.ok.inj hg
      rfl

theorem addOperands_eq_ok_iff {i : InstId} {inst : Source.Inst} {r : Unit × Scope} :
    addOperands i inst s = .ok r ↔ ∃ operands g,
      List.Forall₂ s.Stands inst.arguments.operands operands ∧
      (Request.setOperands i operands).run s.function = .ok () g ∧
      r = ((), { s with function := g }) := by
  obtain ⟨u, t⟩ := r
  unfold addOperands
  simp only [bind_eq_ok, mapM_eq_ok_iff_of_lookup fun _ _ _ => resolveOperand_eq_ok, edit_eq_ok]
  constructor
  · rintro ⟨operands, _, ⟨hops, rfl⟩, g, hg, rfl⟩
    exact ⟨operands, g, hops, hg, rfl⟩
  · rintro ⟨operands, g, hops, hg, heq⟩
    obtain ⟨-, rfl⟩ := Prod.mk.inj heq
    exact ⟨operands, _, ⟨hops, rfl⟩, g, hg, rfl⟩

/-! ## Instructions -/

/-- The tables after the result of an instruction was declared, if it has one. -/
def declared (s : Scope) (result : Option String) (v : ValueId) (g : Function) : Scope :=
  ⟨g, result.toList.map (·, v) ++ s.values, s.blocks⟩

/-- The requests that define the result of an instruction, if it has one. -/
def resultRequests (i : InstId) (result : Option String) : List Request :=
  result.toList.map fun n => .defineResult i (some n)

theorem run_resultRequests_none {i : InstId} {f g : Function} :
    (resultRequests i none).forM Request.run f = .ok () g ↔ g = f := by
  change EStateM.Result.ok () f = .ok () g ↔ _
  simp [eq_comm]

theorem run_resultRequests_some {i : InstId} {n : String} {f g : Function} :
    (resultRequests i (some n)).forM Request.run f = .ok () g ↔
      (Request.defineResult i (some n)).run f = .ok () g := by
  constructor
  · intro h
    obtain ⟨_, k, hk, hdone⟩ := Run.bind_eq_ok.mp h
    obtain ⟨-, rfl⟩ := EStateM.Result.ok.inj hdone
    exact hk
  · exact fun h => (Run.bind_of_ok h).trans rfl

/-- The requests that add an instruction: it is created, its result is defined, and it is placed. -/
structure Inserts (b : BlockId) (result : Option String) (d : Instruction) (f g₁ g₂ g : Function) :
    Prop where
  create : (Request.create d).run f = .ok () g₁
  define : (resultRequests f.insts.next result).forM Request.run g₁ = .ok () g₂
  append : (Request.append b f.insts.next).run g₂ = .ok () g

theorem Inserts.unique {b : BlockId} {result : Option String} {d : Instruction}
    {f g₁ g₂ g g₁' g₂' g' : Function} (h : Inserts b result d f g₁ g₂ g)
    (h' : Inserts b result d f g₁' g₂' g') : g₁ = g₁' ∧ g₂ = g₂' ∧ g = g' := by
  obtain ⟨-, rfl⟩ := EStateM.Result.ok.inj (h.create.symm.trans h'.create)
  obtain ⟨-, rfl⟩ := EStateM.Result.ok.inj (h.define.symm.trans h'.define)
  obtain ⟨-, rfl⟩ := EStateM.Result.ok.inj (h.append.symm.trans h'.append)
  exact ⟨rfl, rfl, rfl⟩

/-- The ways in which the addition of an instruction ends. -/
inductive Ending (b : BlockId) (inst : Source.Inst) (s : Scope) :
    Except Problem (InstId × Scope) → Prop
  | added {d : Instruction} {g₁ g₂ g : Function} (hd : s.Drafts inst d)
      (hnew : ∀ n ∈ inst.result, n ∉ s.valueNames) (h : Inserts b inst.result d s.function g₁ g₂ g) :
      Ending b inst s (.ok (s.function.insts.next, declared s inst.result g₁.values.next g))
  | unknownOpcode (h : Opcode.ofName? inst.opcode = none) :
      Ending b inst s (.error ⟨.unknownOpcode inst.opcode, inst.start⟩)
  | undefinedBlock {l : String} (hl : l ∈ inst.arguments.successors ++ inst.arguments.incomingLabels)
      (h : s.blocks.lookup l = none) : Ending b inst s (.error ⟨.undefinedBlock l, inst.start⟩)
  | duplicateValue {n : String} (hn : n ∈ inst.result) (h : n ∈ s.valueNames) :
      Ending b inst s (.error ⟨.duplicateValue n, inst.start⟩)
  | refused {d : Instruction} {fault : Fault} (hd : s.Drafts inst d)
      (h : ∀ g₁ g₂ g, ¬Inserts b inst.result d s.function g₁ g₂ g) :
      Ending b inst s (.error ⟨.refused fault, inst.start⟩)

/-- A name is declared unless it has been. -/
theorem declareValue_cases (start : List Char) (name : String) (v : ValueId) (s : Scope) :
    (name ∉ s.valueNames ∧
      declareValue start name v s = .ok ((), { s with values := (name, v) :: s.values })) ∨
    (name ∈ s.valueNames ∧ declareValue start name v s = .error ⟨.duplicateValue name, start⟩) := by
  cases hname : (s.values.lookup name).isSome with
  | false => exact .inl ⟨isSome_lookup_eq_false.mp hname, declareValue_eq_ok.mpr ⟨hname, rfl⟩⟩
  | true =>
    have hmem : name ∈ s.valueNames := by
      by_contra hno
      rw [isSome_lookup_eq_false.mpr hno] at hname
      cases hname
    refine .inr ⟨hmem, ?_⟩
    rw [declareValue, get_bind_apply, hname, if_pos rfl]
    rfl

/-- Either all labels are found, or one that is not is to blame. -/
theorem mapM_resolveBlock_cases (start : List Char) (labels : List String) (s : Scope) :
    (∃ bs, labels.mapM (resolveBlock start) s = .ok (bs, s) ∧
      List.Forall₂ (fun l c => s.blocks.lookup l = some c) labels bs) ∨
    ∃ l ∈ labels, s.blocks.lookup l = none ∧
      labels.mapM (resolveBlock start) s = .error ⟨.undefinedBlock l, start⟩ := by
  induction labels with
  | nil => exact .inl ⟨[], mapM_nil_eq_ok.mpr rfl, .nil⟩
  | cons l labels ih =>
    rw [List.mapM_cons]
    cases hl : s.blocks.lookup l with
    | none =>
      have hnone : resolveBlock start l s = .error ⟨.undefinedBlock l, start⟩ := by
        rw [resolveBlock, get_bind_apply, hl]
        rfl
      exact .inr ⟨l, List.mem_cons_self, hl, bind_of_error hnone⟩
    | some b =>
      rw [bind_of_ok (resolveBlock_eq_ok.mpr ⟨hl, rfl⟩)]
      obtain ⟨bs, hbs, hall⟩ | ⟨m, hm, hnone, herror⟩ := ih
      · exact .inl ⟨b :: bs, bind_of_ok hbs, .cons hl hall⟩
      · exact .inr ⟨m, List.mem_cons_of_mem l hm, hnone, bind_of_error herror⟩

/-- With a result or without one, what is left in the end is to place the instruction. -/
theorem append_ends {b : BlockId} {inst : Source.Inst} {d : Instruction} {g₁ : Function}
    (hd : s.Drafts inst d) (hcreate : (Request.create d).run s.function = .ok () g₁) {g₂ : Function}
    (hdefine : (resultRequests s.function.insts.next inst.result).forM Request.run g₁ = .ok () g₂)
    (hnew : ∀ n ∈ inst.result, n ∉ s.valueNames) :
    Ending b inst s
      ((edit inst.start (Edit.append b s.function.insts.next) >>= fun _ => pure s.function.insts.next)
        (declared s inst.result g₁.values.next g₂)) := by
  cases happend : Edit.append b s.function.insts.next g₂ with
  | ok u g =>
    rw [bind_of_ok (edit_eq_ok.mpr ⟨g, happend, rfl⟩)]
    exact .added hd hnew ⟨hcreate, hdefine, happend⟩
  | error fault g =>
    rw [bind_of_error (edit_eq_error happend)]
    refine .refused hd fun g₁' g₂' g' h => ?_
    obtain ⟨-, rfl⟩ := EStateM.Result.ok.inj (hcreate.symm.trans h.create)
    obtain ⟨-, rfl⟩ := EStateM.Result.ok.inj (hdefine.symm.trans h.define)
    cases happend.symm.trans h.append

/-- **How the addition of an instruction ends.** -/
theorem addInst_ends (b : BlockId) (inst : Source.Inst) (s : Scope) :
    Ending b inst s (addInst b inst s) := by
  unfold addInst
  cases hopcode : Opcode.ofName? inst.opcode with
  | none => exact .unknownOpcode hopcode
  | some opcode =>
    dsimp only
    obtain ⟨successors, hrun, hsucc⟩ | ⟨l, hl, hnone, hrun⟩ :=
      mapM_resolveBlock_cases inst.start inst.arguments.successors s
    case inr =>
      rw [bind_of_error hrun]
      exact .undefinedBlock (List.mem_append_left _ hl) hnone
    rw [bind_of_ok hrun]
    obtain ⟨phiBlocks, hrun, hphi⟩ | ⟨l, hl, hnone, hrun⟩ :=
      mapM_resolveBlock_cases inst.start inst.arguments.incomingLabels s
    case inr =>
      rw [bind_of_error hrun]
      exact .undefinedBlock (List.mem_append_right _ hl) hnone
    rw [bind_of_ok hrun]
    obtain ⟨d, hd, heq⟩ : ∃ d, s.Drafts inst d ∧
        d = { opcode, successors, phiBlocks, callee := inst.callee } :=
      ⟨_, ⟨hopcode, hsucc, hphi, rfl, rfl, rfl⟩, rfl⟩
    rw [← heq]
    obtain ⟨g₁, hcreate⟩ : ∃ g₁, Edit.create d s.function = .ok s.function.insts.next g₁ := by
      rw [Edit.create_apply, hd.parent]
      exact ⟨_, rfl⟩
    have hcreated : (Request.create d).run s.function = .ok () g₁ := Run.bind_of_ok hcreate
    rw [bind_of_ok (edit_eq_ok.mpr ⟨g₁, hcreate, rfl⟩)]
    have hplace := @append_ends s b inst d g₁ hd hcreated
    cases hresult : inst.result with
    | none =>
      rw [hresult] at hplace
      exact hplace rfl (by simp)
    | some name =>
      dsimp only
      cases hdefine : Edit.defineResult s.function.insts.next (some name) g₁ with
      | error fault g =>
        rw [bind_of_error (edit_eq_error hdefine)]
        refine .refused hd fun g₁' g₂' g' h => ?_
        obtain ⟨-, rfl⟩ := EStateM.Result.ok.inj (hcreated.symm.trans h.create)
        have hdefined := h.define
        rw [hresult, run_resultRequests_some] at hdefined
        obtain ⟨v, k, hk, -⟩ := Run.bind_eq_ok.mp hdefined
        cases hdefine.symm.trans hk
      | ok v g₂ =>
        have hdefined : (Request.defineResult s.function.insts.next (some name)).run g₁ = .ok () g₂ :=
          Run.bind_of_ok hdefine
        obtain rfl := Edit.eq_next_of_defineResult _ _ hdefine
        rw [bind_of_ok (edit_eq_ok.mpr ⟨g₂, hdefine, rfl⟩)]
        obtain ⟨hnew, hdeclare⟩ | ⟨hmem, hdeclare⟩ :=
          declareValue_cases inst.start name g₁.values.next { s with function := g₂ }
        · rw [bind_of_ok hdeclare]
          rw [hresult] at hplace
          exact hplace (run_resultRequests_some.mpr hdefined) fun n hn => Option.some.inj hn ▸ hnew
        · rw [bind_of_error hdeclare]
          exact .duplicateValue hresult hmem

/-- When an instruction is added, and with what. -/
theorem addInst_eq_ok_iff {b : BlockId} {inst : Source.Inst} {i : InstId} :
    addInst b inst s = .ok (i, t) ↔ ∃ d g₁ g₂ g, s.Drafts inst d ∧
      (∀ n ∈ inst.result, n ∉ s.valueNames) ∧ Inserts b inst.result d s.function g₁ g₂ g ∧
      i = s.function.insts.next ∧ t = declared s inst.result g₁.values.next g := by
  have hends := addInst_ends b inst s
  constructor
  · intro h
    rw [h] at hends
    cases hends with
    | added hd hnew hinserts => exact ⟨_, _, _, _, hd, hnew, hinserts, rfl, rfl⟩
  · rintro ⟨d, g₁, g₂, g, hd, hnew, h, rfl, rfl⟩
    generalize addInst b inst s = r at hends ⊢
    cases hends with
    | added hd' _ h' =>
      obtain rfl := hd.unique hd'
      obtain ⟨rfl, rfl, rfl⟩ := h.unique h'
      rfl
    | unknownOpcode hno => cases hno.symm.trans hd.opcode
    | undefinedBlock hl hno =>
      obtain ⟨c, hc⟩ := hd.exists_lookup hl
      cases hno.symm.trans hc
    | duplicateValue hn hmem => exact absurd hmem (hnew _ hn)
    | refused hd' hno =>
      obtain rfl := hd.unique hd'
      exact absurd h (hno g₁ g₂ g)

end Build

end SsaPrune
