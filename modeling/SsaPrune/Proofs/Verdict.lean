import SsaPrune.Proofs.Elimination.Rerun
import SsaPrune.Proofs.Sessions
import SsaPrune.Proofs.Text.Failures

/-!
# Every run ends with a verdict

The functions of a text are sound, and all steps of a run keep them so: what the validator, the solver,
the report, the elimination and the printer read exists. So a run fails for two reasons only, which do
not depend on what is done after the check: the text cannot be read, or a function that is to be checked
is not well formed (`processModule_verdict`).
-/

namespace SsaPrune

namespace Function

variable {f g : Function} {b : BlockId} {i : InstId} {d : Instruction}

/-! ## What the validator reads -/

theorem Coherent.has_instLookups_of_mem (h : f.Coherent) (hc : f.Closed) (hi : i ∈ f.instsOf b) :
    ∀ l ∈ f.instLookups i, f.Has l :=
  h.has_instLookups hc (has_inst_of_parent ((h.places.parent_iff i b).mpr hi))

/-- What is said of the place and the shape of an instruction is about entities that exist. -/
theorem Coherent.has_lookups_of_violation (h : f.Coherent) (hc : f.Closed) (hi : i ∈ f.instsOf b)
    (hd : f.inst? i = some d) {afterOther isLast : Bool} {v : Violation}
    (hv : v ∈ f.placeViolations b afterOther isLast i d ++ f.shapeViolations i d) :
    ∀ l ∈ v.lookups f, f.Has l := by
  have hinst := h.has_instLookups_of_mem hc hi
  have hboth : ∀ l ∈ Lookup.block b :: f.instLookups i, f.Has l :=
    List.forall_mem_cons.mpr ⟨has_block_of_mem_instsOf hi, hinst⟩
  rcases List.mem_append.mp hv with hv | hv
  · unfold placeViolations at hv
    rcases List.mem_append.mp hv with hv | hv
    · split at hv
      · rw [List.mem_singleton.mp hv]
        exact hboth
      · cases hv
    · split at hv
      · rcases List.mem_append.mp hv with hv | hv
        · split at hv
          · rw [List.mem_singleton.mp hv]
            exact hboth
          · cases hv
        · obtain ⟨c, hmem, rfl⟩ := List.mem_map.mp hv
          have hphi := hc.has_block hd (List.mem_append_right _ (List.mem_of_mem_filter hmem))
          refine List.forall_mem_cons.mpr ⟨has_block_of_mem_instsOf hi, ?_⟩
          exact List.forall_mem_append.mpr ⟨hinst, List.forall_mem_singleton.mpr hphi⟩
      · cases hv
  · obtain ⟨flaw, -, rfl⟩ := List.mem_map.mp hv
    exact hinst

theorem Coherent.has_definitionLookups (h : f.Coherent) (hc : f.Closed) (hi : i ∈ f.instsOf b)
    (hd : f.inst? i = some d) : ∀ l ∈ f.definitionLookups i d, f.Has l := by
  intro l hl
  obtain ⟨⟨v, k⟩, hk, hl⟩ := List.mem_flatMap.mp hl
  have hv : f.Has (.value v) := by
    have hmem := List.mem_of_getElem? (mem_positionedValues.mp hk)
    refine hc.has_value (i := i) ((f.mem_valueOperands i).mpr ?_)
    rwa [operands_of_inst? hd]
  rcases List.mem_append.mp hl with hl | hl
  · rcases List.mem_cons.mp hl with rfl | hl
    · exact hv
    · split at hl
      · rename_i j hdef
        rw [List.mem_singleton.mp hl]
        exact hc.definition v j hdef
      · cases hl
  · split at hl
    · rcases List.mem_append.mp hl with hl | hl
      · exact h.has_instLookups_of_mem hc hi l hl
      · rwa [List.mem_singleton.mp hl]
    · cases hl

/-- Everything that the validator reads exists. -/
theorem Coherent.has_violationLookups (h : f.Coherent) (hc : f.Closed) :
    ∀ l ∈ f.violationLookups, f.Has l := by
  intro l hl
  obtain ⟨b, hb, hl⟩ := List.mem_flatMap.mp hl
  rcases List.mem_append.mp hl with hl | hl
  · rw [mem_overInsts fun i => h.places.exists_inst?] at hl
    obtain ⟨pre, i, post, d, hlist, hd, hl⟩ := hl
    have hi : i ∈ f.instsOf b := by simp [hlist]
    rcases List.mem_append.mp hl with hl | hl
    · obtain ⟨v, hv, hl⟩ := List.mem_flatMap.mp hl
      exact h.has_lookups_of_violation hc hi hd hv l hl
    · exact h.has_definitionLookups hc hi hd l hl
  · obtain ⟨v, hv, hl⟩ := List.mem_flatMap.mp hl
    unfold endViolations at hv
    split at hv
    · obtain rfl := List.mem_singleton.mp hv
      rw [List.mem_singleton.mp hl]
      exact h.places.mem_layout_iff.mp hb
    · cases hv

theorem Coherent.validate_eq_ok (h : f.Coherent) (hc : f.Closed) :
    f.validate = .ok f.violations := by
  unfold validate
  rw [f.require_eq_ok_iff.mpr (h.has_violationLookups hc)]
  rfl

theorem Sound.validate_eq_ok (h : f.Sound) : f.validate = .ok f.violations :=
  h.built.coherent.validate_eq_ok h.closed

/-! ## Elimination -/

/-- **Elimination never fails on a sound function**, and ends by itself when it has no limit. -/
theorem Sound.exists_eliminate (h : f.Sound) (config : EliminationConfig) :
    ∃ r g, Edit.eliminate config f = .ok r g ∧ g.Sound ∧
      (config.maxRounds = none → r.reachedFixpoint = true) := by
  obtain ⟨r, -, g, hg, -, hs, -, -, hend⟩ :=
    eliminate_keeps config (fun _ hk => hk.exists_sweep config.strategy) h.built h
  exact ⟨r, g, hg, hs, hend⟩

/-! ## No step fails -/

/-- Every entity that is stored exists, and an instruction stands in the block that it names, once. -/
structure InRange (f : Function) : Prop where
  layout : ∀ b ∈ f.layout, f.Has (.block b)
  parent_iff : ∀ i b, f.parent? i = some b ↔ i ∈ f.instsOf b
  nodup : f.attached.Nodup
  parent : ∀ i b, f.parent? i = some b → f.Has (.inst i) ∧ f.Has (.block b)
  inst : ∀ i d, f.inst? i = some d → ∀ l ∈ d.lookups, f.Has l
  result : ∀ i v, f.result? i = some v → f.Has (.inst i) ∧ f.Has (.value v)
  param : ∀ v ∈ f.params, f.Has (.value v)
  definition : ∀ v i, f.definition? v = some (.result i) → f.Has (.inst i)

/-- Each step that can be made with the function answers: every reading that it makes succeeds. -/
structure Faultless (f : Function) : Prop where
  inRange : f.InRange
  validator : f.validate = .ok f.violations
  solver : ∃ n, ((Solver.step f)^[n] .initial).phase = .converged ∧
    f.computeLiveness = .ok ((Solver.step f)^[n] .initial).liveness
  report : ∃ text, f.livenessReport = .ok text
  printer : f.print = .ok f.text

theorem Sound.inRange (h : f.Sound) : f.InRange where
  layout _ hb := h.places.mem_layout_iff.mp hb
  parent_iff := h.places.parent_iff
  nodup := h.places.nodup_attached
  parent _ _ hb := ⟨has_inst_of_parent hb, h.places.has_block_of_parent hb⟩
  inst := h.closed.inst
  result i v hv := by
    have hdef := (h.definitions.result_iff i v).mp hv
    exact ⟨h.closed.definition v i hdef, has_value_of_definition hdef⟩
  param v hv := by
    obtain ⟨k, hk⟩ := List.mem_iff_getElem?.mp hv
    exact has_value_of_definition ((h.definitions.param_iff k v).mp hk)
  definition := h.closed.definition

theorem Sound.faultless (h : f.Sound) : f.Faultless where
  inRange := h.inRange
  validator := h.validate_eq_ok
  solver := by
    obtain ⟨n, hn⟩ := Solver.exists_iterate_eq (f := f) .initial f.passBound
    have hfinish : f.finish .initial = (Solver.step f)^[n] .initial := hn
    refine ⟨n, ?_, ?_⟩
    · rw [← hfinish]
      exact (Solver.converged_finish h.places).1
    · rw [← hfinish]
      exact computeLiveness_eq_ok h.closed.targetsExist
  report := exists_livenessReport h.places h.closed
  printer := h.built.print_eq_ok h.closed

end Function

/-! ## Runs -/

open Pipeline

variable {config : PipelineConfig} {text : String} {f : Function}

/-- A run on a sound function succeeds unless the check refuses it. -/
theorem exists_processFunction (h : f.Sound) (hc : config.validate = true → f.validate = .ok []) :
    ∃ p, processFunction config f = .ok p ∧ p.function.Sound := by
  obtain ⟨report, hreport⟩ := Function.exists_livenessReport h.places h.closed
  have hlive : if config.printLiveness then ∃ text, f.livenessReport = .ok text ∧
      (if config.printLiveness then some report else none) = some text
      else (if config.printLiveness then some report else none) = none := by
    cases config.printLiveness with
    | true => exact ⟨report, hreport, rfl⟩
    | false => rfl
  cases helim : config.elimination with
  | none =>
    refine ⟨⟨f, f.name, _, none⟩, processFunction_eq_ok_iff.mpr ⟨hc, hlive, ?_, rfl⟩, h⟩
    rw [helim]
    exact ⟨rfl, rfl⟩
  | some c =>
    obtain ⟨r, g, hg, hs, -⟩ := h.exists_eliminate c
    refine ⟨⟨g, g.name, _, some r⟩, processFunction_eq_ok_iff.mpr ⟨hc, hlive, ?_, rfl⟩, hs⟩
    rw [helim]
    exact ⟨r, hg, rfl⟩

/-- A run on a sound function fails by the check alone. -/
theorem processFunction_eq_error_iff (h : f.Sound) {e : Failure} : processFunction config f = .error e ↔
    config.validate = true ∧ ∃ vs, f.validate = .ok vs ∧ vs ≠ [] ∧ e = .invalid f vs := by
  constructor
  · intro he
    by_cases hc : config.validate = true → f.validate = .ok []
    · obtain ⟨p, hp, -⟩ := exists_processFunction h hc
      cases he.symm.trans hp
    · obtain ⟨hc, hv⟩ := Classical.not_imp.mp hc
      have hne : f.violations ≠ [] := fun hnil => hv (by rw [h.validate_eq_ok, hnil])
      have hrefused := processFunction_of_violations hc h.validate_eq_ok hne
      exact ⟨hc, _, h.validate_eq_ok, hne, Except.error.inj (he.symm.trans hrefused)⟩
  · rintro ⟨hc, vs, hv, hne, rfl⟩
    exact processFunction_of_violations hc hv hne

/-- Why a text is refused: it cannot be read, or a function of it is to be checked and is not well
formed, and those before it are. -/
inductive Rejects (validate : Bool) (text : String) : Failure → Prop
  | parse {e : ParseError} (h : parseModule text = .error e) : Rejects validate text (.parse e)
  | invalid {before after : List Function} {f : Function} {vs : List Violation}
      (hvalidate : validate = true) (h : parseModule text = .ok (before ++ f :: after))
      (hbefore : ∀ g ∈ before, g.validate = .ok []) (hf : f.validate = .ok vs) (hvs : vs ≠ []) :
      Rejects validate text (.invalid f vs)

theorem processModule_eq_error_iff {e : Failure} :
    processModule config text = .error e ↔ Rejects config.validate text e := by
  unfold processModule
  cases hparse : parseModule text with
  | error e' =>
    change Except.error (Failure.parse e') = .error e ↔ _
    constructor
    · intro he
      obtain rfl := Except.error.inj he
      exact .parse hparse
    · rintro (h | ⟨-, h, -⟩)
      · obtain rfl := Except.error.inj (hparse.symm.trans h)
        rfl
      · cases hparse.symm.trans h
  | ok fs =>
    have hsound := sound_of_parseModule hparse
    change fs.mapM (processFunction config) = .error e ↔ _
    rw [mapM_eq_error_iff]
    constructor
    · rintro ⟨before, f, after, rfl, hbefore, hf⟩
      obtain ⟨hc, vs, hv, hne, rfl⟩ := (processFunction_eq_error_iff (hsound f (by simp))).mp hf
      refine .invalid hc hparse (fun g hg => ?_) hv hne
      obtain ⟨p, hp⟩ := hbefore g hg
      exact (processFunction_eq_ok_iff.mp hp).valid hc
    · rintro (h | ⟨hc, h, hbefore, hv, hne⟩)
      · cases hparse.symm.trans h
      · obtain rfl := Except.ok.inj (hparse.symm.trans h)
        refine ⟨_, _, _, rfl, fun g hg => ?_, processFunction_of_violations hc hv hne⟩
        have hvalid : config.validate = true → g.validate = .ok [] := fun _ => hbefore g hg
        obtain ⟨p, hp, -⟩ := exists_processFunction (hsound g (by simp [hg])) hvalid
        exact ⟨p, hp⟩

/-- **Every run ends with a verdict.**

A run fails exactly when the text cannot be read or, if functions are checked, one of them is not well
formed; it says which, and the elimination and the report have no part in it. Nothing else can fail:
no edit is refused while the text is read, every step answers on every function that was read, whatever
it looks like, and on what an elimination leaves of it, and what a run leaves can be written. -/
theorem processModule_verdict (config : PipelineConfig) (text : String) :
    (∀ e, processModule config text = .error e ↔ Rejects config.validate text e) ∧
    (∀ config' : PipelineConfig, config'.validate = config.validate →
      ∀ e, processModule config' text = .error e ↔ processModule config text = .error e) ∧
    (∀ e, parseModule text = .error e → ∀ fault, e.cause ≠ .refused fault) ∧
    (∀ fs, parseModule text = .ok fs → ∀ f ∈ fs, f.Faultless ∧ ∀ c, ∃ r g,
      Edit.eliminate c f = .ok r g ∧ g.Faultless ∧ (c.maxRounds = none → r.reachedFixpoint = true)) ∧
    ∀ ps, processModule config text = .ok ps → (∀ p ∈ ps, p.function.Faultless) ∧
      ∃ written, Function.printModule (ps.map (·.function)) = .ok written := by
  refine ⟨fun e => processModule_eq_error_iff, fun config' hsame e => ?_,
    fun e => parseModule_ne_refused, fun fs hparse f hf => ?_, fun ps hps => ?_⟩
  · rw [processModule_eq_error_iff, processModule_eq_error_iff, hsame]
  · have hs := sound_of_parseModule hparse f hf
    refine ⟨hs.faultless, fun c => ?_⟩
    obtain ⟨r, g, hg, hgs, hend⟩ := hs.exists_eliminate c
    exact ⟨r, g, hg, hgs.faultless, hend⟩
  · obtain ⟨fs, hparse, hanswers⟩ := processModule_eq_ok_iff.mp hps
    have hsound : ∀ p ∈ ps, p.function.Sound := by
      intro p hp
      obtain ⟨f, hf, ha⟩ := exists_mem_of_forall₂ hanswers.flip hp
      obtain ⟨q, hq, hqs⟩ := exists_processFunction (sound_of_parseModule hparse f hf) ha.valid
      obtain rfl := Except.ok.inj (hq.symm.trans (processFunction_eq_ok_iff.mpr ha))
      exact hqs
    refine ⟨fun p hp => (hsound p hp).faultless, _, Function.printModule_eq_ok fun g hg => ?_⟩
    obtain ⟨p, hp, rfl⟩ := List.mem_map.mp hg
    exact ⟨(hsound p hp).built, (hsound p hp).closed⟩

/-- A module of three functions, of which the last two have an instruction after a terminator. -/
def overrun : String :=
  "func @f() \x7b\n ^a:\n ret\n\x7d\nfunc @g(%n) \x7b\n ^a:\n ret\n ret %n\n\x7d\n" ++
    "func @h() \x7b\n ^a:\n ret\n %x = copy 1\n ret\n\x7d\n"

/-- The run ends with what is wrong with the first of them. -/
theorem processModule_verdict_overrun : ∃ f, f.name = "g" ∧
    processModule {} overrun = .error (.invalid f [.misplacedTerminator ⟨0⟩ ⟨0⟩]) := by
  have hruns : (parseModule overrun).toOption.any (fun fs =>
      (fs.head?.any fun f => f.validate = .ok []) && fs.tail.head?.any fun g =>
        g.name = "g" && g.validate = .ok [.misplacedTerminator ⟨0⟩ ⟨0⟩]) = true := by
    decide +kernel
  obtain ⟨fs, hparse, hfs⟩ := Run.exists_eq_ok_and hruns
  simp only [Bool.and_eq_true, Option.any_eq_true, decide_eq_true_iff, List.head?_eq_some_iff] at hfs
  obtain ⟨⟨f, ⟨rest, rfl⟩, hf⟩, g, ⟨after, hrest⟩, hname, hg⟩ := hfs
  obtain rfl : rest = g :: after := hrest
  have hbefore : ∀ k ∈ [f], k.validate = .ok [] := List.forall_mem_singleton.mpr hf
  refine ⟨g, hname, ((processModule_verdict _ _).1 _).mpr ?_⟩
  exact .invalid rfl hparse hbefore hg (by simp)

end SsaPrune
