import Mathlib.Data.List.Forall2
import SsaPrune.Pipeline
import SsaPrune.Proofs.Function.Edits

/-!
# What a run of the pipeline answers

A run on one function succeeds when each step that was asked for does, and its answer is put together
from theirs (`processFunction_eq_ok_iff`); the functions of a module are processed one by one
(`processModule_eq_ok_iff`). A function that the check refuses ends the run with all its violations
(`processFunction_of_violations`).
-/

namespace SsaPrune

namespace Function

variable (f : Function)

/-- The live sets as text. -/
def livenessReport : Except Fault String := do f.printLiveness (← f.computeLiveness)

end Function

namespace Pipeline

variable {config : PipelineConfig} {f g : Function}

theorem ofEdit_eq_ok {α : Type} {e : Edit α} {a : α} : ofEdit e f = .ok a g ↔ e f = .ok a g := by
  unfold ofEdit
  cases e f with
  | ok b k => simp
  | error fault k => simp

theorem ofReading_eq_ok {α : Type} {read : Function → Except Fault α} {a : α} :
    ofEdit (Edit.ofReading read) f = .ok a g ↔ read f = .ok a ∧ f = g := by
  rw [ofEdit_eq_ok, Edit.ofReading, Run.bind_get]
  cases read f with
  | ok b =>
    change EStateM.Result.ok b f = .ok a g ↔ _
    simp
  | error e =>
    change EStateM.Result.error e f = .ok a g ↔ _
    simp

theorem check_eq_ok {u : Unit} : check f = .ok u g ↔ f.validate = .ok [] ∧ f = g := by
  unfold check
  rw [Run.bind_eq_ok]
  simp only [ofReading_eq_ok]
  constructor
  · rintro ⟨violations, k, ⟨hv, rfl⟩, hrest⟩
    cases violations with
    | nil => exact ⟨hv, (EStateM.Result.ok.inj hrest).2⟩
    | cons v vs => cases hrest
  · rintro ⟨hv, rfl⟩
    exact ⟨[], f, ⟨hv, rfl⟩, rfl⟩

/-- The steps one after the other. -/
theorem run_eq (config : PipelineConfig) : run config =
    (if config.validate then check else pure ()) >>= fun _ =>
    (if config.printLiveness then some <$> liveness else pure none) >>= fun liveness =>
    config.elimination.mapM (fun c => ofEdit (Edit.eliminate c)) >>= fun elimination =>
    get >>= fun f => pure { name := f.name, liveness, elimination } := by
  unfold run
  cases config.validate <;> cases config.printLiveness <;> rfl

/-- What a run does with a function, by what each step that is asked for answers. -/
structure Answers (config : PipelineConfig) (f : Function) (p : Processed) : Prop where
  valid : config.validate = true → f.validate = .ok []
  liveness : if config.printLiveness then
      ∃ text, f.livenessReport = .ok text ∧ p.report.liveness = some text
    else p.report.liveness = none
  elimination : match config.elimination with
    | some c => ∃ r, Edit.eliminate c f = .ok r p.function ∧ p.report.elimination = some r
    | none => p.function = f ∧ p.report.elimination = none
  name : p.report.name = p.function.name

theorem liveness_eq_ok {live : Option String} :
    (if config.printLiveness then some <$> liveness else pure none : Pipeline _) f = .ok live g ↔
      (if config.printLiveness then ∃ text, f.livenessReport = .ok text ∧ live = some text
        else live = none) ∧ f = g := by
  cases config.printLiveness with
  | false =>
    change EStateM.Result.ok none f = .ok live g ↔ live = none ∧ f = g
    rw [EStateM.Result.ok.injEq, eq_comm (a := none)]
  | true =>
    change (liveness >>= fun t => pure (some t)) f = .ok live g ↔ (∃ text, _) ∧ f = g
    have hreading : ∀ {text k}, liveness f = .ok text k ↔ f.livenessReport = .ok text ∧ f = k :=
      ofReading_eq_ok
    rw [Run.bind_eq_ok]
    constructor
    · rintro ⟨text, k, htext, hrest⟩
      obtain ⟨hread, rfl⟩ := hreading.mp htext
      obtain ⟨rfl, rfl⟩ := EStateM.Result.ok.inj hrest
      exact ⟨⟨text, hread, rfl⟩, rfl⟩
    · rintro ⟨⟨text, htext, rfl⟩, rfl⟩
      exact ⟨text, f, hreading.mpr ⟨htext, rfl⟩, rfl⟩

theorem elimination_eq_ok {result : Option EliminationResult} :
    config.elimination.mapM (fun c => ofEdit (Edit.eliminate c)) f = .ok result g ↔
      match config.elimination with
      | some c => ∃ r, Edit.eliminate c f = .ok r g ∧ result = some r
      | none => g = f ∧ result = none := by
  cases config.elimination with
  | none =>
    change EStateM.Result.ok none f = .ok result g ↔ g = f ∧ result = none
    rw [EStateM.Result.ok.injEq, eq_comm (a := none), eq_comm (a := f), and_comm]
  | some c =>
    change (ofEdit (Edit.eliminate c) >>= fun r => pure (some r)) f = .ok result g ↔ ∃ r, _
    rw [Run.bind_eq_ok]
    simp only [ofEdit_eq_ok]
    constructor
    · rintro ⟨r, k, hr, hrest⟩
      obtain ⟨rfl, rfl⟩ := EStateM.Result.ok.inj hrest
      exact ⟨r, hr, rfl⟩
    · rintro ⟨r, hr, rfl⟩
      exact ⟨r, g, hr, rfl⟩

end Pipeline

open Pipeline

variable {config : PipelineConfig} {f : Function} {p : Processed}

/-- **A run on one function**, told by its steps. -/
theorem processFunction_eq_ok_iff : processFunction config f = .ok p ↔ Answers config f p := by
  have hcheck : ∀ {g : Function} {u : Unit},
      (if config.validate then check else pure () : Pipeline Unit) f = .ok u g ↔
        (config.validate = true → f.validate = .ok []) ∧ f = g := by
    intro g u
    cases config.validate with
    | true => simp [check_eq_ok]
    | false => simp [pure, EStateM.pure]
  have hrun : processFunction config f = .ok p ↔ run config f = .ok p.report p.function := by
    unfold processFunction
    cases run config f with
    | ok report g =>
      obtain ⟨k, r⟩ := p
      simp [and_comm]
    | error e g => simp
  rw [hrun, run_eq]
  simp only [Run.bind_eq_ok]
  constructor
  · rintro ⟨u, g, hvalid, live, k, hlive, result, l, helim, m, n, hget, hreport⟩
    obtain ⟨hvalidated, rfl⟩ := hcheck.mp hvalid
    obtain ⟨hreported, rfl⟩ := liveness_eq_ok.mp hlive
    obtain ⟨rfl, rfl⟩ := EStateM.Result.ok.inj (hget : EStateM.Result.ok l l = .ok m n)
    obtain ⟨function, report⟩ := p
    obtain ⟨rfl, rfl⟩ := EStateM.Result.ok.inj hreport
    exact ⟨hvalidated, hreported, elimination_eq_ok.mp helim, rfl⟩
  · rintro ⟨hvalid, hlive, helim, hname⟩
    refine ⟨(), f, hcheck.mpr ⟨hvalid, rfl⟩, p.report.liveness, f, liveness_eq_ok.mpr ⟨hlive, rfl⟩,
      p.report.elimination, p.function, elimination_eq_ok.mpr helim, p.function, p.function, rfl, ?_⟩
    rw [← hname]
    rfl

/-- A function that is to be checked and is not well formed is refused with all its violations. -/
theorem processFunction_of_violations (hc : config.validate = true) {vs : List Violation}
    (hv : f.validate = .ok vs) (hne : vs ≠ []) : processFunction config f = .error (.invalid f vs) := by
  have hcheck : check f = .error (.invalid f vs) f := by
    unfold check
    rw [Run.bind_of_ok (ofReading_eq_ok.mpr ⟨hv, rfl⟩)]
    cases vs with
    | nil => exact absurd rfl hne
    | cons v vs => rfl
  have hrun : run config f = .error (.invalid f vs) f := by
    rw [run_eq, hc, if_pos rfl]
    exact Run.bind_of_error hcheck
  rw [processFunction, hrun]

theorem mapM_eq_ok_iff {ε α β : Type} {k : α → Except ε β} {as : List α} {bs : List β} :
    as.mapM k = .ok bs ↔ List.Forall₂ (fun a b => k a = .ok b) as bs := by
  induction as generalizing bs with
  | nil => simp [pure, Except.pure, eq_comm]
  | cons a as ih =>
    rw [List.mapM_cons, List.forall₂_cons_left_iff]
    cases ha : k a with
    | error e => simp [bind, Except.bind]
    | ok b =>
      cases has : as.mapM k with
      | error e =>
        have hnone : ∀ bs, ¬List.Forall₂ (fun a b => k a = .ok b) as bs := fun bs h => by
          rw [← ih, has] at h
          cases h
        simp [bind, Except.bind, hnone]
      | ok cs =>
        have honly : ∀ bs, List.Forall₂ (fun a b => k a = .ok b) as bs ↔ cs = bs := fun bs => by
          rw [← ih, has, Except.ok.injEq]
        simp [bind, Except.bind, pure, Except.pure, honly, eq_comm]

/-- The first that fails decides. -/
theorem mapM_eq_error_iff {ε α β : Type} {k : α → Except ε β} {as : List α} {e : ε} :
    as.mapM k = .error e ↔ ∃ before a after, as = before ++ a :: after ∧
      (∀ x ∈ before, ∃ y, k x = .ok y) ∧ k a = .error e := by
  induction as with
  | nil => simp [pure, Except.pure]
  | cons a as ih =>
    rw [List.mapM_cons]
    cases ha : k a with
    | error e' =>
      change Except.error e' = .error e ↔ _
      constructor
      · intro heq
        obtain rfl := Except.error.inj heq
        exact ⟨[], a, as, rfl, by simp, ha⟩
      · rintro ⟨before, b, after, hlist, hbefore, hb⟩
        cases before with
        | nil =>
          obtain ⟨rfl, rfl⟩ := List.cons.inj hlist
          obtain rfl := Except.error.inj (ha.symm.trans hb)
          rfl
        | cons c before =>
          obtain ⟨rfl, rfl⟩ := List.cons.inj hlist
          obtain ⟨y, hy⟩ := hbefore a List.mem_cons_self
          cases ha.symm.trans hy
    | ok y =>
      have hrest : (as.mapM k >>= fun ys => pure (y :: ys)) = .error e ↔ as.mapM k = .error e := by
        cases as.mapM k with
        | error e' => rfl
        | ok ys => exact iff_of_false (fun h => nomatch h) fun h => nomatch h
      refine hrest.trans (ih.trans ?_)
      constructor
      · rintro ⟨before, b, after, rfl, hbefore, hb⟩
        exact ⟨a :: before, b, after, rfl, List.forall_mem_cons.mpr ⟨⟨y, ha⟩, hbefore⟩, hb⟩
      · rintro ⟨before, b, after, hlist, hbefore, hb⟩
        cases before with
        | nil =>
          obtain ⟨rfl, rfl⟩ := List.cons.inj hlist
          cases ha.symm.trans hb
        | cons c before =>
          obtain ⟨rfl, rfl⟩ := List.cons.inj hlist
          exact ⟨before, b, after, rfl, (List.forall_mem_cons.mp hbefore).2, hb⟩

theorem processModule_eq_ok_iff {text : String} {ps : List Processed} :
    processModule config text = .ok ps ↔
      ∃ fs, parseModule text = .ok fs ∧ List.Forall₂ (Answers config) fs ps := by
  have heach : (fun f p => processFunction config f = .ok p) = Answers config := by
    funext f p
    exact propext processFunction_eq_ok_iff
  unfold processModule
  cases hparse : parseModule text with
  | error e => simp [Except.mapError, bind, Except.bind]
  | ok fs =>
    change fs.mapM (processFunction config) = .ok ps ↔ _
    simp [mapM_eq_ok_iff, heach]

end SsaPrune
