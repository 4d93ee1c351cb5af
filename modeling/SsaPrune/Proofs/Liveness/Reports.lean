import SsaPrune.Liveness.Report
import SsaPrune.Proofs.Runs

/-!
# What a sink receives of a report

A report is a list of calls that are made one after the other, `Function.calls`, and a text is a list of
fragments that are written one after the other, `Function.fragments`. Both are lists of steps of which
each may fail. Either all of them succeed (`Run.Accepts`), or there is a first one that fails, and no
other is made after it (`Run.forM_cases`).

So a sink receives a front part of the calls, and a writer that has a limit keeps a front part of the
text, which ends where the first fragment does not fit. The main statement is `report_stops_first`.
-/

namespace SsaPrune

namespace Run

variable {ε σ α : Type} {k : α → EStateM ε σ Unit} {s t : σ} {xs : List α}

/-- The steps for the elements of a list are made one after the other, all succeed, and lead from one
state to another. -/
inductive Accepts (k : α → EStateM ε σ Unit) : σ → List α → σ → Prop
  | nil (s : σ) : Accepts k s [] s
  | cons {s t u : σ} {x : α} {xs : List α} (hx : k x s = .ok () t) (hxs : Accepts k t xs u) :
      Accepts k s (x :: xs) u

/-- What is done after the steps is done in the state that they lead to. -/
theorem Accepts.forM_append (h : Accepts k s xs t) (ys : List α) :
    (xs ++ ys).forM k s = ys.forM k t := by
  induction h with
  | nil s => rfl
  | cons hx _ ih => exact (bind_of_ok hx).trans ih

theorem Accepts.forM (h : Accepts k s xs t) : xs.forM k s = .ok () t := by
  have hall := h.forM_append []
  rw [List.append_nil] at hall
  exact hall

/-- Steps end with the first one that fails. -/
theorem Accepts.forM_of_error (h : Accepts k s xs t) {x : α} {e : ε} {u : σ} (hx : k x t = .error e u)
    (ys : List α) : (xs ++ x :: ys).forM k s = .error e u := by
  rw [h.forM_append]
  exact bind_of_error hx

/-- Either all steps succeed, or one is the first that fails. -/
theorem forM_cases (k : α → EStateM ε σ Unit) (xs : List α) (s : σ) :
    (∃ t, Accepts k s xs t ∧ xs.forM k s = .ok () t) ∨
    ∃ before x after t e u, xs = before ++ x :: after ∧ Accepts k s before t ∧ k x t = .error e u ∧
      xs.forM k s = .error e u := by
  suffices hsteps : (∃ t, Accepts k s xs t) ∨ ∃ before x after t e u, xs = before ++ x :: after ∧
      Accepts k s before t ∧ k x t = .error e u by
    rcases hsteps with ⟨t, ht⟩ | ⟨before, x, after, t, e, u, rfl, ht, hx⟩
    · exact .inl ⟨t, ht, ht.forM⟩
    · exact .inr ⟨before, x, after, t, e, u, rfl, ht, hx, ht.forM_of_error hx after⟩
  induction xs generalizing s with
  | nil => exact .inl ⟨s, .nil s⟩
  | cons x xs ih =>
    cases hx : k x s with
    | error e u => exact .inr ⟨[], x, xs, s, e, u, rfl, .nil s, hx⟩
    | ok a t =>
      rcases ih t with ⟨u, hu⟩ | ⟨before, y, after, u, e, v, rfl, hu, hy⟩
      · exact .inl ⟨u, .cons hx hu⟩
      · exact .inr ⟨x :: before, y, after, u, e, v, rfl, .cons hx hu, hy⟩

/-- Steps for lists of steps are steps for all of them in turn. -/
theorem forM_flatMap {β : Type} (k : β → EStateM ε σ Unit) (g : α → List β) (xs : List α) :
    (xs.flatMap g).forM k = xs.forM fun x => (g x).forM k := by
  induction xs with
  | nil => rfl
  | cons x xs ih =>
    rw [List.flatMap_cons]
    exact List.forM_append.trans (congrArg (fun r => (g x).forM k >>= fun _ => r) ih)

end Run

open Run

/-! ## The calls of a report -/

/-- A call that a sink receives. -/
inductive SinkCall
  | liveIn (i : InstId) (s : ValueSet)
  | finish
  deriving DecidableEq

/-- The calls of a whole report: one for each instruction in a block that is not a phi, in layout order,
with what is live before it, and a last one. -/
def Function.calls (f : Function) (l : Liveness) : List SinkCall :=
  (f.attached.filter fun i => !f.isPhi i).map (fun i => .liveIn i (l.liveIn i)) ++ [.finish]

namespace Sink

variable {σ : Type} (sink : Sink σ) (f : Function)

/-- What the sink does on a call. -/
def receive : SinkCall → EStateM Stop σ Unit
  | .liveIn i s => sink.liveIn f i s
  | .finish => sink.finish f

/-- Make a step, and put down the call that it is for. -/
def record (c : SinkCall) (m : EStateM Stop σ Unit) : EStateM Stop (List SinkCall × σ) Unit :=
  fun (made, st) =>
    match m st with
    | .ok () st' => .ok () (made ++ [c], st')
    | .error e st' => .error e (made ++ [c], st')

/-- The sink with a record of the calls that it received, be they accepted or not. -/
def recorded : Sink (List SinkCall × σ) where
  liveIn f i s := record (.liveIn i s) (sink.liveIn f i s)
  finish f := record .finish (sink.finish f)

theorem receive_recorded (c : SinkCall) :
    sink.recorded.receive f c = record c (sink.receive f c) := by
  cases c <;> rfl

theorem report_eq (l : Liveness) : f.report l sink = (f.calls l).forM (sink.receive f) := by
  simp [Function.report, Function.calls, Function.reported, receive]

variable {sink f}

theorem accepts_recorded {st st' : σ} {cs : List SinkCall} (h : Accepts (sink.receive f) st cs st')
    (made : List SinkCall) :
    Accepts (sink.recorded.receive f) (made, st) cs (made ++ cs, st') := by
  induction h generalizing made with
  | nil st => simpa using Accepts.nil (k := sink.recorded.receive f) (made, st)
  | @cons st st₁ st' c cs hc _ ih =>
    have hrecorded : sink.recorded.receive f c (made, st) = .ok () (made ++ [c], st₁) := by
      rw [receive_recorded, record, hc]
    simpa using Accepts.cons hrecorded (ih (made ++ [c]))

end Sink

/-! ## The fragments of a text -/

/-- What is written of a text at once, and what is read for it. -/
structure Fragment where
  text : String
  lookups : List Lookup := []
  deriving DecidableEq

/-- The text that some fragments make up. -/
def joined (ps : List Fragment) : String := String.join (ps.map (·.text))

theorem joined_append (ps qs : List Fragment) : joined (ps ++ qs) = joined ps ++ joined qs := by
  rw [joined, List.map_append, String.join_append]
  rfl

/-- The labels of some values, with commas between them. -/
def labelFragments (f : Function) (vs : List ValueId) : List Fragment :=
  (vs.map fun v => ⟨f.valueLabel v, [.value v]⟩).intersperse { text := ", " }

def SinkCall.fragments (f : Function) : SinkCall → List Fragment
  | .liveIn _ s =>
    [{ text := "\x7b" }] ++ labelFragments f s.toList ++ [{ text := "\x7d" }, { text := "\n" }]
  | .finish => [{ text := "\x7b\x7d\n" }]

/-- The fragments of a whole report. -/
def Function.fragments (f : Function) (l : Liveness) : List Fragment :=
  (f.calls l).flatMap (·.fragments f)

section

variable (f : Function) (l : Liveness)

theorem joined_labelFragments (vs : List ValueId) :
    joined (labelFragments f vs) = ", ".intercalate (vs.map f.valueLabel) := by
  induction vs with
  | nil => rfl
  | cons v vs ih =>
    cases vs with
    | nil => simp [labelFragments, joined]
    | cons w vs =>
      have hsplit : labelFragments f (v :: w :: vs) =
          [⟨f.valueLabel v, [.value v]⟩, { text := ", " }] ++ labelFragments f (w :: vs) := rfl
      rw [hsplit, joined_append, ih]
      simp [joined, String.intercalate_cons_cons]

theorem lookups_labelFragments (vs : List ValueId) :
    (labelFragments f vs).flatMap (·.lookups) = vs.map .value := by
  induction vs with
  | nil => rfl
  | cons v vs ih =>
    cases vs with
    | nil => rfl
    | cons w vs => exact congrArg (Lookup.value v :: ·) ih

theorem joined_flatMap {α : Type} (g : α → List Fragment) (xs : List α) :
    joined (xs.flatMap g) = String.join (xs.map fun x => joined (g x)) := by
  induction xs with
  | nil => rfl
  | cons x xs ih => rw [List.flatMap_cons, joined_append, ih, List.map_cons, String.join_cons]

/-- The fragments make up the text of the report. -/
theorem joined_fragments : joined (f.fragments l) = f.livenessText l := by
  have hline : ∀ i s, joined (SinkCall.fragments f (.liveIn i s)) = s.text f ++ "\n" := by
    intro i s
    rw [SinkCall.fragments, joined_append, joined_append, joined_labelFragments, ValueSet.text]
    simp [joined, String.append_assoc]
  rw [Function.fragments, joined_flatMap, Function.calls, List.map_append, List.map_map,
    String.join_append]
  simp only [Function.comp_def, hline]
  simp [Function.livenessText, Function.reported, SinkCall.fragments, joined]

/-- For the fragments the same is read as for the text. -/
theorem lookups_fragments : (f.fragments l).flatMap (·.lookups) = f.livenessLookups l := by
  have hline : ∀ i s, (SinkCall.fragments f (.liveIn i s)).flatMap (·.lookups) = s.lookups := by
    intro i s
    simp [SinkCall.fragments, lookups_labelFragments, ValueSet.lookups]
  rw [Function.fragments, List.flatMap_assoc, Function.calls, List.flatMap_append, List.flatMap_map]
  simp only [hline]
  simp [Function.livenessLookups, Function.reported, SinkCall.fragments]

end

namespace Writer

/-- Write a fragment, when what it needs can be read. -/
def put (f : Function) (p : Fragment) : EStateM Stop Writer Unit := do
  Stop.ofReading (f.require p.lookups)
  write p.text

theorem put_plain (f : Function) (text : String) : put f { text } = write text := rfl

theorem put_label (f : Function) (v : ValueId) :
    put f ⟨f.valueLabel v, [.value v]⟩ = (do write (← Stop.ofReading (f.printValue v))) := by
  unfold put Function.printValue
  cases f.require [.value v] <;> rfl

theorem writeLabels_eq (f : Function) (vs : List ValueId) :
    writeLabels f vs = (labelFragments f vs).forM (put f) := by
  fun_induction writeLabels f vs with
  | case1 => rfl
  | case2 v => exact (put_label f v).symm.trans (bind_pure_unit (x := put f _)).symm
  | case3 v vs hne ih =>
    cases vs with
    | nil => exact absurd rfl hne
    | cons w vs =>
      rw [ih, ← bind_assoc, ← put_label]
      rfl

theorem receive_sink (f : Function) (c : SinkCall) :
    sink.receive f c = (c.fragments f).forM (put f) := by
  cases c with
  | liveIn i s =>
    change (writeSet f s >>= fun _ => write "\n") = _
    simp [writeSet, writeLabels_eq, SinkCall.fragments, put_plain]
  | finish => exact (bind_pure_unit (x := write _)).symm

theorem report_eq (f : Function) (l : Liveness) :
    f.report l sink = (f.fragments l).forM (put f) := by
  rw [Sink.report_eq, Function.fragments, Run.forM_flatMap]
  exact congrArg _ (funext fun c => receive_sink f c)

/-! ### How far a writer gets -/

/-- The text is not larger than the limit allows. -/
def Fits (w : Writer) : Prop := ∀ n ∈ w.limit, w.written.utf8ByteSize ≤ n

/-- The writer with a text behind what it has. -/
def followedBy (w : Writer) (text : String) : Writer := { w with written := w.written ++ text }

/-- How the writing ends in front of `rest`: nothing was left to be written, or the next fragment would
take the text past the limit, or it cannot be read. The text is the one that was written before. -/
inductive Ends (f : Function) (w : Writer) :
    List Fragment → EStateM.Result Stop Writer Unit → Prop
  | all : Ends f w [] (.ok () w)
  | full {next : Fragment} {rest : List Fragment} {n : Nat} (hn : n ∈ w.limit)
      (h : n < (w.written ++ next.text).utf8ByteSize) : Ends f w (next :: rest) (.error .refused w)
  | unreadable {next : Fragment} {rest : List Fragment} {e : Fault}
      (h : f.require next.lookups = .error e) : Ends f w (next :: rest) (.error (.fault e) w)

variable {f : Function} {l : Liveness} {w w' : Writer} {ps : List Fragment} {p : Fragment}

theorem write_apply (text : String) (w : Writer) [Decidable (w.followedBy text).Fits] :
    write text w = if (w.followedBy text).Fits then .ok () (w.followedBy text)
      else .error .refused w := by
  have hfits : w.limit.all (w.written.utf8ByteSize + text.utf8ByteSize ≤ ·) = true ↔
      (w.followedBy text).Fits := by
    simp [Fits, followedBy, Option.all_eq_true]
  unfold write
  simp only [hfits]
  rfl

theorem put_eq_ok : put f p w = .ok () w' ↔
    f.require p.lookups = .ok () ∧ (w.followedBy p.text).Fits ∧ w' = w.followedBy p.text := by
  classical
  unfold put
  cases hread : f.require p.lookups with
  | error e => exact iff_of_false (fun h => by cases h) fun h => by cases h.1
  | ok u =>
    change write p.text w = .ok () w' ↔ _
    rw [write_apply]
    by_cases hfits : (w.followedBy p.text).Fits
    · simp [hfits, eq_comm]
    · simp [hfits]

theorem ends_of_put_eq_error {e : Stop} (h : put f p w = .error e w') (rest : List Fragment) :
    w' = w ∧ Ends f w (p :: rest) (.error e w') := by
  classical
  unfold put at h
  cases hread : f.require p.lookups with
  | error fault =>
    rw [hread] at h
    obtain ⟨rfl, rfl⟩ := EStateM.Result.error.inj h
    exact ⟨rfl, .unreadable hread⟩
  | ok u =>
    rw [hread] at h
    change write p.text w = .error e w' at h
    rw [write_apply] at h
    split at h
    · cases h
    · rename_i hfits
      obtain ⟨rfl, rfl⟩ := EStateM.Result.error.inj h
      obtain ⟨n, hn⟩ := Classical.not_forall.mp hfits
      obtain ⟨hn, hlarge⟩ := Classical.not_imp.mp hn
      exact ⟨rfl, .full hn (Nat.lt_of_not_le hlarge)⟩

/-- What was accepted was read, and stands behind what was written before. -/
theorem accepts_put (h : Accepts (put f) w ps w') : (∀ p ∈ ps, f.require p.lookups = .ok ()) ∧
    w' = w.followedBy (joined ps) ∧ (w.Fits → w'.Fits) := by
  induction h with
  | nil w => exact ⟨by simp, by simp [followedBy, joined], id⟩
  | @cons w w₁ w' p ps hp _ ih =>
    obtain ⟨hread, hfits, rfl⟩ := put_eq_ok.mp hp
    obtain ⟨hreads, rfl, hrest⟩ := ih
    refine ⟨List.forall_mem_cons.mpr ⟨hread, hreads⟩, ?_, fun _ => hrest hfits⟩
    simp [followedBy, joined, String.append_assoc]

/-- The fragments of a report are written one after the other up to the first that cannot be. -/
theorem exists_report_ends (f : Function) (l : Liveness) (w : Writer) (hw : w.Fits) :
    ∃ done rest, f.fragments l = done ++ rest ∧ (∀ p ∈ done, f.require p.lookups = .ok ()) ∧
      (w.followedBy (joined done)).Fits ∧
      Ends f (w.followedBy (joined done)) rest (f.report l sink w) := by
  rw [report_eq]
  rcases Run.forM_cases (put f) (f.fragments l) w with
    ⟨w', haccepts, hrun⟩ | ⟨done, p, rest, w', e, w'', hsplit, haccepts, hp, hrun⟩
  · obtain ⟨hreads, rfl, hfits⟩ := accepts_put haccepts
    refine ⟨f.fragments l, [], by simp, hreads, hfits hw, ?_⟩
    rw [hrun]
    exact .all
  · obtain ⟨hreads, rfl, hfits⟩ := accepts_put haccepts
    obtain ⟨-, hends⟩ := ends_of_put_eq_error hp rest
    refine ⟨done, p :: rest, hsplit, hreads, hfits hw, ?_⟩
    rw [hrun]
    exact hends

/-! ### The whole text -/

/-- A report can be written when every fragment of it can be read. -/
theorem printLiveness_eq_ok {text : String} : f.printLiveness l = .ok text ↔
    (∀ p ∈ f.fragments l, f.require p.lookups = .ok ()) ∧ text = f.livenessText l := by
  have hall : f.require (f.livenessLookups l) = .ok () ↔
      ∀ p ∈ f.fragments l, f.require p.lookups = .ok () := by
    simp only [Function.require_eq_ok_iff, ← lookups_fragments, List.mem_flatMap]
    exact ⟨fun h p hp x hx => h x ⟨p, hp, hx⟩, fun h x ⟨p, hp, hx⟩ => h p hp x hx⟩
  unfold Function.printLiveness
  rw [← hall]
  cases f.require (f.livenessLookups l) with
  | error e => exact iff_of_false (fun h => by cases h) fun h => by cases h.1
  | ok u => exact ⟨fun h => ⟨rfl, (Except.ok.inj h).symm⟩, fun h => congrArg Except.ok h.2.symm⟩

/-- A report is written to its end exactly when its text can be had and fits. -/
theorem report_eq_ok (hw : w.Fits) : f.report l sink w = .ok () w' ↔
    (∃ text, f.printLiveness l = .ok text) ∧ (w.followedBy (f.livenessText l)).Fits ∧
      w' = w.followedBy (f.livenessText l) := by
  obtain ⟨done, rest, hsplit, hdone, hfits, hends⟩ := exists_report_ends f l w hw
  have htext : f.livenessText l = joined done ++ joined rest := by
    rw [← joined_fragments, hsplit, joined_append]
  have hread : (∃ text, f.printLiveness l = .ok text) ↔
      ∀ p ∈ rest, f.require p.lookups = .ok () := by
    simp only [printLiveness_eq_ok, hsplit, List.forall_mem_append, exists_and_left, exists_eq,
      and_true]
    exact and_iff_right hdone
  rw [hread]
  generalize f.report l sink w = r at hends ⊢
  cases hends with
  | all =>
    have hwhole : f.livenessText l = joined done := by simpa [joined] using htext
    simp [hwhole, hfits, eq_comm]
  | @full next rest n hn hlarge =>
    refine iff_of_false (fun h => by cases h) ?_
    rintro ⟨-, hwhole, -⟩
    have hle := hwhole n hn
    simp only [followedBy, htext, joined, List.map_cons, String.join_cons,
      String.utf8ByteSize_append] at hle hlarge
    omega
  | @unreadable next rest e he =>
    refine iff_of_false (fun h => by cases h) ?_
    rintro ⟨hall, -, -⟩
    cases he.symm.trans (hall next List.mem_cons_self)

/-- Without a limit the writer gets the text of the report. -/
theorem printLiveness_eq_ok_iff_report {text : String} : f.printLiveness l = .ok text ↔
    f.report l sink {} = .ok () { written := text } := by
  have hfits : ∀ t, ({ written := t } : Writer).Fits := fun t n hn => by cases hn
  rw [report_eq_ok (hfits "")]
  constructor
  · intro h
    obtain ⟨-, rfl⟩ := printLiveness_eq_ok.mp h
    exact ⟨⟨_, h⟩, hfits _, by simp [followedBy]⟩
  · rintro ⟨⟨text', h⟩, -, heq⟩
    obtain ⟨hread, -⟩ := printLiveness_eq_ok.mp h
    refine printLiveness_eq_ok.mpr ⟨hread, ?_⟩
    simpa [followedBy] using congrArg written heq

/-- With a limit it gets the whole text when the limit is not smaller. -/
theorem exists_report_eq_ok_iff (n : Nat) : (∃ w, f.report l sink ⟨"", some n⟩ = .ok () w) ↔
    ∃ text, f.printLiveness l = .ok text ∧ text.utf8ByteSize ≤ n := by
  have hempty : (⟨"", some n⟩ : Writer).Fits := by simp [Fits]
  simp only [report_eq_ok hempty]
  constructor
  · rintro ⟨w, ⟨text, h⟩, hlimit, -⟩
    obtain ⟨-, rfl⟩ := printLiveness_eq_ok.mp h
    exact ⟨_, h, by simpa [followedBy] using hlimit n rfl⟩
  · rintro ⟨text, h, hle⟩
    obtain ⟨-, rfl⟩ := printLiveness_eq_ok.mp h
    exact ⟨_, ⟨_, h⟩, by simpa [Fits, followedBy] using hle, rfl⟩

end Writer

/-! ## Reports -/

namespace Function

/-- **A report stops at the first call that fails.** Either the sink accepts all calls, or there is a
first one that it refuses; no other is made after it, and the report fails as the call did.

**A text is cut at the first fragment that does not fit.** The text of a report is what a writer without
a limit gets. With a limit, it gets a front part of it: fragments are written up to the first that would
take the text past the limit, or that cannot be read. The report succeeds exactly when there is a text
and the whole of it is within the limit. -/
theorem report_stops_first (f : Function) (l : Liveness) :
    (∀ {σ : Type} (sink : Sink σ) (st : σ),
      (∃ st', Accepts (sink.receive f) st (f.calls l) st' ∧ f.report l sink st = .ok () st' ∧
        f.report l sink.recorded ([], st) = .ok () (f.calls l, st')) ∨
      ∃ before c after st₁ e st', f.calls l = before ++ c :: after ∧
        Accepts (sink.receive f) st before st₁ ∧ sink.receive f c st₁ = .error e st' ∧
        f.report l sink st = .error e st' ∧
        f.report l sink.recorded ([], st) = .error e (before ++ [c], st')) ∧
    (∀ text, f.printLiveness l = .ok text ↔
      f.report l Writer.sink {} = .ok () { written := text }) ∧
    ∀ n, ∃ done rest, f.fragments l = done ++ rest ∧ (joined done).utf8ByteSize ≤ n ∧
      Writer.Ends f ⟨joined done, some n⟩ rest (f.report l Writer.sink ⟨"", some n⟩) ∧
      f.livenessText l = joined done ++ joined rest ∧
      ((∃ w, f.report l Writer.sink ⟨"", some n⟩ = .ok () w) ↔
        ∃ text, f.printLiveness l = .ok text ∧ text.utf8ByteSize ≤ n) := by
  refine ⟨fun {σ} sink st => ?_, fun text => Writer.printLiveness_eq_ok_iff_report, fun n => ?_⟩
  · rw [sink.report_eq, sink.recorded.report_eq]
    rcases Run.forM_cases (sink.receive f) (f.calls l) st with
      ⟨st', haccepts, hrun⟩ | ⟨before, c, after, st₁, e, st', hsplit, haccepts, hc, hrun⟩
    · exact .inl ⟨st', haccepts, hrun, (Sink.accepts_recorded haccepts []).forM⟩
    · refine .inr ⟨before, c, after, st₁, e, st', hsplit, haccepts, hc, hrun, ?_⟩
      have hrecorded : sink.recorded.receive f c ([] ++ before, st₁) = .error e (before ++ [c], st') := by
        rw [Sink.receive_recorded, Sink.record, hc]
        rfl
      rw [hsplit]
      exact (Sink.accepts_recorded haccepts []).forM_of_error hrecorded after
  · have hempty : (⟨"", some n⟩ : Writer).Fits := by simp [Writer.Fits]
    obtain ⟨done, rest, hsplit, -, hfits, hends⟩ := Writer.exists_report_ends f l _ hempty
    have hwritten : (⟨"", some n⟩ : Writer).followedBy (joined done) = ⟨joined done, some n⟩ := by
      simp [Writer.followedBy]
    rw [hwritten] at hfits hends
    refine ⟨done, rest, hsplit, hfits n rfl, hends, ?_, Writer.exists_report_eq_ok_iff n⟩
    rw [← joined_fragments, hsplit, joined_append]

end Function

end SsaPrune
