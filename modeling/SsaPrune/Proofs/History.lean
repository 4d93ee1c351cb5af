import SsaPrune.Proofs.Function.UseOrder
import SsaPrune.Proofs.Sessions

/-!
# The history of the lists of uses

Every action of a session is made of requests, `Action.requests`: a builder creates, defines and places,
and a round of elimination takes out one instruction after the other. So a session is told by the calls
that were made in it, and these determine the lists of uses: who stands in them, how often and in which
order.

The order is followed from request to request (`Requests.usesInOrder`) and from action to action
(`History.usesInOrder`). The main statement reads it off.
-/

namespace SsaPrune

open UseCall

namespace Edit

variable {α β : Type} {x : Edit α} {k : α → Edit β} {f g : Function}

theorem final_bind_of_ok {a : α} (h : x f = .ok a g) : (x >>= k).final f = (k a).final g := by
  rw [final, final, Run.bind_of_ok h]

theorem final_bind_of_error {e : Fault} (h : x f = .error e g) : (x >>= k).final f = g :=
  final_of_error (Run.bind_of_error h)

theorem final_bind_get {k : Function → Edit β} : (get >>= k).final f = (k f).final f := rfl

/-- What an edit answers with does not matter for what it leaves. -/
theorem final_bind_pure (b : α → β) : (x >>= fun a => pure (b a)).final f = x.final f := by
  cases h : x f with
  | ok a g => exact (final_bind_of_ok h).trans (final_of_ok h).symm
  | error e g => rw [final_bind_of_error h, final_of_error h]

end Edit

/-! ## Requests in a row -/

/-- Some requests one after the other, each about entities that exist then, lead from the first function
to the second. Those that are refused are among them. -/
inductive Requests : Function → List Request → Function → Prop
  | nil (f : Function) : Requests f [] f
  | cons {f g : Function} {r : Request} {rs : List Request} (hr : ∀ l ∈ r.lookups, f.Has l)
      (h : Requests (r.run.final f) rs g) : Requests f (r :: rs) g

/-- The calls among some requests that decide who is registered. -/
def Request.useCalls : List Request → Function → List UseCall
  | [], _ => []
  | r :: rs, f => (r.useCall? f).toList ++ useCalls rs (r.run.final f)

namespace Requests

variable {f g k : Function} {rs rs' : List Request} {r : Request} {calls : List UseCall}

theorem one (hr : ∀ l ∈ r.lookups, f.Has l) : Requests f [r] (r.run.final f) := .cons hr (.nil _)

theorem trans (h : Requests f rs g) (h' : Requests g rs' k) : Requests f (rs ++ rs') k := by
  induction h with
  | nil f => exact h'
  | cons hr _ ih => exact .cons hr (ih h')

/-- A refused request is not a call on anyone. -/
theorem useCall?_eq_none {e : Fault} (hs : ¬r.Stumbles f) (he : r.run f = .error e g) :
    r.useCall? f = none := by
  have hno : ∀ h, ¬r.Leads f h := fun h hl => by
    rw [Request.run_eq_ok_iff.mpr hl] at he
    cases he
  cases r with
  | create d => exact if_neg fun hnone => hno _ ⟨hnone, rfl⟩
  | setOperands i operands => exact if_neg fun hi => hno _ ⟨hi, rfl⟩
  | detach i =>
    refine if_neg fun hi => ?_
    obtain ⟨b, hb⟩ := Option.isSome_iff_exists.mp hi
    exact hno _ (.inr ⟨b, hb, not_not.mp fun hblock => hs ⟨b, hb, hblock⟩, rfl⟩)
  | _ => rfl

/-- **What one request, refused or not, does to the order of the lists.** -/
theorem usesInOrder_final (hf : f.Sound) (hr : ∀ l ∈ r.lookups, f.Has l)
    (hu : f.UsesInOrder (registered calls)) :
    (r.run.final f).Sound ∧
      (r.run.final f).UsesInOrder (registered (calls ++ (r.useCall? f).toList)) := by
  cases hrun : r.run f with
  | ok u g =>
    rw [Edit.final_of_ok hrun]
    refine ⟨hf.request hr hrun, ?_⟩
    have hg := hu.request hrun
    cases hcall : r.useCall? f with
    | none => simpa [hcall] using hg
    | some c => simpa [hcall, registered_concat] using hg
  | error e g =>
    obtain ⟨hs, -⟩ | ⟨hs, rfl⟩ := Request.eq_of_run_eq_error hrun
    · exact absurd hs (hf.not_stumbles hr)
    · rw [Edit.final_of_error hrun, useCall?_eq_none hs hrun]
      exact ⟨hf, by simpa using hu⟩

/-- The same for requests in a row. -/
theorem usesInOrder (h : Requests f rs g) (hf : f.Sound) (hu : f.UsesInOrder (registered calls)) :
    g.UsesInOrder (registered (calls ++ Request.useCalls rs f)) := by
  induction h generalizing calls with
  | nil f => simpa [Request.useCalls] using hu
  | cons hr _ ih =>
    obtain ⟨hsound, horder⟩ := usesInOrder_final hf hr hu
    rw [Request.useCalls, ← List.append_assoc]
    exact ih hsound horder

end Requests

/-! ## Actions as requests -/

/-- The requests by which an instruction is put together. -/
def Draft.requests (d : Draft) (f : Function) : List Request :=
  .create d.inst ::
    if d.inst.parent = none then (d.result.map (.defineResult f.insts.next)).toList else []

/-- The requests by which the instructions of a list are taken out that are unused when their turn
comes. -/
def Request.takeOutUnused : List InstId → Function → List Request
  | [], _ => []
  | i :: rest, f =>
    if f.isUnused i then .detach i :: takeOutUnused rest ((Request.detach i).run.final f)
    else takeOutUnused rest f

/-- The requests that an action makes. -/
def Action.requests (f : Function) : Action → List Request
  | request r => [r]
  | build d => d.requests f
  | buildIn d b => d.requests f ++ if d.inst.parent = none then [.append b f.insts.next] else []
  | sweep .liveness => (f.deadInsts f.liveness).map .detach
  | sweep .useChain => Request.takeOutUnused f.attached.reverse f

section

variable {f g : Function} {d : Draft}

theorem has_next_of_create (h : (Request.create d.inst).run f = .ok () g) :
    g.Has (.inst f.insts.next) := by
  rw [Function.has_inst, (Function.sizes_request h).1, Request.adds, if_pos rfl]
  exact Nat.lt_succ_self _

theorem Draft.requests_build (hl : ∀ l ∈ d.inst.lookups, f.Has l) :
    Requests f (d.requests f) (d.build.final f) := by
  have hcreate : (Request.create d.inst).run.final f = (Edit.create d.inst).final f :=
    Edit.final_bind_pure fun _ => ()
  have hone : Requests f [.create d.inst] ((Edit.create d.inst).final f) :=
    hcreate ▸ .one (r := .create d.inst) hl
  unfold requests build
  cases hd : d.inst.parent with
  | some p =>
    have herror : Edit.create d.inst f = .error .createAttached f := by
      rw [Edit.create_apply, hd]
      rfl
    rw [Edit.final_of_error herror] at hone
    rw [Edit.final_bind_of_error herror]
    exact hone
  | none =>
    obtain ⟨g, hg⟩ : ∃ g, Edit.create d.inst f = .ok f.insts.next g := by
      rw [Edit.create_apply, hd]
      exact ⟨_, rfl⟩
    rw [Edit.final_of_ok hg] at hone
    rw [Edit.final_bind_of_ok hg]
    cases d.result with
    | none => exact hone
    | some name =>
      have hnew := has_next_of_create (Run.bind_of_ok hg)
      have hdefine : Requests g [.defineResult f.insts.next name]
          ((Request.defineResult f.insts.next name).run.final g) :=
        .one (by simpa [Request.lookups] using hnew)
      have hlast := hone.trans hdefine
      rw [Request.run, Edit.final_bind_pure] at hlast
      exact (Edit.final_bind_pure (x := Edit.defineResult f.insts.next name) _).symm ▸ hlast

theorem Draft.requests_buildIn (h : f.Sound) (hl : ∀ l ∈ d.inst.lookups, f.Has l) {b : BlockId}
    (hb : f.Has (.block b)) :
    Requests f ((Action.buildIn d b).requests f) ((d.buildIn b).final f) := by
  have hbuild := requests_build (d := d) hl
  rw [Action.requests, buildIn]
  cases hd : d.inst.parent with
  | some p =>
    have herror := build_eq_error (f := f) (d := d) (by rw [hd]; rfl)
    rw [Edit.final_of_error herror] at hbuild
    rw [Edit.final_bind_of_error herror, if_neg (by simp), List.append_nil]
    exact hbuild
  | none =>
    obtain ⟨g, hg, -, hnew, -, hhas⟩ := exists_build h hd hl
    rw [Edit.final_of_ok hg] at hbuild
    rw [Edit.final_bind_of_ok hg, Edit.final_bind_pure, if_pos rfl]
    refine hbuild.trans (.one (r := .append b f.insts.next) ?_)
    exact List.forall_mem_cons.mpr ⟨hhas _ hb, List.forall_mem_singleton.mpr hnew⟩

/-- Taking out an instruction that exists is a request that succeeds. -/
theorem requests_detach (h : f.Built) {i : InstId} (hi : f.Has (.inst i)) :
    ∃ g, Edit.detach i f = .ok () g ∧ g.Built ∧ (∀ l, f.Has l → g.Has l) ∧
      Requests f [.detach i] g := by
  obtain ⟨g, hg, hb, -⟩ := Function.detach_eq_ok h hi
  have hrun : (Request.detach i).run f = .ok () g := hg
  refine ⟨g, hg, hb, fun l => Function.Has.request hrun, ?_⟩
  have hone : Requests f [.detach i] _ := .one (List.forall_mem_singleton.mpr hi)
  rwa [Edit.final_of_ok hrun] at hone

theorem requests_detachAll (h : f.Built) {is : List InstId} (his : ∀ i ∈ is, f.Has (.inst i)) :
    Requests f (is.map .detach) ((Edit.detachAll is).final f) := by
  induction is generalizing f with
  | nil => exact .nil f
  | cons i is ih =>
    obtain ⟨hi, his⟩ := List.forall_mem_cons.mp his
    obtain ⟨g, hg, hb, hhas, hone⟩ := requests_detach h hi
    have hfinal : (Edit.detachAll (i :: is)).final f = (Edit.detachAll is).final g :=
      Edit.final_bind_of_ok hg
    rw [hfinal]
    exact hone.trans (ih hb fun j hj => hhas _ (his j hj))

theorem requests_detachUnused (h : f.Built) {is : List InstId} (his : ∀ i ∈ is, f.Has (.inst i)) :
    Requests f (Request.takeOutUnused is f) ((Edit.detachUnused is).final f) := by
  induction is generalizing f with
  | nil => exact .nil f
  | cons i is ih =>
    obtain ⟨hi, his⟩ := List.forall_mem_cons.mp his
    rw [Request.takeOutUnused, Edit.detachUnused, Edit.final_bind_get]
    by_cases hu : f.isUnused i = true
    · obtain ⟨g, hg, hb, hhas, hone⟩ := requests_detach h hi
      have hdetach : (Request.detach i).run.final f = g := Edit.final_of_ok hg
      rw [if_pos hu, if_pos hu, hdetach, Edit.final_bind_of_ok hg, Edit.final_bind_pure]
      exact hone.trans (ih hb fun j hj => hhas _ (his j hj))
    · rw [if_neg hu, if_neg hu]
      exact ih h his

/-- The requests of an action are about entities that exist, and lead to what the action leaves. -/
theorem Action.requests_run (c : Action) (h : f.Sound) (hc : ∀ l ∈ c.lookups, f.Has l) :
    Requests f (c.requests f) (c.run.final f) := by
  have hattached : ∀ i ∈ f.attached, f.Has (.inst i) := fun i => h.places.has_attached
  cases c with
  | request r => exact .one hc
  | build d =>
    rw [run, Edit.final_bind_pure]
    exact Draft.requests_build hc
  | buildIn d b =>
    obtain ⟨hb, hl⟩ := List.forall_mem_cons.mp hc
    rw [run, Edit.final_bind_pure]
    exact Draft.requests_buildIn h hl hb
  | sweep strategy =>
    rw [run, Edit.final_bind_pure]
    cases strategy with
    | liveness =>
      have hread : Edit.ofReading (·.computeLiveness) f = .ok f.liveness f :=
        Edit.ofReading_of_ok f (Function.computeLiveness_eq_ok h.closed.targetsExist)
      rw [Edit.sweep, Edit.final_bind_of_ok hread]
      have hdead : ∀ i ∈ f.deadInsts f.liveness, f.Has (.inst i) := fun i hi =>
        hattached i (List.mem_of_mem_filter hi)
      exact (Edit.final_bind_pure (x := Edit.detachAll (f.deadInsts f.liveness)) _).symm ▸
        requests_detachAll h.built hdead
    | useChain =>
      exact requests_detachUnused h.built fun i hi => hattached i (List.mem_reverse.mp hi)

end

/-! ## Histories -/

/-- The calls on users that an action makes. -/
def Action.useCalls (f : Function) (c : Action) : List UseCall := Request.useCalls (c.requests f) f

/-- A function after a session, with all the calls on users that were made in it. -/
inductive History : List UseCall → Function → Prop
  | new (name : String) : History [] (.empty name)
  | action {calls : List UseCall} {f : Function} (c : Action) (h : History calls f)
      (hc : ∀ l ∈ c.lookups, f.Has l) : History (calls ++ c.useCalls f) (c.run.final f)

namespace History

variable {calls : List UseCall} {f : Function}

theorem session (h : History calls f) : Session f := by
  induction h with
  | new name => exact .new name
  | action c _ hc ih => exact ih.action c hc

/-- **The lists of uses follow the calls.** -/
theorem usesInOrder (h : History calls f) : f.UsesInOrder (registered calls) := by
  induction h with
  | new name => exact Function.usesInOrder_empty name
  | @action calls f c hist hc ih =>
    have hsound := hist.session.sound
    exact (c.requests_run hsound hc).usesInOrder hsound ih

end History

/-- Whatever is done in a session, it has a history. -/
theorem Session.exists_history {f : Function} (h : Session f) : ∃ calls, History calls f := by
  induction h with
  | new name => exact ⟨[], .new name⟩
  | action c _ hc ih => exact ih.imp' _ fun _ hist => hist.action c hc

/-- **The lists of uses are determined by the history**: the list of a value has no use twice, it holds
the operands that are the value now of the instructions whose latest call registered them, and it is
sorted by that call, then by the position of the operand. -/
theorem usesOf_of_history {calls : List UseCall} {f : Function} (h : History calls f) (v : ValueId) :
    (f.usesOf v).Nodup ∧
    (∀ i k, Use.mk i k ∈ f.usesOf v ↔
      Registered calls i ∧ (f.operands i)[k]? = some (.value v)) ∧
    (f.usesOf v).Pairwise fun u w => since calls w.user < since calls u.user ∨
      u.user = w.user ∧ u.operandIndex < w.operandIndex := by
  have hsorted : (f.usesOf v).Pairwise fun u w => since calls w.user < since calls u.user ∨
      u.user = w.user ∧ u.operandIndex < w.operandIndex := by
    rw [h.usesInOrder v, List.pairwise_flatMap]
    refine ⟨fun i _ => ?_, pairwise_registered.imp fun hlt u hu w hw => ?_⟩
    · refine Function.pairwise_usesBy.imp_of_mem fun hu hw hlt => .inr ⟨?_, hlt⟩
      rw [(Function.mem_usesBy.mp hu).1, (Function.mem_usesBy.mp hw).1]
    · rw [(Function.mem_usesBy.mp hu).1, (Function.mem_usesBy.mp hw).1]
      exact .inl hlt
  refine ⟨hsorted.imp fun hlt heq => ?_, fun i k => ?_, hsorted⟩
  · subst heq
    exact hlt.elim (Nat.lt_irrefl _) fun hk => Nat.lt_irrefl _ hk.2
  · rw [h.usesInOrder v, List.mem_flatMap, ← mem_registered]
    simp only [Function.mem_usesBy]
    constructor
    · rintro ⟨j, hj, rfl, hk⟩
      exact ⟨hj, hk⟩
    · rintro ⟨hi, hk⟩
      exact ⟨i, hi, rfl, hk⟩

/-- Two users of a parameter are registered anew, so they stand behind a third, and a round takes out
one of them. -/
theorem usesOf_of_history_renewed : ∃ calls f, History calls f ∧
    f.usesOf ⟨0⟩ = [⟨⟨2⟩, 0⟩, ⟨⟨1⟩, 0⟩] ∧
    (f.usesOf ⟨0⟩).Pairwise fun u w => since calls w.user < since calls u.user ∨
      u.user = w.user ∧ u.operandIndex < w.operandIndex := by
  have hnew : History [] (.empty "f") := .new "f"
  have hblock := hnew.action (.request (.addBlock (some "entry"))) (by decide)
  have hparam := hblock.action (.request (.addParam (some "a"))) (by decide)
  have hadd := hparam.action
    (.buildIn ⟨{ opcode := .add, operands := [.value ⟨0⟩, .value ⟨0⟩] }, some (some "x")⟩ ⟨0⟩)
    (by decide)
  have hret := hadd.action (.buildIn ⟨{ opcode := .ret, operands := [.value ⟨0⟩] }, none⟩ ⟨0⟩)
    (by decide)
  have hneg := hret.action (.build ⟨{ opcode := .neg, operands := [.value ⟨0⟩] }, some none⟩)
    (by decide)
  have hadd' := hneg.action (.request (.setOperands ⟨0⟩ [.imm 1, .value ⟨0⟩])) (by decide)
  have hout := hadd'.action (.request (.detach ⟨1⟩)) (by decide)
  have hback := hout.action (.request (.append ⟨0⟩ ⟨1⟩)) (by decide)
  have hrefused := hback.action (.request (.insertBefore ⟨0⟩ ⟨1⟩)) (by decide)
  have hret' := hrefused.action (.request (.setOperands ⟨1⟩ [.value ⟨0⟩])) (by decide)
  have hswept := hret'.action (.sweep .useChain) (by decide)
  exact ⟨_, _, hswept, by decide +kernel, (usesOf_of_history hswept ⟨0⟩).2.2⟩

end SsaPrune
