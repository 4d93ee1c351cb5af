import SsaPrune.Proofs.Elimination.Sweeps
import SsaPrune.Proofs.Function.Refusals

/-!
# Sessions

A session works on one function, from its creation on: edits, instructions that are put together and
placed, and rounds of elimination, in any order. All of them are about entities that exist. Some are
refused; the session goes on with whatever a refused action left.

A function stays *sound* in a session, `Session.sound`: it could have been built by requests that all
succeed, and all that it names exists. So what it says twice stays in agreement, `Session.agrees`.
-/

namespace SsaPrune

namespace Function

/-- A function that was built, in which all that is named exists. -/
structure Sound (f : Function) : Prop where
  built : f.Built
  closed : f.Closed

variable {f g : Function}

theorem Sound.places (h : f.Sound) : f.PlacesAgree := h.built.coherent.places

theorem Sound.definitions (h : f.Sound) : f.DefinitionsAgree := h.built.coherent.definitions

theorem sound_empty (name : String) : (empty name).Sound := ⟨.empty name, closed_empty name⟩

theorem Sound.request {r : Request} (h : f.Sound) (hr : ∀ l ∈ r.lookups, f.Has l)
    (hg : r.run f = .ok () g) : g.Sound :=
  ⟨.request r h.built hg, h.closed.request hr hg⟩

theorem Sound.swept {out : List InstId} (h : f.Sound) (hs : f.Swept g out) : g.Sound :=
  ⟨hs.built, h.closed.thinned hs.thinned⟩

/-- On a sound function a round never fails. -/
theorem Sound.exists_sweep (h : f.Sound) (strategy : Strategy) :
    ∃ out g, Edit.sweep strategy f = .ok out.length g ∧ f.Swept g out ∧ g.Sound := by
  obtain ⟨out, g, hg, hs, -⟩ := Function.exists_sweep h.built h.closed.targetsExist strategy
  exact ⟨out, g, hg, hs, h.swept hs⟩

/-- In a sound function, a request about entities that exist never stumbles. -/
theorem Sound.not_stumbles {r : Request} (h : f.Sound) (hr : ∀ l ∈ r.lookups, f.Has l) :
    ¬r.Stumbles f := by
  intro hs
  cases r with
  | append b i => exact hs.2.2 (hr (.block b) (by simp [Request.lookups]))
  | detach i =>
    obtain ⟨b, hb, hno⟩ := hs
    exact hno (h.places.has_block_of_parent hb)
  | _ => exact hs

end Function

theorem sound_of_parseModule {text : String} {fs : List Function} (h : parseModule text = .ok fs) :
    ∀ f ∈ fs, f.Sound := fun f hf =>
  ⟨(composed_of_parseModule h f hf).built, (composed_of_parseModule h f hf).closed⟩

/-! ## Instructions that are put together -/

namespace Draft

open SsaPrune.Function

variable {f : Function} {d : Draft}

theorem build_eq_error (hd : d.inst.parent.isSome) : d.build f = .error .createAttached f := by
  unfold build
  rw [Run.bind_apply, Edit.create_apply, if_pos hd]

/-- An instruction about entities that exist can be created with its result. -/
theorem exists_build (h : f.Sound) (hd : d.inst.parent = none) (hl : ∀ l ∈ d.inst.lookups, f.Has l) :
    ∃ g, d.build f = .ok f.insts.next g ∧ g.Sound ∧ g.Has (.inst f.insts.next) ∧
      g.parent? f.insts.next = none ∧ ∀ l, f.Has l → g.Has l := by
  obtain ⟨g, hleads⟩ : ∃ g, (Request.create d.inst).Leads f g := ⟨_, hd, rfl⟩
  have hrun := Request.run_eq_ok_iff.mpr hleads
  have hg := h.request (r := .create d.inst) hl hrun
  have hcreate : Edit.create d.inst f = .ok f.insts.next g := by
    rw [Edit.create_apply, hd, hleads.2]
    rfl
  have hinst : g.inst? f.insts.next = some d.inst := by
    rw [hleads.2]
    exact (Arena.get?_push ..).trans (if_pos rfl)
  have hnew : g.Has (.inst f.insts.next) := has_inst_iff.mpr ⟨_, hinst⟩
  have hparent : g.parent? f.insts.next = none := by
    rw [parent?, hinst]
    exact hd
  have hhas : ∀ l, f.Has l → g.Has l := fun _ => Has.request hrun
  unfold build
  rw [Run.bind_of_ok hcreate]
  cases hresult : d.result with
  | none => exact ⟨g, rfl, hg, hnew, hparent, hhas⟩
  | some name =>
    have hnone : g.result? f.insts.next = none := by
      rw [hleads.2]
      exact h.closed.result?_next h.definitions
    obtain ⟨k, hdefine⟩ : ∃ k, (Request.defineResult f.insts.next name).Leads g k := ⟨_, hnone, rfl⟩
    have hrun' := Request.run_eq_ok_iff.mpr hdefine
    have hk := hg.request (by simpa [Request.lookups] using hnew) hrun'
    refine ⟨k, ?_, hk, hnew.request hrun', ?_, fun l hl => (hhas l hl).request hrun'⟩
    · have hresult : Edit.defineResult f.insts.next name g = .ok g.values.next k := by
        rw [Edit.defineResult_apply, hnone, hdefine.2]
        rfl
      exact Run.bind_of_ok hresult
    · rw [hdefine.2]
      exact hparent

/-- It can also be placed at the end of a block that exists. -/
theorem exists_buildIn (h : f.Sound) (hd : d.inst.parent = none) (hl : ∀ l ∈ d.inst.lookups, f.Has l)
    {b : BlockId} (hb : f.Has (.block b)) :
    ∃ g, d.buildIn b f = .ok f.insts.next g ∧ g.Sound := by
  obtain ⟨g, hg, hs, hi, hnone, hhas⟩ := exists_build h hd hl
  obtain ⟨k, happend⟩ : ∃ k, (Request.append b f.insts.next).Leads g k :=
    ⟨_, hi, hnone, hhas _ hb, rfl⟩
  have hrun := Request.run_eq_ok_iff.mpr happend
  have hlookups : ∀ l ∈ (Request.append b f.insts.next).lookups, g.Has l :=
    List.forall_mem_cons.mpr ⟨hhas _ hb, List.forall_mem_singleton.mpr hi⟩
  refine ⟨k, ?_, hs.request hlookups hrun⟩
  unfold buildIn
  rw [Run.bind_of_ok hg]
  have happend : Edit.append b f.insts.next g = .ok () k := hrun
  exact Run.bind_of_ok happend

end Draft

/-! ## Actions -/

/-- What can be asked of a function. -/
inductive Action
  | request (r : Request)
  | build (d : Draft)
  | buildIn (d : Draft) (b : BlockId)
  | sweep (strategy : Strategy)

namespace Action

def run : Action → Edit Unit
  | request r => r.run
  | build d => do let _ ← d.build
  | buildIn d b => do let _ ← d.buildIn b
  | sweep strategy => do let _ ← Edit.sweep strategy

/-- The entities that an action names. -/
def lookups : Action → List Lookup
  | request r => r.lookups
  | build d => d.inst.lookups
  | buildIn d b => .block b :: d.inst.lookups
  | sweep _ => []

/-- **An action about entities that exist keeps a function sound**, or is refused and does nothing. -/
theorem sound_or_refused {f : Function} (c : Action) (h : f.Sound) (hc : ∀ l ∈ c.lookups, f.Has l) :
    (∃ g, c.run f = .ok () g ∧ g.Sound) ∨ ∃ e, c.run f = .error e f := by
  cases c with
  | request r =>
    cases hr : r.run f with
    | ok u g => exact .inl ⟨g, hr, h.request hc hr⟩
    | error e g =>
      obtain ⟨hs, -⟩ | ⟨-, rfl⟩ := Request.eq_of_run_eq_error hr
      · exact absurd hs (h.not_stumbles hc)
      · exact .inr ⟨e, hr⟩
  | build d =>
    cases hd : d.inst.parent with
    | none =>
      obtain ⟨g, hg, hs, -⟩ := Draft.exists_build h hd hc
      exact .inl ⟨g, Run.bind_of_ok hg, hs⟩
    | some p =>
      have hrun := Draft.build_eq_error (f := f) (d := d) (by rw [hd]; rfl)
      exact .inr ⟨_, Run.bind_of_error hrun⟩
  | buildIn d b =>
    obtain ⟨hb, hl⟩ := List.forall_mem_cons.mp hc
    cases hd : d.inst.parent with
    | none =>
      obtain ⟨g, hg, hs⟩ := Draft.exists_buildIn h hd hl hb
      exact .inl ⟨g, Run.bind_of_ok hg, hs⟩
    | some p =>
      have hrun := Draft.build_eq_error (f := f) (d := d) (by rw [hd]; rfl)
      exact .inr ⟨_, Run.bind_of_error (Run.bind_of_error hrun)⟩
  | sweep strategy =>
    obtain ⟨out, g, hg, -, hs⟩ := h.exists_sweep strategy
    exact .inl ⟨g, Run.bind_of_ok hg, hs⟩

end Action

/-! ## Sessions -/

/-- A function on which some actions were taken, each about entities that existed then. -/
inductive Session : Function → Prop
  | new (name : String) : Session (.empty name)
  | action {f : Function} (c : Action) (h : Session f) (hc : ∀ l ∈ c.lookups, f.Has l) :
      Session (c.run.final f)

variable {f : Function}

theorem Session.sound (h : Session f) : f.Sound := by
  induction h with
  | new name => exact Function.sound_empty name
  | action c _ hc ih =>
    obtain ⟨g, hg, hs⟩ | ⟨e, he⟩ := c.sound_or_refused ih hc
    · rwa [Edit.final_of_ok hg]
    · rwa [Edit.final_of_error he]

namespace Function

/-- The instructions that name a block are those that the blocks list. -/
theorem PlacesAgree.attached_perm (h : f.PlacesAgree) :
    f.attached.Perm (f.insts.entities.filter f.isAttached) := by
  have hnodup : f.insts.entities.Nodup :=
    List.Nodup.map (fun _ _ heq => Entity.mk.inj heq) List.nodup_range
  refine (List.perm_ext_iff_of_nodup h.nodup_attached (hnodup.filter _)).mpr fun i => ?_
  rw [List.mem_filter, h.isAttached_iff]
  refine (and_iff_right_of_imp fun hi => ?_).symm
  exact List.mem_map.mpr ⟨i.index, List.mem_range.mpr (f.has_inst.mp (h.has_attached hi)), rfl⟩

end Function

/-- **What a function says twice stays in agreement in a session.**

A block lists exactly the instructions that name it, each once, so the list of all instructions has each
attached one once and counts them; results and parameters agree with the definitions of values; and the
layout has every block once, in order of creation. What is refused does nothing. -/
theorem Session.agrees (h : Session f) :
    ((∀ i b, f.parent? i = some b ↔ i ∈ f.instsOf b) ∧ (∀ b, (f.instsOf b).Nodup) ∧
      (∀ i b c, i ∈ f.instsOf b → i ∈ f.instsOf c → b = c) ∧
      (∀ i, f.attached.count i = if f.isAttached i then 1 else 0) ∧
      f.numInsts = (f.insts.entities.filter f.isAttached).length) ∧
    ((∀ i v, f.result? i = some v ↔ f.definition? v = some (.result i)) ∧
      ∀ k v, f.params[k]? = some v ↔ f.definition? v = some (.param k)) ∧
    f.layout = f.blocks.entities ∧
    ∀ c : Action, (∀ l ∈ c.lookups, f.Has l) → ∀ e g, c.run f = .error e g → g = f := by
  have hs := h.sound
  have hp := hs.places
  refine ⟨⟨hp.parent_iff, hp.nodup, fun i b c => hp.eq_of_mem, fun i => ?_, hp.attached_perm.length_eq⟩,
    ⟨hs.definitions.result_iff, hs.definitions.param_iff⟩, hp.layout, fun c hc e g he => ?_⟩
  · rw [hp.nodup_attached.count]
    exact if_congr hp.isAttached_iff.symm rfl rfl
  · obtain ⟨k, hk, -⟩ | ⟨e', he'⟩ := c.sound_or_refused hs hc
    · cases hk.symm.trans he
    · exact (EStateM.Result.error.inj (he.symm.trans he')).2

/-- A session in which an instruction is placed twice, the second time in vain, taken out by a round and
placed again. -/
theorem Session.agrees_placedAgain : ∃ f, Session f ∧ f.attached = [⟨1⟩] ∧ f.numInsts = 1 ∧
    f.numInsts = (f.insts.entities.filter f.isAttached).length := by
  have hnew : Session (.empty "f") := .new "f"
  have hblock := hnew.action (.request (.addBlock (some "entry"))) (by decide)
  have hcopy := hblock.action
    (.buildIn ⟨{ opcode := .copy, operands := [.imm 1] }, some (some "x")⟩ ⟨0⟩) (by decide)
  have hret := hcopy.action (.buildIn (.ofOpcode .ret) ⟨0⟩) (by decide)
  have hneg := hret.action (.build ⟨{ opcode := .neg, operands := [.value ⟨0⟩] }, some none⟩)
    (by decide)
  have hplaced := hneg.action (.request (.insertBefore ⟨1⟩ ⟨2⟩)) (by decide)
  have hrefused := hplaced.action (.request (.append ⟨0⟩ ⟨2⟩)) (by decide)
  have hswept := hrefused.action (.sweep .useChain) (by decide)
  have hagain := hswept.action (.request (.insertBefore ⟨1⟩ ⟨2⟩)) (by decide +kernel)
  have hlast := hagain.action (.sweep .liveness) (by decide)
  exact ⟨_, hlast, by decide +kernel, by decide +kernel, hlast.agrees.1.2.2.2.2⟩

end SsaPrune
