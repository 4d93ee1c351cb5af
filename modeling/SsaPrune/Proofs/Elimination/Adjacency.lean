import SsaPrune.Proofs.Liveness.PhiGroups
import SsaPrune.Proofs.Reachability
import SsaPrune.Proofs.Sessions

/-!
# The edges that elimination goes by

The edges of a function are read twice. The solver goes from each terminator to all that it names, once
for each time that it is named, wherever in its block the terminator stands; the graph has the targets of
the last instruction of a block, without repetition, and the sources of a block in another list. In an
orderly function it makes no difference (`Orderly.edgesAgree`).

A round of elimination leaves a function orderly and its edges as they were, although it may leave operands
without a definition. So after any number of rounds the edges still agree and are still those that the
function had at first: `edgesAgree_sweeps`.
-/

namespace SsaPrune

namespace Function

variable {f g : Function} {b c : BlockId} {i phi : InstId}

/-- The blocks that the solver goes on to from the terminators inside a block. -/
def followed (f : Function) (b : BlockId) : List BlockId :=
  ((f.instsOf b).filter f.isTerminator).flatMap f.successors

/-- The solver and the graph see the same edges, and each phi is told of edges that exist. -/
structure EdgesAgree (f : Function) : Prop where
  /-- One loop over the blocks finds both lists of each. -/
  adjacency : ∀ b, f.adjacency.succs.get b = f.succs b ∧ f.adjacency.preds.get b = f.preds b
  /-- What is followed from the terminators of a block are its successors. -/
  followed : ∀ b, (f.followed b).eraseDups = f.succs b
  /-- A terminator has what its successors contribute over the edges from its block. -/
  outOf : ∀ b, ∀ i ∈ f.instsOf b, f.isTerminator i = true → ∀ s : Solver,
    s.outOf f i = ((f.succs b).filterMap f.first?).foldl
      (fun out first => out ∪ s.contribution f first (some b)) ∅
  nodup_succs : ∀ b, (f.succs b).Nodup
  nodup_preds : ∀ b, (f.preds b).Nodup
  mem_succs_iff : ∀ b c, c ∈ f.succs b ↔ b ∈ f.preds c
  /-- The sets of a phi are for edges into its block. -/
  edgeUses : ∀ phi c s, (c, s) ∈ f.edgeUses phi → ∃ b, f.parent? phi = some b ∧ c ∈ f.preds b

/-! ## The edges of an orderly function -/

namespace Orderly

/-- The terminators inside a block are the one that ends it, if there is one. -/
theorem filter_isTerminator (ho : f.Orderly) (b : BlockId) :
    (f.instsOf b).filter f.isTerminator = (f.exit? b).toList := by
  cases hexit : f.exit? b with
  | none =>
    refine List.filter_eq_nil_iff.mpr fun i hi hterm => ?_
    have hsome := (exit?_eq_some_iff (ho.terminatorLast b)).mpr ⟨hi, hterm⟩
    cases hexit.symm.trans hsome
  | some i =>
    obtain ⟨hi, hterm⟩ := (exit?_eq_some_iff (ho.terminatorLast b)).mp hexit
    obtain ⟨pre, post, hlist⟩ := List.append_of_mem hi
    obtain rfl := ho.terminatorLast b pre i post hlist hterm
    have hpre : pre.filter f.isTerminator = [] := by
      refine List.filter_eq_nil_iff.mpr fun j hj hterm' => ?_
      obtain ⟨before, after, rfl⟩ := List.append_of_mem hj
      have hafter := ho.terminatorLast b before j (after ++ [i]) (by simp [hlist]) hterm'
      simp at hafter
    rw [hlist, List.filter_append, hpre, List.filter_cons_of_pos hterm]
    rfl

theorem followed_eq (ho : f.Orderly) (b : BlockId) : f.followed b = f.targets b := by
  rw [followed, ho.filter_isTerminator, targets_eq]
  cases f.exit? b <;> simp

/-- The successors of a block are what its terminator names. -/
theorem mem_succs_iff_mem_successors (ho : f.Orderly) (hi : i ∈ f.instsOf b)
    (hterm : f.isTerminator i = true) : c ∈ f.succs b ↔ c ∈ f.successors i := by
  have hexit := (exit?_eq_some_iff (ho.terminatorLast b)).mpr ⟨hi, hterm⟩
  rw [succs, List.mem_eraseDups, targets_eq, hexit]
  rfl

theorem outOf_eq (ho : f.Orderly) (hp : f.PlacesAgree) (hi : i ∈ f.instsOf b)
    (hterm : f.isTerminator i = true) (s : Solver) :
    s.outOf f i = ((f.succs b).filterMap f.first?).foldl
      (fun out first => out ∪ s.contribution f first (some b)) ∅ := by
  refine ValueSet.ext fun v => ?_
  rw [Solver.mem_outOf, Solver.mem_foldl_union, (hp.parent_iff i b).mpr hi, hterm]
  simp only [true_and, Bool.true_eq_false, false_and, or_false, ValueSet.not_mem_empty, false_or,
    List.mem_filterMap, ho.mem_succs_iff_mem_successors hi hterm]
  constructor
  · rintro ⟨c, hc, j, hj, hv⟩
    exact ⟨j, ⟨c, hc, hj⟩, hv⟩
  · rintro ⟨j, ⟨c, hc, hj⟩, hv⟩
    exact ⟨c, hc, j, hj, hv⟩

/-- A set of a phi is for a block that a phi of its group names. -/
theorem mem_preds_of_mem_edgeUses (ho : f.Orderly) (hp : f.PlacesAgree) {s : ValueSet}
    (h : (c, s) ∈ f.edgeUses phi) : ∃ b, f.parent? phi = some b ∧ c ∈ f.preds b := by
  by_cases hgroup : ∃ b, phi ∈ f.leadingPhis b
  · obtain ⟨b, hphi⟩ := hgroup
    obtain ⟨before, after, hlist⟩ := List.append_of_mem hphi
    have hmem : ∀ {q}, q ∈ f.leadingPhis b → q ∈ f.instsOf b := fun hq => List.takeWhile_subset _ hq
    rw [edgeUses_of_leadingPhis hp hlist] at h
    obtain ⟨q, hq, x, hx⟩ := ((f.collects_usesOfPhis (phi :: after)).block_iff c).mp ⟨s, h⟩
    have hq : q ∈ f.leadingPhis b := by
      rw [hlist]
      exact List.mem_append_right _ hq
    obtain ⟨d, hd⟩ := hp.exists_inst? (hmem hq)
    have hphi' : d.opcode.isPhi = true := by
      rw [← isPhi_of_inst? hd]
      exact List.all_eq_true.mp List.all_takeWhile q hq
    have hc : c ∈ d.phiBlocks := by
      rw [Function.incoming, hd] at hx
      exact (List.of_mem_zip hx).1
    exact ⟨b, (hp.parent_iff phi b).mpr (hmem hphi), ho.incoming b q (hmem hq) d hd hphi' c hc⟩
  · rw [edgeUses_eq_nil fun b hb => hgroup ⟨b, hb⟩] at h
    cases h

/-- **In an orderly function the solver and the graph see the same edges.** -/
theorem edgesAgree (ho : f.Orderly) (hp : f.PlacesAgree) : f.EdgesAgree where
  adjacency b := ⟨hp.succs_adjacency b, hp.preds_adjacency b⟩
  followed b := by rw [ho.followed_eq, succs]
  outOf _ _ hi hterm s := ho.outOf_eq hp hi hterm s
  nodup_succs _ := nodup_eraseDups _
  nodup_preds _ := hp.nodup_layout.filter _
  mem_succs_iff _ _ := Function.mem_succs_iff.trans (mem_preds_iff hp).symm
  edgeUses _ _ _ := ho.mem_preds_of_mem_edgeUses hp

end Orderly

/-! ## Rounds -/

/-- `g` is sound and orderly and has the blocks of `f` with their targets. -/
structure Retraces (f g : Function) : Prop where
  sound : g.Sound
  orderly : g.Orderly
  layout : g.layout = f.layout
  targets : g.targets = f.targets

namespace Retraces

theorem succs (h : f.Retraces g) : g.succs = f.succs := by
  funext b
  rw [Function.succs, h.targets, Function.succs]

theorem preds (h : f.Retraces g) : g.preds = f.preds := preds_congr h.layout h.targets

theorem edgesAgree (h : f.Retraces g) : g.EdgesAgree := h.orderly.edgesAgree h.sound.places

/-- **A round goes on from where the rounds before have come**, by either strategy. -/
theorem exists_sweep (h : f.Retraces g) (strategy : Strategy) :
    ∃ n k, Edit.sweep strategy g = .ok n k ∧ f.Retraces k := by
  obtain ⟨out, k, hk, hs, hsound⟩ := h.sound.exists_sweep strategy
  refine ⟨_, k, hk, hsound, h.orderly.thinned hs.thinned hs.removable, ?_, ?_⟩
  · rw [hs.thinned.layout, h.layout]
  · rw [hs.thinned.targets h.orderly hs.removable, h.targets]

theorem exists_sweeps (h : f.Retraces g) (strategies : List Strategy) :
    ∃ ns k, strategies.mapM Edit.sweep g = .ok ns k ∧ f.Retraces k := by
  induction strategies generalizing g with
  | nil => exact ⟨[], g, rfl, h⟩
  | cons strategy rest ih =>
    obtain ⟨n, k, hk, hfk⟩ := h.exists_sweep strategy
    obtain ⟨ns, l, hl, hfl⟩ := ih hfk
    refine ⟨n :: ns, l, ?_, hfl⟩
    rw [List.mapM_cons, Run.bind_of_ok hk, Run.bind_of_ok hl]
    rfl

end Retraces

/-- **The solver and the graph see the same edges in every round.**

After rounds of either strategy on a function that was read and accepted, which all succeed, the edges
agree and are those of before. The function that is left need not be accepted any more. -/
theorem edgesAgree_sweeps {text : String} {fs : List Function} (hparse : parseModule text = .ok fs)
    (hf : f ∈ fs) (hv : f.validate = .ok []) (strategies : List Strategy) :
    ∃ ns g, strategies.mapM Edit.sweep f = .ok ns g ∧ g.EdgesAgree ∧
      g.succs = f.succs ∧ g.preds = f.preds := by
  have hsound := sound_of_parseModule hparse f hf
  have ho := ((validate_eq_ok_nil_iff hsound.places).mp hv).1
  have hstart : f.Retraces f := ⟨hsound, ho, rfl, rfl⟩
  obtain ⟨ns, g, hg, hfg⟩ := hstart.exists_sweeps strategies
  exact ⟨ns, g, hg, hfg.edgesAgree, hfg.succs, hfg.preds⟩

/-- A loop with a group of phis and an edge that is named twice. Behind it stands a block that is not
reached; `%d` is used only there, and so is not live. -/
def forsaken : String :=
  "func @f(%n) \x7b\n ^a:\n %d = copy 1\n br [^b]\n ^b:\n %i = phi [0, ^a], [%j, ^b]\n" ++
    " %k = phi [%n, ^a], [%i, ^b]\n %j = add %i, %k\n %e = mul %j, 2\n condbr %j [^b, ^b]\n" ++
    " ^c:\n call @g %d\n ret\n\x7d"

/-- The first round takes `%d` out, so what is left is not accepted. -/
theorem edgesAgree_sweeps_forsaken : ∃ f, parseModule forsaken = .ok [f] ∧ f.validate = .ok [] ∧
    ∃ ns g, [.liveness, .useChain, .liveness].mapM Edit.sweep f = .ok ns g ∧
      g.validate ≠ .ok [] ∧ g.EdgesAgree ∧ g.succs = f.succs ∧ g.preds = f.preds := by
  have hruns : Run.yieldsOne (parseModule forsaken) (fun f =>
      f.validate = .ok [] ∧ Run.succeeds ([.liveness, .useChain, .liveness].mapM Edit.sweep f)
        (fun g => g.validate ≠ .ok []) = true) = true := by
    decide +kernel
  obtain ⟨f, hparse, hchecks⟩ := Run.exists_of_yieldsOne hruns
  obtain ⟨hv, hsweeps⟩ := of_decide_eq_true hchecks
  obtain ⟨ns, g, hg, hinvalid⟩ := Run.exists_of_succeeds hsweeps
  obtain ⟨ns', g', hg', hagree⟩ := edgesAgree_sweeps hparse (by simp) hv [.liveness, .useChain, .liveness]
  obtain ⟨rfl, rfl⟩ := EStateM.Result.ok.inj (hg.symm.trans hg')
  exact ⟨f, hparse, hv, ns, g, hg, of_decide_eq_true hinvalid, hagree⟩

end Function

end SsaPrune
