import SsaPrune.Proofs.Elimination.Rounds
import SsaPrune.Proofs.Elimination.Twins
import SsaPrune.Proofs.Pipeline
import SsaPrune.Proofs.Text.Parts

/-!
# What a run leaves can be run again

The text of what a run by the lists of uses leaves can be read, and what is read is accepted. When the
rounds ended by themselves, a second run finds nothing to take out, and writes the same text.

The functions of the second run are not those that the first one left, but twins of them.
-/

namespace SsaPrune

namespace Function

variable {f g : Function}

/-- The live sets of a closed function can be written. -/
theorem exists_livenessReport (hp : f.PlacesAgree) (hc : f.Closed) :
    ∃ text, f.livenessReport = .ok text := by
  have hhas : ∀ l ∈ f.livenessLookups f.liveness, f.Has l := by
    intro l hl
    obtain ⟨i, hi, hl⟩ := List.mem_flatMap.mp hl
    obtain ⟨v, hv, rfl⟩ := List.mem_map.mp hl
    have hattached := List.mem_of_mem_filter hi
    have hexact := hp.isExact_liveness
    rcases (hexact.liveIn_iff i hattached v).mp hv with ⟨hout, -⟩ | ⟨-, huse⟩
    · obtain ⟨j, -, huse⟩ := ((hexact.liveOut_iff i hattached v).mp hout).exists_use hp
      exact hc.has_value huse
    · exact hc.has_value huse
  refine ⟨f.livenessText f.liveness, ?_⟩
  unfold livenessReport
  rw [computeLiveness_eq_ok hc.targetsExist]
  change f.printLiveness f.liveness = _
  unfold printLiveness
  rw [f.require_eq_ok_iff.mpr hhas]
  rfl

end Function

open Pipeline

variable {config : PipelineConfig} {limit : Option Nat} {source part : Source.Function}
  {f g : Function} {p : Processed}

/-- The tree can be read, and what the run left is an accepted function that stands for it. If the
rounds ended by themselves, nothing in it is needless. -/
structure Leaves (limit : Option Nat) (part : Source.Function) (p : Processed) : Prop where
  wellFormed : part.WellFormed
  declared : part.Declared
  spells : p.function.Spells part
  ready : p.function.Ready .useChain
  ended : (∀ r ∈ p.report.elimination, r.reachedFixpoint = true) →
    limit ≠ some 0 ∧ p.function.Needed

/-- A function that was put together is ready when it is accepted. -/
theorem ready_of_resolve (hf : source.resolve = .ok f) (ho : f.Orderly) : f.Ready .useChain := by
  obtain ⟨hcomposed, -⟩ := Source.Function.spells_of_resolve hf
  have hn := Source.Function.named_of_resolve hf
  have hp := hcomposed.built.coherent.places
  exact ⟨hcomposed.built, hcomposed.closed, hcomposed.usesExact hn, ho,
    hn.operandsDefined hcomposed.closed hp, fun hs => by cases hs⟩

/-- What a run leaves of one function. -/
theorem exists_leaves (hvalidate : config.validate = true)
    (helim : config.elimination = some ⟨.useChain, limit⟩) (hw : source.WellFormed)
    (hf : source.resolve = .ok f) (hp : Answers config f p) :
    ∃ part, part.Part source ∧ Leaves limit part p := by
  obtain ⟨hcomposed, hspells⟩ := Source.Function.spells_of_resolve hf
  have hv := (Function.validate_eq_ok_nil_iff hcomposed.built.coherent.places).mp (hp.valid hvalidate)
  have hready := ready_of_resolve hf hv.1
  have hrun := hp.elimination
  rw [helim] at hrun
  obtain ⟨r, hrun, hreport⟩ := hrun
  obtain ⟨r', n, g, hrun', hrounds, hend, -⟩ :=
    Function.rounds_spec hready 0 0 (limit.getD (f.numInsts + 1))
  obtain ⟨rfl, rfl⟩ := EStateM.Result.ok.inj (hrun.symm.trans hrun')
  obtain ⟨hg, out, ht, -⟩ := hready.rounds hrounds
  obtain ⟨part, hpart, hwf, hdeclared, hleft⟩ := ht.exists_declared_part hspells hw
    (Source.Function.resolve_isOk_iff.mp ⟨f, hf⟩) hg.built.coherent hg.defined
  refine ⟨part, hpart, hwf, hdeclared, hleft, hg, fun hfix => ?_⟩
  obtain ⟨hbudget, hneeded, -⟩ := hend (hfix r hreport)
  refine ⟨?_, hneeded⟩
  rintro rfl
  exact Nat.lt_irrefl 0 hbudget

/-- What is read again is a twin of what was left. -/
theorem Leaves.twins (h : Leaves limit part p) (hg : part.resolve = .ok g) :
    Function.Twins part p.function g := by
  obtain ⟨hcomposed, hspells⟩ := Source.Function.spells_of_resolve hg
  exact ⟨h.spells, hspells, h.ready.places, hcomposed.built.coherent.places,
    Source.Function.named_of_resolve hg⟩

theorem Leaves.ready_of_resolve (h : Leaves limit part p) (hg : part.resolve = .ok g) :
    g.Ready .useChain :=
  SsaPrune.ready_of_resolve hg ((h.twins hg).orderly h.ready.orderly)

/-- The second run on one function. -/
theorem Leaves.exists_answers (h : Leaves limit part p) (hg : part.resolve = .ok g)
    (helim : config.elimination = some ⟨.useChain, limit⟩)
    (hfix : ∀ r ∈ p.report.elimination, r.reachedFixpoint = true) :
    ∃ q, Answers config g q ∧ q.function = g ∧ q.report.elimination = some ⟨0, 1, true⟩ := by
  have hready := h.ready_of_resolve hg
  obtain ⟨hlimit, hneeded⟩ := h.ended hfix
  obtain ⟨text, htext⟩ := Function.exists_livenessReport hready.places hready.closed
  have hrun := Function.eliminate_of_needed hready ((h.twins hg).needed hneeded) hlimit
  refine ⟨⟨g, g.name, if config.printLiveness then some text else none, some ⟨0, 1, true⟩⟩,
    ⟨fun _ => hready.validate, ?_, ?_, rfl⟩, rfl, rfl⟩
  · cases config.printLiveness with
    | true => exact ⟨text, htext, rfl⟩
    | false => rfl
  · rw [helim]
    exact ⟨_, hrun, rfl⟩

/-! ## Modules -/

section Modules

variable {sources parts : List Source.Function} {fs gs : List Function} {ps : List Processed}

/-- The trees of what a run leaves, function by function. -/
theorem exists_parts (hvalidate : config.validate = true)
    (helim : config.elimination = some ⟨.useChain, limit⟩)
    (hw : ∀ source ∈ sources, source.WellFormed) (hall : Source.resolveAll [] sources = .ok fs)
    (hp : List.Forall₂ (Answers config) fs ps) :
    ∃ parts, List.Forall₂ Source.Function.Part parts sources ∧
      List.Forall₂ (Leaves limit) parts ps := by
  have hresolve := (Source.forall₂_resolve_of_resolveAll hall).flip
  have hboth := (List.forall₂_and_left _ _).mpr ⟨hw, forall₂_of_common hresolve hp⟩
  refine exists_forall₂_between ?_ hboth
  rintro source p ⟨hw, f, hf, hp⟩
  exact exists_leaves hvalidate helim hw hf hp

/-- No function gets another name, so the parts of a module stand for functions as it did. -/
theorem exists_resolveAll_parts (hall : Source.resolveAll [] sources = .ok fs)
    (hparts : List.Forall₂ Source.Function.Part parts sources)
    (hdeclared : ∀ part ∈ parts, part.Declared) : ∃ gs, Source.resolveAll [] parts = .ok gs := by
  have hnames : sources.map (·.name) = parts.map (·.name) :=
    Function.map_eq_of_forall₂ (fun _ _ hpart => hpart.name.symm) hparts
  have hnodup := (Source.resolveAll_isOk_iff.mp ⟨fs, hall⟩).1
  exact Source.resolveAll_isOk_iff.mpr
    ⟨hnames ▸ hnodup, fun part hpart => ⟨List.not_mem_nil, hdeclared part hpart⟩⟩

/-- The second run on the functions of a module. -/
theorem exists_forall₂_answers (helim : config.elimination = some ⟨.useChain, limit⟩)
    (hleaves : List.Forall₂ (Leaves limit) parts ps) (hall : Source.resolveAll [] parts = .ok gs)
    (hfix : ∀ p ∈ ps, ∀ r ∈ p.report.elimination, r.reachedFixpoint = true) :
    ∃ qs, List.Forall₂ (Answers config) gs qs ∧ qs.map (·.function) = gs ∧
      ∀ q ∈ qs, q.report.elimination = some ⟨0, 1, true⟩ := by
  have hpairs := forall₂_of_common hleaves (Source.forall₂_resolve_of_resolveAll hall)
  obtain ⟨qs, -, hqs⟩ : ∃ qs, List.Forall₂ (fun (_ : Processed) (_ : Processed) => True) qs ps ∧
      List.Forall₂ (fun q g => Answers config g q ∧ q.function = g ∧
        q.report.elimination = some ⟨0, 1, true⟩) qs gs := by
    refine exists_forall₂_between ?_ ((List.forall₂_and_left _ _).mpr ⟨hfix, hpairs⟩)
    rintro p g ⟨hended, part, hp, hg⟩
    obtain ⟨q, hq⟩ := hp.exists_answers hg helim hended
    exact ⟨q, trivial, hq⟩
  have hsame : gs.map id = qs.map (·.function) :=
    Function.map_eq_of_forall₂ (fun _ _ hq => hq.2.1.symm) hqs
  refine ⟨qs, (hqs.imp fun _ _ hq => hq.1).flip, ?_, fun q hq => ?_⟩
  · rw [← hsame, List.map_id]
  · obtain ⟨g, -, -, -, hreport⟩ := exists_mem_of_forall₂ hqs hq
    exact hreport

end Modules

/-- **What a run leaves can be run again.** After a run that checks its functions and eliminates by the
lists of uses, what is left can be written; the text can be read, and what is read is accepted. If the
rounds all ended by themselves, a second run takes out nothing, in one round, and writes the same
text. -/
theorem exists_processModule_written {text : String} {ps : List Processed}
    (hvalidate : config.validate = true) (helim : config.elimination = some ⟨.useChain, limit⟩)
    (h : processModule config text = .ok ps) :
    ∃ written gs, Function.printModule (ps.map (·.function)) = .ok written ∧
      parseModule written = .ok gs ∧ gs.length = ps.length ∧ (∀ g ∈ gs, g.validate = .ok []) ∧
      ((∀ p ∈ ps, ∀ r ∈ p.report.elimination, r.reachedFixpoint = true) →
        ∃ qs, processModule config written = .ok qs ∧
          Function.printModule (qs.map (·.function)) = .ok written ∧
          ∀ q ∈ qs, q.report.elimination = some ⟨0, 1, true⟩) := by
  obtain ⟨fs, hparse, hanswers⟩ := processModule_eq_ok_iff.mp h
  obtain ⟨sources, rest, hread, hall⟩ := parseModule_eq_ok.mp hparse
  obtain ⟨parts, hparts, hleaves⟩ :=
    exists_parts hvalidate helim (Source.wellFormed_of_readModule hread) hall hanswers
  have hpart : ∀ part ∈ parts, ∃ p ∈ ps, Leaves limit part p := fun part =>
    exists_mem_of_forall₂ hleaves
  have hwf : ∀ part ∈ parts, part.WellFormed := fun part hmem => by
    obtain ⟨p, -, hp⟩ := hpart part hmem
    exact hp.wellFormed
  obtain ⟨gs, hgs⟩ := exists_resolveAll_parts hall hparts fun part hmem => by
    obtain ⟨p, -, hp⟩ := hpart part hmem
    exact hp.declared
  obtain ⟨hcomposed, hspells⟩ := Source.spells_of_resolveAll hgs
  have hparse' := parseModule_moduleText hwf hgs
  have hwritten : Function.printModule gs = .ok (Source.moduleText parts) :=
    printModule_of_spells hwf (fun g hg => ⟨(hcomposed g hg).built, (hcomposed g hg).closed⟩) hspells
  have hpairs := forall₂_of_common hleaves (Source.forall₂_resolve_of_resolveAll hgs)
  refine ⟨Source.moduleText parts, gs, ?_, hparse', hpairs.length_eq.symm, ?_, fun hfix => ?_⟩
  · refine printModule_of_spells hwf (fun k hk => ?_) ?_
    · obtain ⟨p, hp, rfl⟩ := List.mem_map.mp hk
      obtain ⟨part, -, hleft⟩ := exists_mem_of_forall₂ hleaves.flip hp
      exact ⟨hleft.ready.built, hleft.ready.closed⟩
    · rw [List.forall₂_map_right_iff]
      exact hleaves.imp fun _ _ hp => hp.spells
  · refine forall_of_forall₂ ?_ hpairs
    rintro p g ⟨part, hp, hg⟩
    exact (hp.ready_of_resolve hg).validate
  · obtain ⟨qs, hqs, hsame, hreports⟩ := exists_forall₂_answers helim hleaves hgs hfix
    exact ⟨qs, processModule_eq_ok_iff.mpr ⟨gs, hparse', hqs⟩, hsame.symm ▸ hwritten, hreports⟩

/-- Two functions, the first with a chain of two dead instructions. -/
def chainModule : String :=
  "func @f(%n) \x7b\n ^a:\n %x = mul %n, 2\n %y = neg %x\n call @g %n\n ret %n\n\x7d\n" ++
    "func @h() \x7b\n %z = copy 1\n ret %z\n\x7d"

/-- From the first function the chain is taken out, from the second one nothing. -/
theorem exists_processModule_written_chain : ∃ ps,
    processModule { elimination := some ⟨.useChain, none⟩ } chainModule = .ok ps ∧
    ps.map (·.report.elimination) = [some ⟨2, 2, true⟩, some ⟨0, 1, true⟩] ∧
    ∃ written gs qs, Function.printModule (ps.map (·.function)) = .ok written ∧
      parseModule written = .ok gs ∧ gs.length = 2 ∧ (∀ g ∈ gs, g.validate = .ok []) ∧
      processModule { elimination := some ⟨.useChain, none⟩ } written = .ok qs ∧
      Function.printModule (qs.map (·.function)) = .ok written ∧
      ∀ q ∈ qs, q.report.elimination = some ⟨0, 1, true⟩ := by
  have hruns : (processModule { elimination := some ⟨.useChain, none⟩ } chainModule).toOption.any
      (fun ps => ps.map (·.report.elimination) = [some ⟨2, 2, true⟩, some ⟨0, 1, true⟩]) = true := by
    decide +kernel
  obtain ⟨ps, hrun, hchecks⟩ := Run.exists_eq_ok_and hruns
  have hreports := of_decide_eq_true hchecks
  have htwo : ps.length = 2 := by simpa using congrArg List.length hreports
  obtain ⟨written, gs, hwritten, hparse, hlen, hvalid, hagain⟩ := exists_processModule_written rfl rfl hrun
  have hfix : ∀ p ∈ ps, ∀ r ∈ p.report.elimination, r.reachedFixpoint = true := by
    intro p hp r hr
    have hmem : p.report.elimination ∈ ps.map (·.report.elimination) := List.mem_map.mpr ⟨p, hp, rfl⟩
    rw [hreports, Option.mem_def.mp hr] at hmem
    rcases List.mem_pair.mp hmem with heq | heq <;> rw [Option.some.inj heq]
  obtain ⟨qs, hqs, hsame, hlast⟩ := hagain hfix
  exact ⟨ps, hrun, hreports, written, gs, qs, hwritten, hparse, hlen.trans htwo, hvalid, hqs, hsame, hlast⟩

end SsaPrune
