import SsaPrune.Proofs.Elimination.Rounds
import SsaPrune.Proofs.Sessions

/-!
# Liveness takes out at least what the lists of uses do

A value that is live is used, so where a round by liveness finds nothing dead, nothing is needless. And
rounds by the lists of uses never take out anything from a part of the function in which nothing is
needless (`Dropped.mem_attached_of_needed`). Hence they leave all that rounds by liveness leave, on
every function that was read from a text, whether or not it is well formed.

The converse may fail. By the lists of uses, an instruction stays whose only use is one that control does
not get to, and so do two that use each other, though control does not come back to the first.
-/

namespace SsaPrune.Function

variable {f g h : Function} {o : List InstId}

/-- Where nothing is dead by liveness, nothing is needless. -/
theorem needed_of_deadInsts_eq_nil (hp : f.PlacesAgree) (hdead : f.deadInsts f.liveness = []) :
    f.Needed := by
  intro i hi hneedless
  have hmem : i ∈ f.deadInsts f.liveness := by
    refine (mem_deadInsts hp).mpr ⟨hi, hneedless.1, fun v hv hlive => ?_⟩
    obtain ⟨j, hj, huse⟩ := hlive.exists_use hp
    exact hneedless.2 v hv j hj huse
  rw [hdead] at hmem
  cases hmem

/-- Nothing is needless in what rounds by liveness leave in the end. -/
theorem Sound.exists_needed (hf : f.Sound) :
    ∃ r g out, Edit.eliminate ⟨.liveness, none⟩ f = .ok r g ∧ r.reachedFixpoint = true ∧
      f.Thinned g out ∧ g.Sound ∧ g.Needed := by
  obtain ⟨r, out, g, hg, hs, hsound, -, hfix, hend⟩ :=
    eliminate_keeps ⟨.liveness, none⟩ (fun _ hk => hk.exists_sweep .liveness) hf.built hf
  refine ⟨r, g, out, hg, hend rfl, hs.thinned, hsound,
    needed_of_deadInsts_eq_nil hsound.places ?_⟩
  obtain ⟨k, hk, -⟩ := sweep_liveness_eq_ok hsound.built hsound.closed.targetsExist
  have hnone := (EStateM.Result.ok.inj (hk.symm.trans (hfix (hend rfl)))).1
  exact List.eq_nil_of_length_eq_zero hnone

/-- Rounds by the lists of uses, when these are exact, keep every part in which nothing is needless. -/
theorem Sound.exists_keeps (hf : f.Sound) (hu : f.UsesExact) (hfh : f.Thinned h o)
    (hneeded : h.Needed) :
    ∃ r g, Edit.eliminate ⟨.useChain, none⟩ f = .ok r g ∧ r.reachedFixpoint = true ∧ g.Sound ∧
      ∀ i ∈ h.attached, i ∈ g.attached := by
  have hsweep : ∀ g : Function, (g.Sound ∧ g.UsesExact ∧ (∃ out, f.Thinned g out) ∧
        ∀ i ∈ h.attached, i ∈ g.attached) →
      ∃ out k, Edit.sweep .useChain g = .ok out.length k ∧ g.Swept k out ∧ k.Sound ∧ k.UsesExact ∧
        (∃ out, f.Thinned k out) ∧ ∀ i ∈ h.attached, i ∈ k.attached := by
    rintro g ⟨hg, hu, ⟨out, hfg⟩, hsub⟩
    obtain ⟨out', k, hk, hd, -⟩ := sweep_useChain_eq_ok hg.built
    have hs := hd.swept hg.built
    exact ⟨out', k, hk, hs, hg.swept hs, hd.usesExact hg.built hu, ⟨_, hfg.trans hs.thinned⟩,
      hd.mem_attached_of_needed hg.built hu hfg hfh hneeded hsub⟩
  have hstart : ∀ i ∈ h.attached, i ∈ f.attached := fun i hi => (hfh.mem_attached.mp hi).1
  obtain ⟨r, -, g, hg, -, ⟨hsound, -, -, hsub⟩, -, -, hend⟩ :=
    eliminate_keeps ⟨.useChain, none⟩ hsweep hf.built ⟨hf, hu, ⟨[], .refl f⟩, hstart⟩
  exact ⟨r, g, hg, hend rfl, hsound, hsub⟩

/-- **Liveness takes out all that the lists of uses do**: both strategies, without a limit, end by
themselves, and every instruction that the second one takes out is taken out by the first. -/
theorem exists_eliminate_subsumes {text : String} {fs : List Function}
    (hparse : parseModule text = .ok fs) (hf : f ∈ fs) :
    ∃ r g r' g', Edit.eliminate ⟨.liveness, none⟩ f = .ok r g ∧
      Edit.eliminate ⟨.useChain, none⟩ f = .ok r' g' ∧
      r.reachedFixpoint = true ∧ r'.reachedFixpoint = true ∧
      ∀ i, f.isAttached i = true → g'.isAttached i = false → g.isAttached i = false := by
  have hsound := sound_of_parseModule hparse f hf
  have hu := (composed_of_parseModule hparse f hf).usesExact (named_of_parseModule hparse f hf)
  obtain ⟨r, g, out, hg, hended, hfg, hgs, hneeded⟩ := hsound.exists_needed
  obtain ⟨r', g', hg', hended', hgs', hsub⟩ := hsound.exists_keeps hu hfg hneeded
  refine ⟨r, g, r', g', hg, hg', hended, hended', fun i _ hi => ?_⟩
  rw [← Bool.not_eq_true, hgs'.places.isAttached_iff] at hi
  rw [← Bool.not_eq_true, hgs.places.isAttached_iff]
  exact fun hig => hi (hsub i hig)

/-- By the lists of uses `%y` goes. By liveness `%x` goes too, though it is stored, since control does
not get to the store. -/
theorem exists_eliminate_subsumes_unreached :
    ∃ fs, parseModule ("func @f(%n) \x7b\n ^a:\n %x = copy 1\n %y = neg %n\n ret\n ^b:\n" ++
        " store %x, %n\n ret\n\x7d") = .ok fs ∧ fs.length = 1 ∧
      ∀ f ∈ fs, ∃ r g r' g', Edit.eliminate ⟨.liveness, none⟩ f = .ok r g ∧
        Edit.eliminate ⟨.useChain, none⟩ f = .ok r' g' ∧
        f.attached = [⟨0⟩, ⟨1⟩, ⟨2⟩, ⟨3⟩, ⟨4⟩] ∧ g'.attached = [⟨0⟩, ⟨2⟩, ⟨3⟩, ⟨4⟩] ∧
        g.attached = [⟨2⟩, ⟨3⟩, ⟨4⟩] ∧
        ∀ i, f.isAttached i = true → g'.isAttached i = false → g.isAttached i = false := by
  refine (Run.exists_eq_ok_and (p := fun fs => fs.length = 1 && fs.all fun f =>
    f.attached = [⟨0⟩, ⟨1⟩, ⟨2⟩, ⟨3⟩, ⟨4⟩] &&
      Run.succeeds (Edit.eliminate ⟨.useChain, none⟩ f) (·.attached = [⟨0⟩, ⟨2⟩, ⟨3⟩, ⟨4⟩]) &&
      Run.succeeds (Edit.eliminate ⟨.liveness, none⟩ f) (·.attached = [⟨2⟩, ⟨3⟩, ⟨4⟩])) ?_).imp
    fun fs hfs => ⟨hfs.1, ?_⟩
  · decide +kernel
  · have hchecks := hfs.2
    simp only [Bool.and_eq_true, decide_eq_true_iff, List.all_eq_true] at hchecks
    refine ⟨hchecks.1, fun f hf => ?_⟩
    obtain ⟨⟨hstart, huses⟩, hlive⟩ := hchecks.2 f hf
    obtain ⟨_, k', hk', hleft'⟩ := Run.exists_of_succeeds huses
    obtain ⟨_, k, hk, hleft⟩ := Run.exists_of_succeeds hlive
    obtain ⟨r, g, r', g', hg, hg', -, -, hall⟩ := exists_eliminate_subsumes hfs.1 hf
    obtain ⟨-, rfl⟩ := EStateM.Result.ok.inj (hg'.symm.trans hk')
    obtain ⟨-, rfl⟩ := EStateM.Result.ok.inj (hg.symm.trans hk)
    exact ⟨r, g, r', g', hg, hg', hstart, of_decide_eq_true hleft', of_decide_eq_true hleft, hall⟩

end SsaPrune.Function
