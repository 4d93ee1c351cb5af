import SsaPrune.Proofs.Elimination.Largest
import SsaPrune.Proofs.Sessions

/-!
# Elimination only takes out

A round, of either strategy, takes instructions out of their blocks one after the other, each of which is
in a block when its turn comes (`exists_sweep`). With an instruction go its uses, all of them, however
many there are of one value; for each use in a list stands at an operand of its user
(`Built.operand_of_mem_usesOf`). The other uses stay in their order.

So the rounds together take out some instructions and their uses, `Unlisted`, and change nothing else,
`OnlyTakesOut`. It does not matter whether the function is well formed.
-/

namespace SsaPrune.Function

variable {f g k : Function} {out out' : List InstId} {i : InstId} {v : ValueId}

/-! ## The uses of what is taken out -/

theorem Built.exists_usesFollow (h : f.Built) : ∃ listed, f.UsesFollow listed := by
  induction h with
  | empty name => exact ⟨fun _ => True, usesFollow_empty name _⟩
  | request r _ hg ih =>
    obtain ⟨listed, hl⟩ := ih
    exact ⟨_, hl.request hg⟩

theorem Built.operand_of_mem_usesOf (h : f.Built) {u : Use} (hu : u ∈ f.usesOf v) :
    (f.operands u.user)[u.operandIndex]? = some (.value v) := by
  obtain ⟨listed, hl⟩ := h.exists_usesFollow
  exact (((hl v).2 u.user u.operandIndex).mp hu).1

/-- With an instruction go its uses, and no others. -/
theorem usesOf_of_detach (h : f.Built) (hi : i ∈ f.attached) (hg : Edit.detach i f = .ok () g)
    (v : ValueId) : g.usesOf v = (f.usesOf v).filter (·.user ∉ [i]) := by
  have hrun : (Request.detach i).run f = .ok () g := hg
  obtain ⟨b, hb⟩ := h.coherent.places.mem_attached_iff.mp hi
  obtain ⟨-, hnone, -⟩ | ⟨b, -, -, rfl⟩ := Request.run_eq_ok_iff.mp hrun
  · rw [hnone] at hb
    cases hb
  · rw [usesOf_dropUses]
    refine List.filter_congr fun u hu => decide_eq_decide.mpr (not_congr ?_)
    rw [List.mem_singleton]
    refine and_iff_left_of_imp ?_
    rintro rfl
    rw [mem_positionedValues]
    exact (operands_withParent none).symm ▸ h.operand_of_mem_usesOf hu

/-- `g` is what is left of `f` when the instructions of `out` go, and their uses with them. -/
structure Unlisted (f g : Function) (out : List InstId) : Prop where
  swept : f.Swept g out
  usesOf : ∀ v, g.usesOf v = (f.usesOf v).filter (·.user ∉ out)

namespace Unlisted

theorem refl (h : f.Built) : f.Unlisted f [] := ⟨.refl h, by simp⟩

theorem trans (hfg : f.Unlisted g out) (hgk : g.Unlisted k out') : f.Unlisted k (out ++ out') where
  swept := hfg.swept.trans hgk.swept
  usesOf v := by
    rw [hgk.usesOf, hfg.usesOf]
    exact filter_notMem_append Use.user ..

end Unlisted

theorem usesOf_of_detachAll (h : f.Built) (hout : ∀ i ∈ out, i ∈ f.attached) (hn : out.Nodup)
    (hg : Edit.detachAll out f = .ok () g) (v : ValueId) :
    g.usesOf v = (f.usesOf v).filter (·.user ∉ out) := by
  induction out generalizing f with
  | nil =>
    obtain ⟨-, rfl⟩ := EStateM.Result.ok.inj hg
    simp
  | cons i out ih =>
    obtain ⟨hi, hout⟩ := List.forall_mem_cons.mp hout
    obtain ⟨hni, hn⟩ := List.nodup_cons.mp hn
    obtain ⟨k, hk, hkb, hfk, -⟩ := detach_eq_ok h (h.coherent.places.has_attached hi)
    have hrest : Edit.detachAll out k = .ok () g := (Run.bind_of_ok hk).symm.trans hg
    have hstill : ∀ j ∈ out, j ∈ k.attached := by
      intro j hj
      refine hfk.mem_attached.mpr ⟨hout j hj, fun hji => hni ?_⟩
      exact List.mem_singleton.mp hji ▸ hj
    rw [ih hkb hstill hn hrest, usesOf_of_detach h hi hk]
    exact filter_notMem_append Use.user _ [i] out

/-! ## Rounds -/

theorem exists_sweep_unlisted (h : f.Built) (ht : f.TargetsExist) (strategy : Strategy) :
    ∃ out g, Edit.sweep strategy f = .ok out.length g ∧ f.Unlisted g out := by
  obtain ⟨out, g, hg, hs, hall⟩ := exists_sweep h ht strategy
  exact ⟨out, g, hg, hs, usesOf_of_detachAll h hs.attached hs.nodup hall⟩

theorem Sound.exists_eliminate_unlisted (hf : f.Sound) (config : EliminationConfig) :
    ∃ r g out, Edit.eliminate config f = .ok r g ∧ g.Sound ∧ f.Unlisted g out := by
  have hsweep : ∀ g : Function, (g.Sound ∧ ∃ out, f.Unlisted g out) →
      ∃ out k, Edit.sweep config.strategy g = .ok out.length k ∧ g.Swept k out ∧ k.Sound ∧
        ∃ out, f.Unlisted k out := by
    rintro g ⟨hg, out, hfg⟩
    obtain ⟨out', k, hk, hgk⟩ := exists_sweep_unlisted hg.built hg.closed.targetsExist config.strategy
    exact ⟨out', k, hk, hgk.swept, hg.swept hgk.swept, _, hfg.trans hgk⟩
  obtain ⟨r, -, g, hg, -, ⟨hsound, out, hfg⟩, -⟩ :=
    eliminate_keeps config hsweep hf.built ⟨hf, [], .refl hf.built⟩
  exact ⟨r, g, out, hg, hsound, hfg⟩

/-! ## What is changed, and what is not -/

/-- The instruction is in a block of `f` and in none of `g`. -/
def TakenOut (f g : Function) (i : InstId) : Prop := i ∈ f.attached ∧ i ∉ g.attached

instance : Decidable (f.TakenOut g i) := inferInstanceAs (Decidable (_ ∧ _))

/-- `g` is `f` without some instructions in its blocks, and otherwise as it was. -/
structure OnlyTakesOut (f g : Function) : Prop where
  /-- A block lists what is left in the order in which it was. -/
  sublist : ∀ b, (g.instsOf b).Sublist (f.instsOf b)
  /-- Terminators, phis, stores and calls are left. -/
  stays : ∀ b, ∀ i ∈ f.instsOf b, f.Stays i → i ∈ g.instsOf b
  /-- What was taken out is what no longer names a block. -/
  takenOut_iff : ∀ i, f.TakenOut g i ↔ f.isAttached i = true ∧ g.isAttached i = false
  parent? : ∀ i, ¬f.TakenOut g i → g.parent? i = f.parent? i
  /-- What an instruction says is kept, except for its block. -/
  inst? : ∀ i, (g.inst? i).map Instruction.unplaced = (f.inst? i).map Instruction.unplaced
  name : g.name = f.name
  params : g.params = f.params
  layout : g.layout = f.layout
  blockLabel? : ∀ b, g.blockLabel? b = f.blockLabel? b
  values : g.values = f.values
  results : g.results = f.results
  size_insts : g.insts.size = f.insts.size
  size_blocks : g.blocks.size = f.blocks.size
  /-- The uses of what was taken out are dropped, and the others stay in their order. -/
  usesOf : ∀ v, g.usesOf v = (f.usesOf v).filter fun u => ¬f.TakenOut g u.user

theorem Thinned.size_eq (ht : f.Thinned g out) :
    g.insts.size = f.insts.size ∧ g.blocks.size = f.blocks.size := by
  have hinst : ∀ n, n < g.insts.size ↔ n < f.insts.size := fun n => by
    simpa only [has_inst] using ht.has (.inst ⟨n⟩)
  have hblock : ∀ n, n < g.blocks.size ↔ n < f.blocks.size := fun n => by
    simpa only [has_block] using ht.has (.block ⟨n⟩)
  exact ⟨eq_of_forall_lt_iff hinst, eq_of_forall_lt_iff hblock⟩

theorem Swept.takenOut_iff (hs : f.Swept g out) : f.TakenOut g i ↔ i ∈ out := by
  rw [TakenOut, hs.thinned.mem_attached]
  have := hs.attached i
  tauto

theorem Unlisted.onlyTakesOut (hu : f.Unlisted g out) (hf : f.PlacesAgree) : f.OnlyTakesOut g where
  sublist b := hu.swept.thinned.instsOf b ▸ List.filter_sublist
  stays b i hi hstays := by
    refine hu.swept.thinned.mem_instsOf.mpr ⟨hi, fun hout => ?_⟩
    rw [stays_iff (hf.has_attached (hf.mem_attached hi)), hu.swept.removable i hout] at hstays
    cases hstays
  takenOut_iff i := by
    rw [TakenOut, ← hf.isAttached_iff, ← hu.swept.built.coherent.places.isAttached_iff,
      Bool.not_eq_true]
  parent? i hi := hu.swept.thinned.parent? hf hu.swept.built.coherent.places
    (hu.swept.takenOut_iff.not.mp hi)
  inst? := hu.swept.thinned.inst
  name := hu.swept.thinned.name
  params := hu.swept.thinned.params
  layout := hu.swept.thinned.layout
  blockLabel? := hu.swept.thinned.label
  values := hu.swept.thinned.values
  results := hu.swept.thinned.results
  size_insts := hu.swept.thinned.size_eq.1
  size_blocks := hu.swept.thinned.size_eq.2
  usesOf v := by
    rw [hu.usesOf]
    exact List.filter_congr fun u _ => decide_eq_decide.mpr hu.swept.takenOut_iff.not.symm

/-- **Elimination only takes out**, by either strategy and with any limit. -/
theorem exists_eliminate_onlyTakesOut {text : String} {fs : List Function}
    (hparse : parseModule text = .ok fs) (hf : f ∈ fs) (config : EliminationConfig) :
    ∃ r g, Edit.eliminate config f = .ok r g ∧ f.OnlyTakesOut g := by
  have hsound := sound_of_parseModule hparse f hf
  obtain ⟨r, g, out, hg, -, hu⟩ := hsound.exists_eliminate_unlisted config
  exact ⟨r, g, hg, hu.onlyTakesOut hsound.places⟩

/-- A dead instruction uses a parameter twice, between two others that use it too. -/
theorem exists_eliminate_onlyTakesOut_twice :
    ∃ fs, parseModule ("func @f(%n) \x7b\n ^a:\n %x = neg %n\n %y = add %n, %n\n" ++
        " store %x, %n\n ret\n\x7d") = .ok fs ∧ fs.length = 1 ∧
      ∀ f ∈ fs, ∀ strategy, ∃ r g, Edit.eliminate ⟨strategy, some 1⟩ f = .ok r g ∧
        f.usesOf ⟨0⟩ = [⟨⟨0⟩, 0⟩, ⟨⟨1⟩, 0⟩, ⟨⟨1⟩, 1⟩, ⟨⟨2⟩, 1⟩] ∧
        g.usesOf ⟨0⟩ = [⟨⟨0⟩, 0⟩, ⟨⟨2⟩, 1⟩] ∧ f.OnlyTakesOut g := by
  refine (Run.exists_eq_ok_and (p := fun fs => fs.length = 1 && fs.all fun f =>
    f.usesOf ⟨0⟩ = [⟨⟨0⟩, 0⟩, ⟨⟨1⟩, 0⟩, ⟨⟨1⟩, 1⟩, ⟨⟨2⟩, 1⟩] &&
      [Strategy.liveness, .useChain].all fun strategy =>
        Run.succeeds (Edit.eliminate ⟨strategy, some 1⟩ f) fun g =>
          g.usesOf ⟨0⟩ = [⟨⟨0⟩, 0⟩, ⟨⟨2⟩, 1⟩]) ?_).imp fun fs hfs => ⟨hfs.1, ?_⟩
  · decide +kernel
  · have hchecks := hfs.2
    simp only [Bool.and_eq_true, decide_eq_true_iff, List.all_eq_true] at hchecks
    refine ⟨hchecks.1, fun f hf strategy => ?_⟩
    obtain ⟨huses, hruns⟩ := hchecks.2 f hf
    have hstrategy : strategy ∈ [Strategy.liveness, .useChain] := by cases strategy <;> simp
    obtain ⟨_, k, hk, hleft⟩ := Run.exists_of_succeeds (hruns strategy hstrategy)
    obtain ⟨r, g, hg, honly⟩ := exists_eliminate_onlyTakesOut hfs.1 hf ⟨strategy, some 1⟩
    obtain ⟨-, rfl⟩ := EStateM.Result.ok.inj (hg.symm.trans hk)
    exact ⟨r, g, hg, huses, of_decide_eq_true hleft, honly⟩

end SsaPrune.Function
