import SsaPrune.Proofs.Elimination.Rounds

/-!
# Both strategies leave the same

Where control gets to all uses, both strategies take out needless instructions until none is left, and
then the order does not matter: what is needed in one outcome is never needless on the way to the other
(`Rounds.mem_attached_of_needed`). And a round by the lists of uses takes out at least what a round by
liveness does, so it never falls behind (`Rounds.le_of_liveness`).
-/

namespace SsaPrune.Function

variable {k f g h : Function} {o o' out out' : List InstId} {strategy : Strategy} {m n : Nat}

/-! ## What is needed stays -/

theorem Rounds.mem_attached_of_needed (hr : Rounds strategy f n g) (hf : f.Ready strategy)
    (hkf : k.Thinned f o) (hkh : k.Thinned h o') (hneeded : h.Needed)
    (hsub : ∀ i ∈ h.attached, i ∈ f.attached) : ∀ i ∈ h.attached, i ∈ g.attached := by
  induction hr generalizing o with
  | none f => exact hsub
  | more hround _ _ ih =>
    obtain ⟨hf', ht, -⟩ := hf.dropped hround.dropped
    exact ih hf' (hkf.trans ht)
      (hround.dropped.mem_attached_of_needed hf.built hf.usesExact hkf hkh hneeded hsub)

/-- Two runs of rounds that leave nothing needless leave the same instructions. -/
theorem Rounds.mem_attached_iff {other : Strategy} (hg : Rounds strategy f n g)
    (hh : Rounds other f m h) (hf : f.Ready strategy) (hf' : f.Ready other) (hgn : g.Needed)
    (hhn : h.Needed) {i : InstId} : i ∈ g.attached ↔ i ∈ h.attached := by
  obtain ⟨-, out, hfg, -⟩ := hf.rounds hg
  obtain ⟨-, out', hfh, -⟩ := hf'.rounds hh
  constructor
  · exact hh.mem_attached_of_needed hf' (.refl f) hfg hgn (fun j hj => (hfg.mem_attached.mp hj).1) i
  · exact hg.mem_attached_of_needed hf (.refl f) hfh hhn (fun j hj => (hfh.mem_attached.mp hj).1) i

/-! ## The number of rounds -/

/-- **Rounds by the lists of uses are no more than rounds by liveness**, from a part `h` of the function
`f` that still has everything the latter leave. -/
theorem Rounds.le_of_liveness (hg : Rounds .liveness f n g) (hk : Rounds .useChain h m k)
    {base : Function} (hf : f.Ready .liveness) (hh : h.Ready .useChain) (hbf : base.Thinned f o)
    (hbh : base.Thinned h o') (hsub : ∀ i ∈ h.attached, i ∈ f.attached)
    (hleft : ∀ i ∈ g.attached, i ∈ h.attached) (hneeded : g.Needed) : m ≤ n := by
  induction hg generalizing h m o o' with
  | none f =>
    have hneededh : h.Needed := fun i hi hn =>
      hneeded i (hsub i hi) (hbh.needless hbf hleft hn)
    cases hk with
    | none => exact Nat.le_refl 0
    | more hround hout _ => exact absurd (hround.eq_nil_of_needed hh hneededh) hout
  | @more f f' g n out hround _ hrest ih =>
    cases hk with
    | none => exact Nat.zero_le _
    | @more _ h' _ m out' hround' _ hrest' =>
      obtain ⟨hf', hff', -⟩ := hf.dropped hround.dropped
      obtain ⟨hh', hhh', -⟩ := hh.dropped hround'.dropped
      obtain ⟨-, outg, hf'g, -⟩ := hf'.rounds hrest
      refine Nat.succ_le_succ (ih hrest' hf' hh' (hbf.trans hff') (hbh.trans hhh') ?_ ?_ hneeded)
      · -- what is needless in `f` is needless in its part `h`, and goes in the same round
        intro i hi
        obtain ⟨hih, hio⟩ := hhh'.mem_attached.mp hi
        refine hff'.mem_attached.mpr ⟨hsub i hih, fun hout => hio (hround'.all i hih ?_)⟩
        exact hbf.needless hbh hsub (hround.only rfl i hout)
      · exact hround'.dropped.mem_attached_of_needed hh.built hh.usesExact hbh
          ((hbf.trans hff').trans hf'g) hneeded hleft

/-! ## The text of what is left -/

section Text

theorem Thinned.valueLabel (ht : f.Thinned g out) : g.valueLabel = f.valueLabel := by
  funext v
  rw [Function.valueLabel, valueName?, value?, ht.values]
  rfl

theorem Thinned.blockLabel (ht : f.Thinned g out) : g.blockLabel = f.blockLabel := by
  funext b
  rw [Function.blockLabel, ht.label]
  rfl

/-- The text of an instruction is told by the labels. -/
theorem instructionText_congr (hv : g.valueLabel = f.valueLabel) (hb : g.blockLabel = f.blockLabel)
    (result : Option ValueId) (d : Instruction) :
    g.instructionText result d = f.instructionText result d := by
  have hoperand : g.operandText = f.operandText := by
    funext x
    cases x with
    | value v => exact congrFun hv v
    | imm n => rfl
  have hincoming : g.incomingText = f.incomingText := by
    funext pair
    rw [incomingText, incomingText, hoperand, hb]
  have hsuccessors : g.successorsText d.successors = f.successorsText d.successors := by
    cases d.successors with
    | nil => rfl
    | cons b bs => simp only [successorsText, hb]
  have hresult : g.resultText result = f.resultText result := by
    cases result with
    | none => rfl
    | some v => rw [resultText, resultText, hv]
  rw [instructionText, instructionText, argumentsText, argumentsText, hresult, hincoming, hoperand,
    hsuccessors]

theorem Thinned.instText (ht : f.Thinned g out) (i : InstId) : g.instText i = f.instText i := by
  unfold Function.instText
  cases hd : f.inst? i with
  | none => rw [ht.inst?_eq_none hd]
  | some d =>
    obtain ⟨p, hp⟩ := ht.exists_inst? hd
    rw [hp, ht.result?]
    exact instructionText_congr ht.valueLabel ht.blockLabel (f.result? i) { d with parent := p }

/-- What is left of a function is written the same when the same instructions are left. -/
theorem Thinned.text_eq (hg : f.Thinned g out) (hh : f.Thinned h out')
    (hsame : ∀ i, i ∈ g.attached ↔ i ∈ h.attached) : g.text = h.text := by
  have hinsts : ∀ b ∈ f.layout, g.instsOf b = h.instsOf b := by
    intro b hb
    rw [hg.instsOf, hh.instsOf]
    refine List.filter_congr fun i hi => ?_
    have hif : i ∈ f.attached := List.mem_flatMap.mpr ⟨b, hb, hi⟩
    have hout := hsame i
    rw [hg.mem_attached, hh.mem_attached, and_iff_right hif, and_iff_right hif] at hout
    rw [decide_eq_decide, hout]
  have hblocks : f.layout.map g.blockText = f.layout.map h.blockText := by
    refine List.map_congr_left fun b hb => ?_
    rw [blockText, blockText, hinsts b hb, hg.blockLabel, hh.blockLabel, funext hg.instText,
      funext hh.instText]
  rw [text, text, hg.name, hh.name, hg.params, hh.params, hg.valueLabel, hh.valueLabel, hg.layout,
    hh.layout, hblocks]

end Text

/-! ## Agreement -/

/-- **Both strategies leave the same**, and so the same text, where control gets to all uses; and by the
lists of uses it takes no more rounds. Both end, and all that they leave is needed. -/
theorem exists_eliminate_agree {text : String} {fs : List Function}
    (hparse : parseModule text = .ok fs) (hf : f ∈ fs) (hv : f.validate = .ok [])
    (hr : f.UsesReached) :
    ∃ r g r' g', Edit.eliminate ⟨.liveness, none⟩ f = .ok r g ∧
      Edit.eliminate ⟨.useChain, none⟩ f = .ok r' g' ∧ g.Needed ∧ g'.Needed ∧
      (∀ i, g.isAttached i = g'.isAttached i) ∧
      (∃ written, g.print = .ok written ∧ g'.print = .ok written) ∧
      r'.rounds ≤ r.rounds ∧ r.reachedFixpoint = true ∧ r'.reachedFixpoint = true := by
  have hready : f.Ready .liveness := ready_of_parseModule hparse hf hv fun _ => hr
  have hready' : f.Ready .useChain := ready_of_parseModule hparse hf hv fun hs => by cases hs
  obtain ⟨r, n, g, hrun, hrounds, hspec, hfix⟩ := rounds_spec hready 0 0 (f.numInsts + 1)
  obtain ⟨r', m, g', hrun', hrounds', hspec', hfix'⟩ := rounds_spec hready' 0 0 (f.numInsts + 1)
  have hfix := hfix (Nat.lt_succ_self _)
  have hfix' := hfix' (Nat.lt_succ_self _)
  obtain ⟨-, hneeded, hcount⟩ := hspec hfix
  obtain ⟨-, hneeded', hcount'⟩ := hspec' hfix'
  obtain ⟨hg, out, hfg, -⟩ := hready.rounds hrounds
  obtain ⟨hg', out', hfg', -⟩ := hready'.rounds hrounds'
  have hsame : ∀ i, i ∈ g.attached ↔ i ∈ g'.attached := fun i =>
    hrounds.mem_attached_iff hrounds' hready hready' hneeded hneeded'
  refine ⟨r, g, r', g', hrun, hrun', hneeded, hneeded', fun i => ?_,
    ⟨g.text, hg.built.print_eq_ok hg.closed, ?_⟩, ?_, hfix, hfix'⟩
  · rw [Bool.eq_iff_iff, hg.places.isAttached_iff, hg'.places.isAttached_iff]
    exact hsame i
  · rw [hg'.built.print_eq_ok hg'.closed, hfg.text_eq hfg' hsame]
  · have hle := hrounds.le_of_liveness hrounds' hready hready' (.refl f) (.refl f) (fun _ hi => hi)
      (fun i hi => (hfg.mem_attached.mp hi).1) hneeded
    omega

/-- A loop with a chain of two dead instructions. -/
def deadInLoop : String :=
  "func @f(%n) \x7b\n ^a:\n br [^b]\n ^b:\n %i = phi [0, ^a], [%j, ^b]\n" ++
    " %j = add %i, 1\n %x = mul %j, 2\n %y = neg %x\n condbr %j [^b, ^c]\n ^c:\n ret %n\n\x7d"

/-- Rounds by liveness take the chain out one by one, and a round by the lists of uses at once. -/
theorem exists_eliminate_agree_loop : ∃ f, parseModule deadInLoop = .ok [f] ∧ f.validate = .ok [] ∧
    f.UsesReached ∧ ∃ g g', Edit.eliminate ⟨.liveness, none⟩ f = .ok ⟨2, 3, true⟩ g ∧
      Edit.eliminate ⟨.useChain, none⟩ f = .ok ⟨2, 2, true⟩ g' ∧
      g.attached = [⟨0⟩, ⟨1⟩, ⟨2⟩, ⟨5⟩, ⟨6⟩] ∧ g.Needed ∧ g'.Needed ∧
      (∀ i, g.isAttached i = g'.isAttached i) ∧
      ∃ written, g.print = .ok written ∧ g'.print = .ok written := by
  have hruns : Run.yieldsOne (parseModule deadInLoop) (fun f =>
      decide (f.validate = .ok [] ∧ f.instsOf ⟨1⟩ = [⟨1⟩, ⟨2⟩, ⟨3⟩, ⟨4⟩, ⟨5⟩] ∧
        ∀ i ∈ [(⟨2⟩ : InstId), ⟨3⟩, ⟨4⟩], f.isTerminator i = false) &&
      decide (∀ d ∈ f.attached, f.isRemovable d = true → ∀ v ∈ f.result? d, ∀ u ∈ f.attached,
        f.isPhi u = false → v ∈ f.valueOperands u →
          (d, u) ∈ [((⟨2⟩, ⟨3⟩) : InstId × InstId), (⟨2⟩, ⟨5⟩), (⟨3⟩, ⟨4⟩)]) &&
      decide (∀ d ∈ f.attached, f.isRemovable d = true → ∀ v ∈ f.result? d, ∀ u ∈ f.attached,
        ∀ pair ∈ f.incoming u, pair.2 = .value v → d = ⟨2⟩ ∧ pair.1 = ⟨1⟩) &&
      Run.returns (Edit.eliminate ⟨.liveness, none⟩ f) (fun r g =>
        r = ⟨2, 3, true⟩ ∧ g.attached = [⟨0⟩, ⟨1⟩, ⟨2⟩, ⟨5⟩, ⟨6⟩]) &&
      Run.returns (Edit.eliminate ⟨.useChain, none⟩ f) fun r _ => r = ⟨2, 2, true⟩) = true := by
    decide +kernel
  obtain ⟨f, hparse, hchecks⟩ := Run.exists_of_yieldsOne hruns
  simp only [Bool.and_eq_true, decide_eq_true_iff] at hchecks
  obtain ⟨⟨⟨⟨⟨hv, hlist, hterm⟩, huses⟩, hphis⟩, hlive⟩, hchain⟩ := hchecks
  have hnext : ∀ before {i j after}, f.instsOf ⟨1⟩ = before ++ i :: j :: after →
      i ∈ [⟨2⟩, ⟨3⟩, ⟨4⟩] → f.Follows i j := fun _ _ _ _ hsplit hi => .next (hterm _ hi) hsplit
  have h23 : f.Follows ⟨2⟩ ⟨3⟩ := hnext [⟨1⟩] hlist (by decide)
  have h34 : f.Follows ⟨3⟩ ⟨4⟩ := hnext [⟨1⟩, ⟨2⟩] hlist (by decide)
  have h45 : f.Follows ⟨4⟩ ⟨5⟩ := hnext [⟨1⟩, ⟨2⟩, ⟨3⟩] hlist (by decide)
  have hround : f.Walk ⟨2⟩ [⟨3⟩, ⟨4⟩] ⟨5⟩ := .more h23 (.more h34 (.one h45))
  have hreached : f.UsesReached := by
    constructor
    · intro d hd hremovable v hres u hu hphi huse
      have hpairs := huses d hd hremovable v hres u hu hphi huse
      simp only [List.mem_cons, Prod.mk.injEq, List.not_mem_nil, or_false] at hpairs
      rcases hpairs with ⟨rfl, rfl⟩ | ⟨rfl, rfl⟩ | ⟨rfl, rfl⟩
      · exact ⟨[], .one h23⟩
      · exact ⟨_, hround⟩
      · exact ⟨[], .one h34⟩
    · intro d hd hremovable v hres u hu _ b hpair
      obtain ⟨rfl, rfl⟩ := hphis d hd hremovable v hres u hu _ hpair rfl
      exact ⟨⟨5⟩, by rw [last?, hlist]; rfl, .inr ⟨_, hround⟩⟩
  obtain ⟨r, g, r', g', hg, hg', hneeded, hneeded', hsame, hwritten, -⟩ :=
    exists_eliminate_agree hparse (by simp) hv hreached
  obtain ⟨_, _, hrun, hchecks⟩ := Run.exists_of_returns hlive
  obtain ⟨rfl, hleft⟩ := of_decide_eq_true hchecks
  obtain ⟨rfl, rfl⟩ := EStateM.Result.ok.inj (hrun.symm.trans hg)
  obtain ⟨_, _, hrun', hchecks'⟩ := Run.exists_of_returns hchain
  obtain rfl := of_decide_eq_true hchecks'
  obtain ⟨rfl, rfl⟩ := EStateM.Result.ok.inj (hrun'.symm.trans hg')
  exact ⟨f, hparse, hv, hreached, _, _, hg, hg', hleft, hneeded, hneeded', hsame, hwritten⟩

end SsaPrune.Function
