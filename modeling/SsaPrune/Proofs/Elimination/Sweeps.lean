import SsaPrune.Proofs.Elimination.ControlFlow
import SsaPrune.Proofs.Elimination.Needless

/-!
# Rounds of elimination

What one round takes out, for each strategy: by liveness, everything that is dead at the start
(`sweep_liveness_eq_ok`), and by the lists of uses a sequence of instructions of which each is unused
when its turn comes (`Dropped`, `sweep_useChain_eq_ok`). Either way they are as many as the round says
(`Swept`).

Rounds that do not fail are repeated without failing, and what each of them keeps is kept to the end
(`eliminate_keeps`). Without a limit they end by themselves, since all but the last leave fewer
instructions.
-/

namespace SsaPrune

namespace Function

variable {f g k : Function} {out out' : List InstId} {i : InstId}

/-! ## What a round leaves -/

/-- `g` is what a round may leave of `f`: all but the instructions of `out`, each of which stood in a
block and could be removed. -/
structure Swept (f g : Function) (out : List InstId) : Prop where
  built : g.Built
  thinned : f.Thinned g out
  removable : f.AllRemovable out
  attached : ∀ i ∈ out, i ∈ f.attached
  nodup : out.Nodup
  eq_of_nil : out = [] → g = f

namespace Swept

theorem refl (h : f.Built) : f.Swept f [] :=
  ⟨h, .refl f, by simp [AllRemovable], by simp, List.nodup_nil, fun _ => rfl⟩

theorem trans (hfg : f.Swept g out) (hgk : g.Swept k out') : f.Swept k (out ++ out') where
  built := hgk.built
  thinned := hfg.thinned.trans hgk.thinned
  removable i hi := by
    rcases List.mem_append.mp hi with hi | hi
    · exact hfg.removable i hi
    · rw [← hfg.thinned.isRemovable]
      exact hgk.removable i hi
  attached i hi := by
    rcases List.mem_append.mp hi with hi | hi
    · exact hfg.attached i hi
    · exact (hfg.thinned.mem_attached.mp (hgk.attached i hi)).1
  nodup := by
    refine List.nodup_append.mpr ⟨hfg.nodup, hgk.nodup, ?_⟩
    rintro i hi j hj rfl
    exact (hfg.thinned.mem_attached.mp (hgk.attached i hj)).2 hi
  eq_of_nil hnil := by
    obtain ⟨hout, hout'⟩ := List.append_eq_nil_iff.mp hnil
    exact (hgk.eq_of_nil hout').trans (hfg.eq_of_nil hout)

theorem one (h : f.Built) (hi : i ∈ f.attached) (hr : f.isRemovable i = true)
    (hg : Edit.detach i f = .ok () g) : f.Swept g [i] := by
  obtain ⟨g', hg', hgb, ht, -⟩ := detach_eq_ok h (h.coherent.places.has_attached hi)
  obtain ⟨-, rfl⟩ := EStateM.Result.ok.inj (hg.symm.trans hg')
  refine ⟨hgb, ht, .singleton hr, fun j hj => ?_, List.nodup_singleton i, fun hnil => by cases hnil⟩
  rwa [List.mem_singleton.mp hj]

/-- The instructions that went and those that are left are all that there were. -/
theorem numInsts_add (hf : f.PlacesAgree) (h : f.Swept g out) :
    g.numInsts + out.length = f.numInsts := by
  have hout : (f.attached.filter (· ∈ out)).Perm out := by
    refine (List.perm_ext_iff_of_nodup (hf.nodup_attached.filter _) h.nodup).mpr fun i => ?_
    rw [List.mem_filter, decide_eq_true_iff]
    exact and_iff_right_of_imp (h.attached i)
  have hleft : g.attached = f.attached.filter (fun i => !decide (i ∈ out)) := by
    rw [h.thinned.attached]
    exact List.filter_congr fun i _ => decide_not
  rw [numInsts, numInsts, hleft, ← hout.length_eq,
    f.attached.length_eq_length_filter_add fun i => decide (i ∈ out), Nat.add_comm]

end Swept

/-! ## By liveness -/

theorem mem_deadInsts (hp : f.PlacesAgree) : i ∈ f.deadInsts f.liveness ↔
    i ∈ f.attached ∧ f.isRemovable i = true ∧ ∀ v, f.result? i = some v → ¬f.LiveAfter v i := by
  rw [deadInsts, List.mem_filter, isTriviallyDead, Bool.and_eq_true]
  apply and_congr_right
  intro hi
  apply and_congr_right
  intro _
  have hlive := hp.isExact_liveness.liveOut_iff i hi
  cases hr : f.result? i with
  | none => simp [Liveness.resultIsLive, hr]
  | some v => simp [Liveness.resultIsLive, hr, hlive]

theorem allRemovable_deadInsts (hp : f.PlacesAgree) :
    f.AllRemovable (f.deadInsts f.liveness) := by
  intro i hi
  exact ((mem_deadInsts hp).mp hi).2.1

/-- A round by liveness takes out what is dead at its start, all at once. -/
theorem sweep_liveness_of_detachAll (ht : f.TargetsExist)
    (hg : Edit.detachAll (f.deadInsts f.liveness) f = .ok () g) :
    Edit.sweep .liveness f = .ok (f.deadInsts f.liveness).length g := by
  have hread : Edit.ofReading (·.computeLiveness) f = .ok f.liveness f :=
    Edit.ofReading_of_ok f (computeLiveness_eq_ok ht)
  rw [Edit.sweep, Run.bind_of_ok hread, Run.bind_get, Run.bind_of_ok hg]
  rfl

theorem sweep_liveness_eq_ok (h : f.Built) (ht : f.TargetsExist) :
    ∃ g, Edit.sweep .liveness f = .ok (f.deadInsts f.liveness).length g ∧
      f.Swept g (f.deadInsts f.liveness) := by
  have hp := h.coherent.places
  have hdead : ∀ i ∈ f.deadInsts f.liveness, i ∈ f.attached :=
    fun i hi => ((mem_deadInsts hp).mp hi).1
  obtain ⟨g, hg, hgb, hfg⟩ := detachAll_eq_ok h fun i hi => hp.has_attached (hdead i hi)
  refine ⟨g, sweep_liveness_of_detachAll ht hg, hgb, hfg, allRemovable_deadInsts hp, hdead,
    hp.nodup_attached.filter _, fun hnil => ?_⟩
  rw [hnil] at hg
  exact (EStateM.Result.ok.inj hg).2.symm

/-! ## By the lists of uses -/

/-- `g` is left when the instructions of `out` are taken out of `f`, each of which is unused when its
turn comes. -/
inductive Dropped : Function → List InstId → Function → Prop
  | none (f : Function) : Dropped f [] f
  | one {f g h : Function} {i : InstId} {out : List InstId} (hi : i ∈ f.attached)
      (hu : f.isUnused i = true) (hg : Edit.detach i f = .ok () g) (hd : Dropped g out h) :
      Dropped f (i :: out) h

theorem Dropped.swept (hd : f.Dropped out g) (h : f.Built) : f.Swept g out := by
  induction hd with
  | none f => exact .refl h
  | one hi hu hg _ ih =>
    have hone := Swept.one h hi (Bool.and_eq_true_iff.mp hu).1 hg
    exact hone.trans (ih hone.built)

theorem Dropped.detachAll (hd : f.Dropped out g) : Edit.detachAll out f = .ok () g := by
  induction hd with
  | none f => rfl
  | one _ _ hg _ ih => exact (Run.bind_of_ok hg).trans ih

theorem Dropped.usesExact (hd : f.Dropped out g) (h : f.Built) (hu : f.UsesExact) : g.UsesExact := by
  induction hd with
  | none f => exact hu
  | one hi hunused hg _ ih =>
    have hone := Swept.one h hi (Bool.and_eq_true_iff.mp hunused).1 hg
    exact ih hone.built (hu.detach h hi hg)

/-- Nothing is taken out of a function in which nothing is needless. -/
theorem Dropped.eq_nil_of_needed (hd : f.Dropped out g) (hu : f.UsesExact) (hn : f.Needed) :
    out = [] := by
  cases hd with
  | none => rfl
  | one hi hunused => exact absurd (hu.isUnused_iff.mp hunused) (hn _ hi)

/-- With exact lists, a part `h` of `f` in which nothing is needless is kept: `f` and `h` are parts of
one function `k`, and what is needless in `f` would be needless in `h`. -/
theorem Dropped.mem_attached_of_needed {h : Function} {o o' : List InstId} (hd : f.Dropped out g)
    (hf : f.Built) (hu : f.UsesExact) (hkf : k.Thinned f o) (hkh : k.Thinned h o')
    (hneeded : h.Needed) (hsub : ∀ i ∈ h.attached, i ∈ f.attached) :
    ∀ i ∈ h.attached, i ∈ g.attached := by
  induction hd generalizing o with
  | none f => exact hsub
  | @one f f' g i out hi hunused hdetach _ ih =>
    have hn := hu.isUnused_iff.mp hunused
    have hone := Swept.one hf hi hn.1 hdetach
    refine ih hone.built (hu.detach hf hi hdetach) (hkf.trans hone.thinned) fun j hj => ?_
    refine hone.thinned.mem_attached.mpr ⟨hsub j hj, fun hji => ?_⟩
    obtain rfl := List.mem_singleton.mp hji
    exact hneeded j hj (hkf.needless hkh hsub hn)

theorem detachUnused_eq_ok (h : f.Built) {is : List InstId} (his : ∀ i ∈ is, i ∈ f.attached)
    (hn : is.Nodup) : ∃ out g, Edit.detachUnused is f = .ok out.length g ∧ f.Dropped out g ∧
      (f.UsesExact → ∀ i ∈ is, f.Needless i → i ∈ out) := by
  induction is generalizing f with
  | nil => exact ⟨[], f, rfl, .none f, by simp⟩
  | cons i is ih =>
    obtain ⟨hni, hn⟩ := List.nodup_cons.mp hn
    have hi := his i List.mem_cons_self
    unfold Edit.detachUnused
    rw [Run.bind_get]
    cases hu : f.isUnused i with
    | false =>
      obtain ⟨out, g, hg, hd, hall⟩ := ih h (fun j hj => his j (List.mem_cons_of_mem _ hj)) hn
      refine ⟨out, g, hg, hd, fun hexact => List.forall_mem_cons.mpr ⟨fun hneedless => ?_, ?_⟩⟩
      · rw [hexact.isUnused_iff.mpr hneedless] at hu
        cases hu
      · exact hall hexact
    | true =>
      obtain ⟨g, hg, hgb, ht, -⟩ := detach_eq_ok h (h.coherent.places.has_attached hi)
      have hleft : ∀ j ∈ is, j ∈ g.attached := by
        intro j hj
        have hne : j ≠ i := fun he => hni (he ▸ hj)
        exact ht.mem_attached.mpr ⟨his j (List.mem_cons_of_mem _ hj), by simpa using hne⟩
      obtain ⟨out, k, hk, hd, hall⟩ := ih hgb hleft hn
      refine ⟨i :: out, k, ?_, .one hi hu hg hd, fun hexact j hj hneedless => ?_⟩
      · rw [if_pos rfl, Run.bind_of_ok hg, Run.bind_of_ok hk]
        rfl
      · rcases List.mem_cons.mp hj with rfl | hj
        · exact List.mem_cons_self
        · have hsub : ∀ k ∈ g.attached, k ∈ f.attached := fun k hk => (ht.mem_attached.mp hk).1
          exact List.mem_cons_of_mem _ (hall (hexact.detach h hi hg) j hj
            ((Thinned.refl f).needless ht hsub hneedless))

/-- A round by the lists of uses takes out, one after the other, what is unused then; with exact lists,
everything that is needless at the start is among it. -/
theorem sweep_useChain_eq_ok (h : f.Built) :
    ∃ out g, Edit.sweep .useChain f = .ok out.length g ∧ f.Dropped out g ∧
      (f.UsesExact → ∀ i ∈ f.attached, f.Needless i → i ∈ out) := by
  have hp := h.coherent.places
  obtain ⟨out, g, hg, hd, hall⟩ := detachUnused_eq_ok h
    (fun i hi => List.mem_reverse.mp hi) (List.nodup_reverse.mpr hp.nodup_attached)
  exact ⟨out, g, hg, hd, fun hexact i hi => hall hexact i (List.mem_reverse.mpr hi)⟩

/-! ## Rounds -/

/-- A round of either strategy takes out as many instructions as it says, one after the other, and does
nothing else. -/
theorem exists_sweep (h : f.Built) (ht : f.TargetsExist) (strategy : Strategy) :
    ∃ out g, Edit.sweep strategy f = .ok out.length g ∧ f.Swept g out ∧
      Edit.detachAll out f = .ok () g := by
  cases strategy with
  | liveness =>
    obtain ⟨g, hg, hs⟩ := sweep_liveness_eq_ok h ht
    obtain ⟨k, hk, -⟩ := detachAll_eq_ok h fun i hi => h.coherent.places.has_attached (hs.attached i hi)
    obtain ⟨-, rfl⟩ := EStateM.Result.ok.inj (hg.symm.trans (sweep_liveness_of_detachAll ht hk))
    exact ⟨_, g, hg, hs, hk⟩
  | useChain =>
    obtain ⟨out, g, hg, hd, -⟩ := sweep_useChain_eq_ok h
    exact ⟨out, g, hg, hd.swept h, hd.detachAll⟩

section Rounds

variable {P : Function → Prop} {strategy : Strategy}

/-- The first of some rounds. -/
theorem rounds_succ {n : Nat} (hg : Edit.sweep strategy f = .ok n g) (removed done budget : Nat) :
    Edit.rounds strategy removed done (budget + 1) f =
      if n = 0 then .ok ⟨removed, done + 1, true⟩ g
      else Edit.rounds strategy (removed + n) (done + 1) budget g := by
  rw [Edit.rounds, Run.bind_of_ok hg]
  cases n <;> rfl

theorem eliminate_apply (config : EliminationConfig) (f : Function) : Edit.eliminate config f =
    Edit.rounds config.strategy 0 0 (config.maxRounds.getD (f.numInsts + 1)) f := rfl

/-- Where a round takes out nothing, this is all that elimination does. -/
theorem eliminate_of_sweep_eq_zero (hg : Edit.sweep strategy f = .ok 0 g) {limit : Option Nat}
    (hlimit : limit ≠ some 0) : Edit.eliminate ⟨strategy, limit⟩ f = .ok ⟨0, 1, true⟩ g := by
  obtain ⟨budget, hbudget⟩ : ∃ budget, limit.getD (f.numInsts + 1) = budget + 1 := by
    rcases limit with - | - | budget
    · exact ⟨f.numInsts, rfl⟩
    · exact absurd rfl hlimit
    · exact ⟨budget, rfl⟩
  rw [eliminate_apply, hbudget, rounds_succ hg, if_pos rfl]

theorem rounds_keeps
    (hsweep : ∀ f, P f → ∃ out g, Edit.sweep strategy f = .ok out.length g ∧ f.Swept g out ∧ P g)
    (h : f.Built) (hf : P f) (removed done budget : Nat) :
    ∃ r out g, Edit.rounds strategy removed done budget f = .ok r g ∧ f.Swept g out ∧ P g ∧
      r.removed = removed + out.length ∧
      (r.reachedFixpoint = true → Edit.sweep strategy g = .ok 0 g) ∧
      (f.numInsts < budget → r.reachedFixpoint = true) := by
  induction budget generalizing f removed done with
  | zero => exact ⟨⟨removed, done, false⟩, [], f, rfl, .refl h, hf, rfl, by simp, by simp⟩
  | succ budget ih =>
    obtain ⟨out, g, hg, hfg, hp⟩ := hsweep f hf
    have hcount := hfg.numInsts_add h.coherent.places
    rw [rounds_succ hg]
    cases out with
    | nil =>
      obtain rfl := hfg.eq_of_nil rfl
      exact ⟨⟨removed, done + 1, true⟩, [], g, rfl, hfg, hp, rfl, fun _ => hg, fun _ => rfl⟩
    | cons i out =>
      obtain ⟨r, out', k, hk, hgk, hkp, hremoved, hfix, hbudget⟩ := ih hfg.built hp
        (removed + (out.length + 1)) (done + 1)
      refine ⟨r, _, k, hk, hfg.trans hgk, hkp, ?_, hfix, fun hlt => hbudget ?_⟩
      · rw [hremoved, List.length_append, List.length_cons, Nat.add_assoc]
      · rw [List.length_cons] at hcount
        omega

/-- **What every round keeps is kept by the elimination.** When the rounds ended by themselves a further
one takes nothing out, and without a limit they do. -/
theorem eliminate_keeps (config : EliminationConfig)
    (hsweep : ∀ f, P f →
      ∃ out g, Edit.sweep config.strategy f = .ok out.length g ∧ f.Swept g out ∧ P g)
    (h : f.Built) (hf : P f) :
    ∃ r out g, Edit.eliminate config f = .ok r g ∧ f.Swept g out ∧ P g ∧ r.removed = out.length ∧
      (r.reachedFixpoint = true → Edit.sweep config.strategy g = .ok 0 g) ∧
      (config.maxRounds = none → r.reachedFixpoint = true) := by
  obtain ⟨r, out, g, hg, hfg, hp, hremoved, hfix, hbudget⟩ :=
    rounds_keeps hsweep h hf 0 0 (config.maxRounds.getD (f.numInsts + 1))
  refine ⟨r, out, g, hg, hfg, hp, by rw [hremoved, Nat.zero_add], hfix, fun hnone => hbudget ?_⟩
  rw [hnone]
  exact Nat.lt_succ_self _

/-- What rounds by liveness keep of a function that is orderly, beside that. -/
theorem eliminate_liveness_keeps (limit : Option Nat)
    (hround : ∀ f g, f.Built → f.Orderly → P f → g.Built → f.Thinned g (f.deadInsts f.liveness) →
      P g) (h : f.Built) (ho : f.Orderly) (ht : f.TargetsExist) (hf : P f) :
    ∃ r g, Edit.eliminate ⟨.liveness, limit⟩ f = .ok r g ∧ g.Built ∧ g.Orderly ∧ P g := by
  have hsweep : ∀ f, (f.Built ∧ f.Orderly ∧ f.TargetsExist ∧ P f) →
      ∃ out g, Edit.sweep .liveness f = .ok out.length g ∧ f.Swept g out ∧
        g.Built ∧ g.Orderly ∧ g.TargetsExist ∧ P g := by
    rintro f ⟨h, ho, ht, hf⟩
    obtain ⟨g, hg, hfg⟩ := sweep_liveness_eq_ok h ht
    exact ⟨_, g, hg, hfg, hfg.built, ho.thinned hfg.thinned hfg.removable, ht.thinned hfg.thinned,
      hround f g h ho hf hfg.built hfg.thinned⟩
  obtain ⟨r, -, g, hg, -, ⟨hgb, hgo, -, hp⟩, -⟩ :=
    eliminate_keeps ⟨.liveness, limit⟩ hsweep h ⟨h, ho, ht, hf⟩
  exact ⟨r, g, hg, hgb, hgo, hp⟩

end Rounds

end Function

end SsaPrune
