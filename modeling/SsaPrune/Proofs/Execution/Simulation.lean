import SsaPrune.Proofs.Execution.Machine
import SsaPrune.Proofs.Function.Thinned
import SsaPrune.Proofs.Liveness.Walks
import SsaPrune.Proofs.Validation

/-!
# Instructions whose results do not matter

Some instructions without effects are to be taken out. Suppose that for each instruction there is a
set of values that may matter after it, such that it contains what matters after the instruction that
follows and, if that one is left, what it uses (`Function.Covers`). When the results of what is taken
out do not matter, the two executions keep the same pace, and at each point the environments agree on
the values that matter there. `indistinguishable_of_dead` is the result.

The live values are such sets. So are, at every point, all values that some instruction uses which is
left.
-/

namespace SsaPrune

namespace Function

/-- The values that may matter after an instruction contain what may matter before the next one, when
the instructions of `out` are to be taken out. -/
def Covers (f : Function) (out : List InstId) (after : InstId → ValueId → Prop) : Prop :=
  ∀ i j v, i ∈ f.attached → f.Follows i j →
    j ∉ out ∧ f.UsedOnArrival i j v ∨ f.result? j ≠ some v ∧ after j v → after i v

/-- What may matter before an instruction that is not a phi. -/
def Before (f : Function) (out : List InstId) (after : InstId → ValueId → Prop) (i : InstId)
    (v : ValueId) : Prop :=
  i ∉ out ∧ v ∈ f.valueOperands i ∨ f.result? i ≠ some v ∧ after i v

/-- The instructions of `out` have no effects, and their results do not matter after them. -/
def DeadAfter (f : Function) (after : InstId → ValueId → Prop) (out : List InstId) : Prop :=
  ∀ i ∈ out, f.isRemovable i = true ∧ ∀ v, f.result? i = some v → ¬after i v

theorem DeadAfter.allRemovable {f : Function} {after : InstId → ValueId → Prop} {out : List InstId}
    (h : f.DeadAfter after out) : f.AllRemovable out := fun i hi => (h i hi).1

variable {f : Function} {out : List InstId} {i : InstId}

theorem covers_liveAfter (f : Function) (out : List InstId) :
    f.Covers out fun i v => f.LiveAfter v i :=
  fun _ j _ _ hf h => liveAfter_iff.mpr ⟨j, hf, h.imp_left And.right⟩

/-- What matters before the first instruction after some phis, and is not defined by one of them,
matters before the phis. -/
theorem Covers.after_of_phis {after : InstId → ValueId → Prop} (hc : f.Covers out after)
    (hp : f.PlacesAgree) {c : BlockId} {pre phis rest : List InstId} {k : InstId} {v : ValueId}
    (hlist : f.instsOf c = pre ++ (phis ++ k :: rest)) (hphis : ∀ p ∈ phis, f.isPhi p = true)
    (hk : f.isPhi k = false) (hv : f.Before out after k v) (hres : ∀ p ∈ phis, f.result? p ≠ some v)
    (hi : i ∈ f.attached) (hf : ∀ j, (phis ++ k :: rest).head? = some j → f.Follows i j) :
    after i v := by
  induction phis generalizing pre i with
  | nil => exact hc i k v hi (hf k rfl) (hv.imp_left fun hu => ⟨hu.1, .inl ⟨hk, hu.2⟩⟩)
  | cons p phis ih =>
    have hpc : p ∈ f.instsOf c := by simp [hlist]
    have hpa : p ∈ f.attached := hp.mem_attached hpc
    have hnext : ∀ j, (phis ++ k :: rest).head? = some j → f.Follows p j := fun j hj => by
      obtain ⟨after, hafter⟩ := List.head?_eq_some_iff.mp hj
      have hsplit : f.instsOf c = pre ++ p :: j :: after := by rw [hlist, List.cons_append, hafter]
      exact .next (isTerminator_of_isPhi (hphis p List.mem_cons_self)) hsplit
    have hlist' : f.instsOf c = (pre ++ [p]) ++ (phis ++ k :: rest) := by simp [hlist]
    have hp' : after p v := ih hlist' (fun q hq => hphis q (List.mem_cons_of_mem _ hq))
      (fun q hq => hres q (List.mem_cons_of_mem _ hq)) hpa hnext
    exact hc i p v hi (hf p rfl) (.inr ⟨hres p List.mem_cons_self, hp'⟩)

end Function

/-! ## Environments that agree -/

/-- The environments give the same content to the values of `P`. -/
def AgreeOn {V : Type} (P : ValueId → Prop) (env env' : ValueId → V) : Prop :=
  ∀ v, P v → env v = env' v

theorem AgreeOn.define_both {V : Type} {P : ValueId → Prop} {env env' : ValueId → V}
    {r : Option ValueId} (h : AgreeOn (fun v => r ≠ some v ∧ P v) env env') (x : V) :
    AgreeOn P (define r x env) (define r x env') := by
  intro v hv
  unfold define
  split
  · rfl
  · rename_i hr
    exact h v ⟨hr, hv⟩

theorem AgreeOn.define_dead {V : Type} {P : ValueId → Prop} {env env' : ValueId → V}
    {r : Option ValueId} (h : AgreeOn (fun v => r ≠ some v ∧ P v) env env')
    (hr : ∀ v, r = some v → ¬P v) (x : V) : AgreeOn P (define r x env) env' := by
  intro v hv
  unfold define
  split
  · rename_i hrv
    exact absurd hv (hr v hrv)
  · rename_i hrv
    exact h v ⟨hrv, hv⟩

namespace Interpretation

open SsaPrune.Function

variable {V M E : Type} (I : Interpretation V M E) {f g : Function} {out : List InstId}
  {after : InstId → ValueId → Prop}

/-- The environments with which a block is entered agree on what matters there: they are the same at
the start, and agree on what matters after the terminator from which control came. -/
def Arrives (f : Function) (after : InstId → ValueId → Prop) (source : Option BlockId) (c : BlockId)
    (env env' : ValueId → V) : Prop :=
  source = none ∧ env = env' ∨
    ∃ b t, source = some b ∧ t ∈ f.instsOf b ∧ f.isTerminator t = true ∧ c ∈ f.successors t ∧
      AgreeOn (after t) env env'

/-- The executions stand at the same place and have left the same behind. -/
inductive Matches (f : Function) (after : InstId → ValueId → Prop) :
    Status V (State V M E) → Status V (State V M E) → Prop
  | entering {source : Option BlockId} {c : BlockId} {s s' : State V M E}
      (he : s.effects = s'.effects) (ha : Arrives f after source c s.env s'.env) :
      Matches f after (.entering source c s) (.entering source c s')
  | returned {values : List V} {s s' : State V M E} (he : s.effects = s'.effects) :
      Matches f after (.returned values s) (.returned values s')
  | trapped {s s' : State V M E} (he : s.effects = s'.effects) :
      Matches f after (.trapped s) (.trapped s')
  | stuck {s s' : State V M E} (he : s.effects = s'.effects) :
      Matches f after (.stuck s) (.stuck s')

theorem Matches.map_effects {a b : Status V (State V M E)} (h : Matches f after a b) :
    a.map State.effects = b.map State.effects := by
  cases h with
  | entering he => simp only [Status.map, he]
  | returned he => simp only [Status.map, he]
  | trapped he => simp only [Status.map, he]
  | stuck he => simp only [Status.map, he]

/-! ## The phis of a block -/

theorem agreeOn_enter {source : Option BlockId} {env env' : ValueId → V} {phis : List InstId}
    {P : ValueId → Prop} (ht : f.Thinned g out)
    (hx : ∀ p ∈ phis, I.phiValue f source env p = I.phiValue g source env' p)
    (h : AgreeOn (fun v => (∀ p ∈ phis, f.result? p ≠ some v) ∧ P v) env env') :
    AgreeOn P (I.enter f source env phis) (I.enter g source env' phis) := by
  induction phis generalizing P with
  | nil => exact fun v hv => h v ⟨by simp, hv⟩
  | cons p phis ih =>
    rw [enter, enter, ht.result?, ← hx p List.mem_cons_self]
    refine AgreeOn.define_both (ih (fun q hq => hx q (List.mem_cons_of_mem _ hq)) ?_) _
    exact fun v hv => h v ⟨List.forall_mem_cons.mpr ⟨hv.2.1, hv.1⟩, hv.2.2⟩

/-- The phis read the same values from environments with which their block may be entered. -/
theorem phiValue_eq {source : Option BlockId} {c : BlockId} {env env' : ValueId → V} {p : InstId}
    (hc : f.Covers out after) (hp : f.PlacesAgree) (ht : f.Thinned g out)
    (hr : f.AllRemovable out) (ha : Arrives f after source c env env') (hphi : p ∈ f.leadingPhis c) :
    I.phiValue f source env p = I.phiValue g source env' p := by
  unfold phiValue
  rw [ht.incoming]
  rcases ha with ⟨rfl, rfl⟩ | ⟨b, t, rfl, htb, hterm, hcs, hagree⟩
  · rfl
  · simp only [Option.bind_some]
    cases hx : (f.incoming p).find? (·.1 = b) with
    | none => rfl
    | some pair =>
      obtain ⟨b', x⟩ := pair
      obtain rfl : b' = b := by simpa using List.find?_some hx
      cases x with
      | imm n => rfl
      | value v =>
        obtain ⟨j, hj, hjphi⟩ := exists_first?_of_mem_leadingPhis hphi
        have htf := hp.mem_attached htb
        have huse : f.UsedOnArrival t j v := .inr ⟨hterm, hjphi, b', c, htb, mem_of_first? hj, p,
          hphi, List.mem_of_find?_eq_some hx⟩
        exact hagree v (hc t j v htf (.jump hterm hcs hj) (.inl ⟨hr.not_mem_of_isPhi hjphi, huse⟩))

/-- After the phis, the environments agree on what matters before the next instruction. -/
theorem agreeOn_enter_leadingPhis {source : Option BlockId} {c : BlockId} {env env' : ValueId → V}
    {k : InstId} {rest : List InstId} (hc : f.Covers out after) (hp : f.PlacesAgree)
    (ht : f.Thinned g out) (hr : f.AllRemovable out) (ha : Arrives f after source c env env')
    (hlist : (f.instsOf c).dropWhile f.isPhi = k :: rest) (hk : f.isPhi k = false) :
    AgreeOn (f.Before out after k) (I.enter f source env (f.leadingPhis c))
      (I.enter g source env' (f.leadingPhis c)) := by
  refine I.agreeOn_enter ht (fun p hpc => I.phiValue_eq hc hp ht hr ha hpc) fun v hv => ?_
  obtain ⟨hres, hv⟩ := hv
  rcases ha with ⟨-, rfl⟩ | ⟨b, t, -, htb, hterm, hcs, hagree⟩
  · rfl
  · have hsplit : f.instsOf c = [] ++ (f.leadingPhis c ++ k :: rest) := by
      rw [List.nil_append, leadingPhis, ← hlist, List.takeWhile_append_dropWhile]
    refine hagree v (hc.after_of_phis hp hsplit (fun p hpc => isPhi_of_mem_leadingPhis hpc)
      hk hv hres (hp.mem_attached htb) fun j hj => ?_)
    exact .jump hterm hcs (by rw [first?, hsplit]; exact hj)

/-! ## The instructions of a block -/

theorem map_eval_eq {d : Instruction} {i : InstId} {env env' : ValueId → V}
    (hd : f.inst? i = some d) (hi : i ∉ out) (h : AgreeOn (f.Before out after i) env env') :
    d.operands.map (I.eval env) = d.operands.map (I.eval env') := by
  refine List.map_congr_left fun x hx => ?_
  cases x with
  | imm n => rfl
  | value v =>
    have hv : v ∈ f.valueOperands i := by
      rw [valueOperands, hd]
      exact mem_values.mpr hx
    exact h v (.inl ⟨hi, hv⟩)

theorem target?_eq {d : Instruction} {env env' : ValueId → V}
    (h : d.operands.map (I.eval env) = d.operands.map (I.eval env')) :
    I.target? d env = I.target? d env' := by
  have hhead := congrArg List.head? h
  rw [List.head?_map, List.head?_map] at hhead
  unfold target?
  cases d.opcode with
  | condbr =>
    cases hx : d.operands.head? with
    | none => rfl
    | some x =>
      rw [hx] at hhead
      simp only [Option.map_some, Option.some.injEq] at hhead
      simp only [Option.bind_some, hhead]
  | _ => rfl

theorem mem_successors_of_target? {d : Instruction} {env : ValueId → V} {c : BlockId}
    (h : I.target? d env = some c) : c ∈ d.successors := by
  unfold target? at h
  split at h
  · exact List.mem_of_mem_head? h
  · obtain ⟨x, -, hx⟩ := Option.bind_eq_some_iff.mp h
    exact List.mem_of_getElem? hx
  · cases h

/-- Terminators at which the environments agree lead to the same place. -/
theorem matches_leave {b : BlockId} {i : InstId} {d : Instruction} {s s' : State V M E}
    (ho : f.Orderly) (hp : f.PlacesAgree) (hr : f.AllRemovable out) (hi : i ∈ f.instsOf b)
    (hd : f.inst? i = some d) (hterm : f.isTerminator i = true) (he : s.effects = s'.effects)
    (ha : AgreeOn (f.Before out after i) s.env s'.env) (p : Option BlockId) :
    Matches f after (I.leave b d s) (I.leave b { d with parent := p } s') := by
  have hvalues := I.map_eval_eq hd (hr.not_mem_of_isTerminator hterm) ha
  have hafter : AgreeOn (after i) s.env s'.env := fun v hv =>
    ha v (.inr ⟨by simp [ho.result?_of_isTerminator hp hi hterm], hv⟩)
  have hbranch : Matches f after (goTo b (I.target? d s.env) s) (goTo b (I.target? d s'.env) s') := by
    rw [← I.target?_eq hvalues]
    cases hc : I.target? d s.env with
    | none => exact .stuck he
    | some c =>
      have hcs : c ∈ f.successors i := by
        rw [Function.successors, hd]
        exact I.mem_successors_of_target? hc
      exact .entering he (.inr ⟨b, i, rfl, hi, hterm, hcs, hafter⟩)
  change Matches f after (I.leave b d s) (I.leave b d s')
  unfold leave
  cases hopcode : d.opcode with
  | ret =>
    simp only [hvalues]
    exact .returned he
  | unreachable => exact .trapped he
  | _ => exact hbranch

/-- What may matter before the next instruction matters after the one before it. -/
theorem agreeOn_before {i j : InstId} {env env' : ValueId → V} (hc : f.Covers out after)
    (hi : i ∈ f.attached) (hf : f.Follows i j) (hj : f.isPhi j = false)
    (h : AgreeOn (after i) env env') : AgreeOn (f.Before out after j) env env' := by
  intro v hv
  exact h v (hc i j v hi hf (hv.imp_left fun hu => ⟨hu.1, .inl ⟨hj, hu.2⟩⟩))

section Execute

variable {P : ValueId → Prop} {r : Option ValueId} {d : Instruction} {s s' : State V M E}

/-- Executing an instruction in both states. -/
theorem execute_both (hvalues : d.operands.map (I.eval s.env) = d.operands.map (I.eval s'.env))
    (he : s.effects = s'.effects) (h : AgreeOn (fun v => r ≠ some v ∧ P v) s.env s'.env)
    (p : Option BlockId) :
    (I.execute r d s).effects = (I.execute r { d with parent := p } s').effects ∧
      AgreeOn P (I.execute r d s).env (I.execute r { d with parent := p } s').env := by
  simp only [execute, hvalues, he]
  split
  · exact ⟨rfl, h.define_both _⟩
  · exact ⟨rfl, h.define_both _⟩

/-- Executing an instruction in one state only, when it has no effects and its result is not needed. -/
theorem execute_dead (hd : d.opcode.hasSideEffects = false)
    (h : AgreeOn (fun v => r ≠ some v ∧ P v) s.env s'.env) (hr : ∀ v, r = some v → ¬P v) :
    (I.execute r d s).effects = s.effects ∧ AgreeOn P (I.execute r d s).env s'.env := by
  simp only [execute, hd, Bool.false_eq_true, if_false, true_and]
  exact h.define_dead hr _

end Execute

theorem matches_runInsts {b : BlockId} {is pre : List InstId} {s s' : State V M E}
    (ho : f.Orderly) (hc : f.Covers out after) (hp : f.PlacesAgree) (ht : f.Thinned g out)
    (hdead : f.DeadAfter after out) (hlist : f.instsOf b = pre ++ is)
    (hphis : ∀ i ∈ is, f.isPhi i = false) (he : s.effects = s'.effects)
    (ha : ∀ i, is.head? = some i → AgreeOn (f.Before out after i) s.env s'.env) :
    Matches f after (I.runInsts f b is s) (I.runInsts g b (is.filter (· ∉ out)) s') := by
  induction is generalizing pre s s' with
  | nil => exact .stuck he
  | cons i is ih =>
    have hib : i ∈ f.instsOf b := by simp [hlist]
    have hparent := (hp.parent_iff i b).mpr hib
    have hattached : i ∈ f.attached := hp.mem_attached hib
    obtain ⟨d, hd, -⟩ := (f.parent?_eq_some i).mp hparent
    have hterm := isTerminator_of_inst? hd
    have hphi := (isPhi_of_inst? hd).symm.trans (hphis i List.mem_cons_self)
    have hagree := ha i rfl
    have hbefore : AgreeOn (fun v => f.result? i ≠ some v ∧ after i v) s.env s'.env :=
      fun v hv => hagree v (.inr hv)
    -- once the environments agree on what matters after `i`, the rest of the block follows
    have hrest : ∀ {t t' : State V M E}, f.isTerminator i = false → t.effects = t'.effects →
        AgreeOn (after i) t.env t'.env →
        Matches f after (I.runInsts f b is t) (I.runInsts g b (is.filter (· ∉ out)) t') := by
      intro t t' hno hte hta
      have hlist' : f.instsOf b = (pre ++ [i]) ++ is := by simp [hlist]
      refine ih hlist' (fun j hj => hphis j (List.mem_cons_of_mem _ hj)) hte fun j hj => ?_
      obtain ⟨post, hpost⟩ := List.head?_eq_some_iff.mp hj
      have hnext : f.Follows i j := .next hno (by rw [hlist, hpost])
      have hjphi := hphis j (List.mem_cons_of_mem _ (List.mem_of_mem_head? hj))
      exact agreeOn_before hc hattached hnext hjphi hta
    by_cases hout : i ∈ out
    · -- only the first execution meets the instruction
      obtain ⟨hremovable, hres⟩ := hdead i hout
      obtain ⟨hno, -, heffects⟩ := isRemovable_iff.mp hremovable
      rw [hasSideEffects_of_inst? hd] at heffects
      rw [List.filter_cons_of_neg (by simpa using hout), runInsts, hd]
      simp only [← hterm, hno, hphi, Bool.false_eq_true, if_false]
      obtain ⟨hte, hta⟩ := I.execute_dead heffects hbefore hres
      exact hrest hno (hte.trans he) hta
    · obtain ⟨p, hg⟩ := ht.exists_inst? hd
      rw [List.filter_cons_of_pos (by simpa using hout), runInsts, runInsts, hd, hg]
      simp only [← hterm, hphi, Bool.false_eq_true, if_false]
      cases hno : f.isTerminator i with
      | true => exact I.matches_leave ho hp hdead.allRemovable hib hd hno he hagree p
      | false =>
        simp only [Bool.false_eq_true, if_false, ht.result?]
        have hvalues := I.map_eval_eq hd hout hagree
        obtain ⟨hte, hta⟩ := I.execute_both hvalues he hbefore p
        exact hrest hno hte hta

/-! ## Blocks and executions -/

theorem takeWhile_isPhi_append {phis rest : List InstId} (hphis : ∀ i ∈ phis, f.isPhi i = true)
    (hrest : ∀ i ∈ rest, f.isPhi i = false) :
    (phis ++ rest).takeWhile f.isPhi = phis ∧ (phis ++ rest).dropWhile f.isPhi = rest := by
  rw [List.takeWhile_append_of_pos hphis, List.dropWhile_append_of_pos hphis]
  cases rest with
  | nil => simp
  | cons i rest => simp [hrest i List.mem_cons_self]

/-- What is taken out of a block stands behind its phis. -/
theorem split_thinned (ho : f.Orderly) (ht : f.Thinned g out) (hdead : f.DeadAfter after out)
    (c : BlockId) : g.leadingPhis c = f.leadingPhis c ∧
      (g.instsOf c).dropWhile g.isPhi =
        ((f.instsOf c).dropWhile f.isPhi).filter (· ∉ out) := by
  have hphis : ∀ i ∈ (f.instsOf c).takeWhile f.isPhi, f.isPhi i = true :=
    List.all_eq_true.mp List.all_takeWhile
  have hkept : ((f.instsOf c).takeWhile f.isPhi).filter (· ∉ out) =
      (f.instsOf c).takeWhile f.isPhi := by
    refine List.filter_eq_self.mpr fun i hi => ?_
    have hno : i ∉ out := hdead.allRemovable.not_mem_of_isPhi (hphis i hi)
    simpa using hno
  have hlist : g.instsOf c = (f.instsOf c).takeWhile f.isPhi ++
      ((f.instsOf c).dropWhile f.isPhi).filter (· ∉ out) := by
    rw [ht.instsOf, ← hkept, ← List.filter_append, List.takeWhile_append_dropWhile]
  have hphi : g.isPhi = f.isPhi := funext ht.isPhi
  rw [Function.leadingPhis, hlist, hphi]
  exact takeWhile_isPhi_append hphis fun i hi =>
    ho.isPhi_of_mem_dropWhile (List.mem_of_mem_filter hi)

theorem Matches.step {a b : Status V (State V M E)} (ho : f.Orderly) (hc : f.Covers out after)
    (hp : f.PlacesAgree) (ht : f.Thinned g out) (hdead : f.DeadAfter after out)
    (h : Matches f after a b) : Matches f after (I.step f a) (I.step g b) := by
  cases h with
  | @entering source c s s' he ha =>
    obtain ⟨hphis, hrest⟩ := split_thinned ho ht hdead c
    rw [Interpretation.step, Interpretation.step, hphis, hrest]
    refine I.matches_runInsts ho hc hp ht hdead (List.takeWhile_append_dropWhile).symm
      (fun i => ho.isPhi_of_mem_dropWhile) he fun k hk => ?_
    obtain ⟨rest, hlist⟩ := List.head?_eq_some_iff.mp hk
    have hkphi := ho.isPhi_of_mem_dropWhile (List.mem_of_mem_head? hk)
    exact I.agreeOn_enter_leadingPhis hc hp ht hdead.allRemovable ha hlist hkphi
  | returned he => exact .returned he
  | trapped he => exact .trapped he
  | stuck he => exact .stuck he

theorem matches_run (ho : f.Orderly) (hc : f.Covers out after) (hp : f.PlacesAgree)
    (ht : f.Thinned g out) (hdead : f.DeadAfter after out) (n : Nat) :
    Matches f after (I.run f n) (I.run g n) := by
  induction n with
  | zero =>
    have hentry : g.entry? = f.entry? := congrArg List.head? ht.layout
    rw [run, run, start, start, hentry]
    cases f.entry? with
    | none => exact .stuck rfl
    | some b => exact .entering rfl (.inl ⟨rfl, rfl⟩)
  | succ n ih => exact ih.step I ho hc hp ht hdead

end Interpretation

/-- **Taking out instructions whose results do not matter cannot be observed.** -/
theorem indistinguishable_of_dead {f g : Function} {out : List InstId}
    {after : InstId → ValueId → Prop} (ho : f.Orderly) (hc : f.Covers out after) (hp : f.PlacesAgree)
    (ht : f.Thinned g out) (hdead : f.DeadAfter after out) : Indistinguishable f g :=
  fun _ _ _ I n => (I.matches_run ho hc hp ht hdead n).map_effects

end SsaPrune
