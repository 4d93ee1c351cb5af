import SsaPrune.Proofs.Function.Built

/-!
# The lists of uses

The uses of an instruction are listed when it is created and when it is given operands, and no longer
once it is taken out of its block. Placing it leaves them alone, so an instruction that was taken out
and placed again is missing from the lists, and one that was given operands in between stands in them
although no block holds it.

`UsesFollow f listed` says that the lists hold the operands of the `listed` instructions, each use
once, and nothing else; `UsesFollow.request` says which instructions are listed after a request. The
`Stage` of an instruction is what the requests so far made of it, and `mem_usesOf_iff_of_requests` tells
the lists by the stages.
-/

namespace SsaPrune

theorem nodup_positionedValues (operands : List Operand) : (positionedValues operands).Nodup := by
  have hpositions : (operands.zipIdx.map Prod.snd).Nodup := by
    rw [List.zipIdx_map_snd]
    exact List.nodup_range'
  refine List.Nodup.filterMap ?_ (.of_map _ hpositions)
  rintro ⟨x, m⟩ ⟨y, n⟩ ⟨v, k⟩ hx hy
  obtain ⟨w, hw, heq⟩ := Option.map_eq_some_iff.mp hx
  obtain ⟨u, hu, heq'⟩ := Option.map_eq_some_iff.mp hy
  obtain ⟨rfl, rfl⟩ := Prod.mk.inj heq
  obtain ⟨rfl, rfl⟩ := Prod.mk.inj heq'
  cases x <;> cases y <;> simp_all [Operand.value?]

namespace Function

variable {f g : Function} {listed : InstId → Prop} {i j : InstId}

/-! ## Operands after an update -/

theorem operands_withParent (p : Option BlockId) :
    (f.withParent i p).operands j = f.operands j := by
  rw [operands, map_inst?_withParent f i j p _ fun _ => rfl]
  rfl

theorem operands_withOperands (operands : List Operand) :
    (f.withOperands i operands).operands j =
      if i = j ∧ f.Has (.inst j) then operands else f.operands j := by
  have hget : (f.withOperands i operands).inst? j =
      if i = j then (f.inst? j).map ({ · with operands }) else f.inst? j := Arena.get?_modify ..
  have hhas := has_inst_iff (f := f) (i := j)
  unfold Function.operands
  rw [hget]
  by_cases hij : i = j
  · cases hj : f.inst? j with
    | none =>
      have hno : ¬f.Has (.inst j) := fun h => by simpa [hj] using hhas.mp h
      simp [hij, hno]
    | some d =>
      have hyes : f.Has (.inst j) := hhas.mpr ⟨d, hj⟩
      simp [hij, hyes]
  · simp [hij]

/-- Giving an instruction operands anew changes no others. -/
theorem operands_replaced (hi : f.Has (.inst i)) {operands : List Operand} :
    (((f.dropUses i).registerUses i operands).withOperands i operands).operands j =
      if i = j then operands else (f.dropUses i).operands j := by
  have hhas : ((f.dropUses i).registerUses i operands).Has (.inst i) := hi
  rw [operands_withOperands]
  by_cases hij : i = j
  · subst hij
    simp [hhas]
  · simp only [hij, false_and, if_false]
    rfl

theorem operands_push (d : Instruction) : ({ f with insts := f.insts.push d } : Function).operands j =
    if f.insts.next = j then d.operands else f.operands j := by
  unfold Function.operands inst?
  rw [Arena.get?_push]
  by_cases hj : j = f.insts.next
  · rw [if_pos hj, if_pos hj.symm]
    rfl
  · rw [if_neg hj, if_neg (Ne.symm hj)]

theorem operands_of_not_has (h : ¬f.Has (.inst i)) : f.operands i = [] := by
  cases hd : f.inst? i with
  | none => simp [Function.operands, hd]
  | some d => exact absurd (has_inst_iff.mpr ⟨d, hd⟩) h

theorem not_has_next : ¬f.Has (.inst f.insts.next) := fun h => Nat.lt_irrefl _ (f.has_inst.mp h)

/-! ## What is listed -/

/-- The lists of uses hold each operand of a listed instruction once, and nothing else. -/
def UsesFollow (f : Function) (listed : InstId → Prop) : Prop :=
  ∀ v, (f.usesOf v).Nodup ∧
    ∀ i k, Use.mk i k ∈ f.usesOf v ↔ (f.operands i)[k]? = some (.value v) ∧ listed i

namespace UsesFollow

theorem congr (h : f.UsesFollow listed) (ho : ∀ j, g.operands j = f.operands j)
    (hu : g.uses = f.uses) : g.UsesFollow listed := by
  intro v
  have huses : g.usesOf v = f.usesOf v := by rw [usesOf, usesOf, hu]
  simp only [huses, ho]
  exact h v

/-- Only instructions with operands matter. -/
theorem congr_listed {listed' : InstId → Prop} (h : f.UsesFollow listed)
    (hl : ∀ j, f.operands j ≠ [] → (listed j ↔ listed' j)) : f.UsesFollow listed' := by
  refine fun v => ⟨(h v).1, fun j k => ?_⟩
  rw [(h v).2 j k]
  refine and_congr_right fun hk => hl j ?_
  exact List.ne_nil_of_mem (List.mem_of_getElem? hk)

theorem dropUses (h : f.UsesFollow listed) (i : InstId) :
    (f.dropUses i).UsesFollow fun j => listed j ∧ j ≠ i := by
  intro v
  obtain ⟨hnodup, hmem⟩ := h v
  rw [usesOf_dropUses]
  refine ⟨hnodup.filter _, fun j k => ?_⟩
  simp only [List.mem_filter, decide_eq_true_eq, mem_positionedValues, hmem]
  change ((f.operands j)[k]? = some (.value v) ∧ listed j) ∧
    ¬(j = i ∧ (f.operands i)[k]? = some (.value v)) ↔ (f.operands j)[k]? = _ ∧ _
  constructor
  · rintro ⟨⟨hk, hj⟩, hno⟩
    exact ⟨hk, hj, fun hji => hno ⟨hji, hji ▸ hk⟩⟩
  · rintro ⟨hk, hj, hji⟩
    exact ⟨⟨hk, hj⟩, fun hc => hji hc.1⟩

/-- Operands that are given to an instruction whose uses are not listed. -/
theorem registerUses (h : f.UsesFollow listed) (hi : ¬listed i) {operands : List Operand}
    (ho : ∀ j, g.operands j = if i = j then operands else f.operands j)
    (hu : g.uses = (f.registerUses i operands).uses) : g.UsesFollow fun j => j = i ∨ listed j := by
  intro v
  obtain ⟨hnodup, hmem⟩ := h v
  have huses : g.usesOf v = (f.registerUses i operands).usesOf v := by rw [usesOf, usesOf, hu]
  have hnew : ∀ j k, Use.mk j k ∈ (((positionedValues operands).filter fun p => p.1 = v).map
      fun p => Use.mk i p.2) ↔ j = i ∧ operands[k]? = some (.value v) := by
    intro j k
    simp only [List.mem_map, List.mem_filter, decide_eq_true_eq, Prod.exists, Use.mk.injEq]
    constructor
    · rintro ⟨w, n, ⟨hp, rfl⟩, rfl, rfl⟩
      exact ⟨rfl, mem_positionedValues.mp hp⟩
    · rintro ⟨rfl, hk⟩
      exact ⟨v, k, ⟨mem_positionedValues.mpr hk, rfl⟩, rfl, rfl⟩
  rw [huses, usesOf_registerUses]
  refine ⟨List.nodup_append.mpr ⟨hnodup, ?_, ?_⟩, fun j k => ?_⟩
  · refine ((nodup_positionedValues operands).filter _).map_on ?_
    rintro ⟨w, m⟩ hw ⟨u, n⟩ hu heq
    obtain rfl : w = v := of_decide_eq_true (List.mem_filter.mp hw).2
    obtain rfl : u = w := of_decide_eq_true (List.mem_filter.mp hu).2
    obtain ⟨-, rfl⟩ := Use.mk.inj heq
    rfl
  · rintro ⟨j, k⟩ hold ⟨j', k'⟩ hmade heq
    obtain ⟨rfl, rfl⟩ := Use.mk.inj heq
    exact hi (((hnew j k).mp hmade).1 ▸ ((hmem j k).mp hold).2)
  · rw [List.mem_append, hmem, hnew, ho]
    by_cases hji : i = j
    · subst hji
      simp [hi]
    · simp [hji, Ne.symm hji]

end UsesFollow

/-- The instructions that are listed after a request, by those that were listed before it. -/
def Lists (f : Function) (listed : InstId → Prop) : Request → InstId → Prop
  | .create _, j => j = f.insts.next ∨ listed j
  | .setOperands i _, j => j = i ∨ listed j
  | .detach i, j => listed j ∧ ¬(j = i ∧ f.isAttached i = true)
  | _, j => listed j

/-- **What one request does to the lists of uses.** -/
theorem UsesFollow.request {r : Request} (h : f.UsesFollow listed) (hg : r.run f = .ok () g) :
    g.UsesFollow (f.Lists listed r) := by
  have hl := Request.run_eq_ok_iff.mp hg
  cases r with
  | addParam name =>
    subst hl
    exact h.congr (fun _ => rfl) rfl
  | addBlock label =>
    subst hl
    exact h.congr (fun _ => rfl) rfl
  | create d =>
    obtain ⟨-, rfl⟩ := hl
    -- the new instruction had no operands before, so it may count as not listed
    have hbefore : f.UsesFollow fun j => listed j ∧ j ≠ f.insts.next := by
      refine h.congr_listed fun j hj => (and_iff_left ?_).symm
      exact fun hn => hj (operands_of_not_has (hn ▸ not_has_next))
    have hnew : (({ f with insts := f.insts.push d } : Function).registerUses f.insts.next
        d.operands).UsesFollow fun j => j = f.insts.next ∨ listed j ∧ j ≠ f.insts.next :=
      hbefore.registerUses (fun hc => hc.2 rfl) (fun j => operands_push d) rfl
    refine hnew.congr_listed fun j _ => ?_
    change _ ↔ j = f.insts.next ∨ listed j
    by_cases hj : j = f.insts.next <;> simp [hj]
  | defineResult i name =>
    obtain ⟨-, rfl⟩ := hl
    exact h.congr (fun _ => rfl) rfl
  | setOperands i operands =>
    obtain ⟨hi, rfl⟩ := hl
    have hnew : (((f.dropUses i).registerUses i operands).withOperands i operands).UsesFollow
        fun j => j = i ∨ listed j ∧ j ≠ i :=
      (h.dropUses i).registerUses (fun hc => hc.2 rfl) (fun _ => operands_replaced hi) rfl
    refine hnew.congr_listed fun j _ => ?_
    change _ ↔ j = i ∨ listed j
    by_cases hj : j = i <;> simp [hj]
  | append b i =>
    obtain ⟨-, -, -, rfl⟩ := hl
    exact h.congr (fun _ => operands_withParent _) rfl
  | insertBefore anchor i =>
    obtain ⟨-, -, b, -, -, rfl⟩ := hl
    exact h.congr (fun _ => operands_withParent _) rfl
  | detach i =>
    obtain ⟨-, hnone, rfl⟩ | ⟨b, hb, -, rfl⟩ := hl
    · refine h.congr_listed fun j _ => (and_iff_left ?_).symm
      simp [isAttached, hnone]
    · have hplaced : ((f.withParent i none).editBlock b (·.filter (· ≠ i))).UsesFollow listed :=
        h.congr (fun _ => operands_withParent _) rfl
      refine (hplaced.dropUses i).congr_listed fun j _ => and_congr_right fun _ => ?_
      simp [isAttached, hb]

theorem usesFollow_empty (name : String) (listed : InstId → Prop) :
    (empty name).UsesFollow listed := by
  intro v
  have hnone : (empty name).usesOf v = [] := SideTable.get_empty v
  have hoperands : ∀ i, (empty name).operands i = [] := fun _ => rfl
  simp [hnone, hoperands]

end Function

/-! ## Stages -/

/-- What the requests so far made of an instruction. -/
inductive Stage
  /-- No block ever held it. -/
  | pending
  /-- A block holds it. -/
  | placed
  /-- It was taken out of its block. -/
  | takenOut
  /-- It was placed again, with the operands that it had when it was taken out. -/
  | placedAgain
  /-- It was taken out, and given operands since then. -/
  | refitted
  deriving DecidableEq

namespace Stage

def isPlaced : Stage → Bool
  | placed | placedAgain => true
  | pending | takenOut | refitted => false

/-- Whether the uses of the instruction stand in the lists. -/
def isListed : Stage → Bool
  | pending | placed | refitted => true
  | takenOut | placedAgain => false

def place : Stage → Stage
  | pending | placed | refitted => placed
  | takenOut | placedAgain => placedAgain

def takeOut : Stage → Stage
  | placed | placedAgain => takenOut
  | s => s

def refit : Stage → Stage
  | pending => pending
  | placed | placedAgain => placed
  | takenOut | refitted => refitted

/-- The stage of `i` after one more request. -/
def after (i : InstId) (s : Stage) : Request → Stage
  | .append _ j | .insertBefore _ j => if j = i then s.place else s
  | .detach j => if j = i then s.takeOut else s
  | .setOperands j _ => if j = i then s.refit else s
  | _ => s

end Stage

/-- The stage that an instruction is in after some requests. -/
def stageOf (rs : List Request) (i : InstId) : Stage := rs.foldl (Stage.after i) .pending

/-- The request places the instruction in a block. -/
def Request.Places (r : Request) (i : InstId) : Prop :=
  (∃ b, r = .append b i) ∨ ∃ anchor, r = .insertBefore anchor i

namespace Stage

theorem after_eq_pending_iff {i : InstId} {s : Stage} {r : Request} :
    s.after i r = pending ↔ s = pending ∧ ¬r.Places i := by
  cases r with
  | append b j | insertBefore b j =>
    by_cases hj : j = i <;> cases s <;> simp [after, Request.Places, place, hj]
  | detach j => by_cases hj : j = i <;> cases s <;> simp [after, Request.Places, takeOut, hj]
  | setOperands j xs => by_cases hj : j = i <;> cases s <;> simp [after, Request.Places, refit, hj]
  | addParam name | addBlock name | create d | defineResult j name =>
    cases s <;> simp [after, Request.Places]

/-- An instruction is listed exactly when it is in a block or never was in one, but in two stages. -/
theorem isListed_iff {s : Stage} : (s.isListed = true ↔ s.isPlaced = true ∨ s = pending) ↔
    s ≠ placedAgain ∧ s ≠ refitted := by
  cases s <;> decide

theorem isListed_of_isPlaced {s : Stage} (h : s.isPlaced = true) (hs : s ≠ placedAgain) :
    s.isListed = true := by
  cases s <;> simp_all [isPlaced, isListed]

theorem foldl_after_eq_pending_iff {i : InstId} {s : Stage} {rs : List Request} :
    rs.foldl (after i) s = pending ↔ s = pending ∧ ∀ r ∈ rs, ¬r.Places i := by
  induction rs generalizing s with
  | nil => simp
  | cons r rs ih => rw [List.foldl_cons, ih, after_eq_pending_iff, List.forall_mem_cons, and_assoc]

end Stage

theorem stageOf_eq_pending_iff {rs : List Request} {i : InstId} :
    stageOf rs i = .pending ↔ ∀ r ∈ rs, ¬r.Places i := by
  rw [stageOf, Stage.foldl_after_eq_pending_iff]
  exact and_iff_right rfl

namespace Function

variable {f g : Function} {stage : InstId → Stage} {i : InstId}

/-- The stages tell where the instructions are, and which of them are listed. -/
structure InStages (f : Function) (stage : InstId → Stage) : Prop where
  isAttached : ∀ i, f.isAttached i = (stage i).isPlaced
  uses : f.UsesFollow fun i => (stage i).isListed = true
  pending : ∀ i, ¬f.Has (.inst i) → stage i = .pending

theorem inStages_empty (name : String) : (empty name).InStages fun _ => .pending :=
  ⟨fun _ => rfl, usesFollow_empty name _, fun _ _ => rfl⟩

/-- Who is in a block after a request. -/
theorem isAttached_request {r : Request} (hg : r.run f = .ok () g) (i : InstId) :
    g.isAttached i = match r with
      | .append _ j | .insertBefore _ j => j = i || f.isAttached i
      | .detach j => j ≠ i && f.isAttached i
      | _ => f.isAttached i := by
  have hl := Request.run_eq_ok_iff.mp hg
  cases r with
  | addParam name | addBlock label =>
    subst hl
    rfl
  | create d =>
    obtain ⟨hnone, rfl⟩ := hl
    exact congrArg Option.isSome (parent?_push d hnone i)
  | defineResult j name =>
    obtain ⟨-, rfl⟩ := hl
    rfl
  | setOperands j operands =>
    obtain ⟨-, rfl⟩ := hl
    exact congrArg Option.isSome (parent?_withOperands j i operands)
  | append b j =>
    obtain ⟨hj, -, -, rfl⟩ := hl
    change ((f.withParent j (some b)).parent? i).isSome = _
    obtain ⟨d, hd⟩ := has_inst_iff.mp hj
    rw [parent?_withParent]
    by_cases hji : j = i
    · subst hji
      simp [hd]
    · simp [hji, isAttached]
  | insertBefore anchor j =>
    obtain ⟨hj, -, b, -, -, rfl⟩ := hl
    change ((f.withParent j (some b)).parent? i).isSome = _
    obtain ⟨d, hd⟩ := has_inst_iff.mp hj
    rw [parent?_withParent]
    by_cases hji : j = i
    · subst hji
      simp [hd]
    · simp [hji, isAttached]
  | detach j =>
    obtain ⟨-, hnone, rfl⟩ | ⟨b, -, -, rfl⟩ := hl
    · by_cases hji : j = i
      · subst hji
        simp [isAttached, hnone]
      · simp [hji]
    · change ((f.withParent j none).parent? i).isSome = _
      rw [parent?_withParent]
      by_cases hji : j = i
      · subst hji
        cases f.inst? j <;> simp
      · simp [hji, isAttached]

/-- **Stages follow the requests.** -/
theorem InStages.request {r : Request} (h : f.InStages stage) (hg : r.run f = .ok () g) :
    g.InStages fun i => (stage i).after i r := by
  have hnew : ∀ i, ¬g.Has (.inst i) → ¬f.Has (.inst i) := fun i hi hf => hi (hf.request hg)
  refine ⟨fun i => ?_, (h.uses.request hg).congr_listed fun i _ => ?_, fun i hi => ?_⟩
  · have hi := h.isAttached i
    rw [isAttached_request hg, hi]
    cases r with
    | append b j | insertBefore b j =>
      by_cases hj : j = i <;> cases stage i <;> simp [Stage.after, Stage.place, Stage.isPlaced, hj]
    | detach j =>
      by_cases hj : j = i <;> cases stage i <;> simp [Stage.after, Stage.takeOut, Stage.isPlaced, hj]
    | setOperands j xs =>
      by_cases hj : j = i <;> cases stage i <;> simp [Stage.after, Stage.refit, Stage.isPlaced, hj]
    | addParam name | addBlock name | create d | defineResult j name => rfl
  · have hi := h.isAttached i
    cases r with
    | append b j | insertBefore b j =>
      by_cases hj : j = i <;> cases hs : stage i <;>
        simp [Lists, Stage.after, Stage.place, Stage.isListed, hj, hs]
    | detach j =>
      by_cases hj : j = i
      · subst hj
        cases hs : stage j <;> rw [hs] at hi <;>
          simp [Lists, Stage.after, Stage.takeOut, Stage.isListed, hi, hs, Stage.isPlaced]
      · simp [Lists, Stage.after, hj, Ne.symm hj]
    | setOperands j xs =>
      by_cases hj : j = i
      · subst hj
        cases stage j <;> simp [Lists, Stage.after, Stage.refit, Stage.isListed]
      · simp [Lists, Stage.after, hj, Ne.symm hj]
    | create d =>
      have hnext : i = f.insts.next → (stage i).isListed = true := fun he => by
        rw [h.pending i (he ▸ not_has_next)]
        rfl
      exact ⟨fun hc => hc.elim hnext id, .inr⟩
    | addParam name | addBlock name | defineResult j name => exact Iff.rfl
  · rw [Stage.after_eq_pending_iff]
    refine ⟨h.pending i (hnew i hi), ?_⟩
    have hl := Request.run_eq_ok_iff.mp hg
    rintro (⟨b, rfl⟩ | ⟨anchor, rfl⟩) <;> exact hnew i hi hl.1

theorem InStages.requests {rs : List Request} (h : f.InStages stage)
    (hg : rs.forM Request.run f = .ok () g) :
    g.InStages fun i => rs.foldl (Stage.after i) (stage i) := by
  induction rs generalizing f stage with
  | nil =>
    obtain ⟨-, rfl⟩ := EStateM.Result.ok.inj hg
    exact h
  | cons r rs ih =>
    obtain ⟨_, k, hk, hg⟩ := Run.bind_eq_ok.mp hg
    exact ih (h.request hk) hg

/-! ## The lists, by what was asked -/

/-- A return of a parameter that is taken out and placed again. -/
def movedReturn : List Request :=
  [.addBlock (some "entry"), .addParam (some "a"),
    .create { opcode := .ret, operands := [.value ⟨0⟩] },
    .append ⟨0⟩ ⟨0⟩, .detach ⟨0⟩, .append ⟨0⟩ ⟨0⟩]

/-- The same return, given its operand once more at the end. -/
def renewedReturn : List Request := movedReturn ++ [.setOperands ⟨0⟩ [.value ⟨0⟩]]

/-- **The lists of uses, by what was asked.** They hold, each once, the operands of the instructions
that were not taken out since they were last given operands. These are the instructions that a block
holds or none ever held, unless a user of the value was placed again as it was, or given operands
after it was taken out. -/
theorem mem_usesOf_iff_of_requests {name : String} {rs : List Request}
    (h : rs.forM Request.run (.empty name) = .ok () f) (v : ValueId) :
    (f.usesOf v).Nodup ∧
    (∀ i k, Use.mk i k ∈ f.usesOf v ↔
      (f.operands i)[k]? = some (.value v) ∧ (stageOf rs i).isListed = true) ∧
    ((∀ i k, Use.mk i k ∈ f.usesOf v ↔ (f.operands i)[k]? = some (.value v) ∧
        (f.isAttached i = true ∨ ∀ r ∈ rs, ¬r.Places i)) ↔
      ∀ i, v ∈ f.valueOperands i → stageOf rs i ≠ .placedAgain ∧ stageOf rs i ≠ .refitted) ∧
    ∀ i, f.isAttached i = true → v ∈ f.valueOperands i → stageOf rs i ≠ .placedAgain →
      f.hasUses v = true := by
  have hstages : f.InStages (stageOf rs) := (inStages_empty name).requests h
  obtain ⟨hnodup, hmem⟩ := hstages.uses v
  have hoperand : ∀ i, v ∈ f.valueOperands i ↔ ∃ k : Nat, (f.operands i)[k]? = some (.value v) :=
    fun i => by rw [mem_valueOperands, List.mem_iff_getElem?]
  refine ⟨hnodup, hmem, ?_, fun i hi hv hagain => ?_⟩
  · simp only [hmem, and_congr_right_iff, hstages.isAttached, ← stageOf_eq_pending_iff,
      Stage.isListed_iff, hoperand, forall_exists_index]
  · obtain ⟨k, hk⟩ := (hoperand i).mp hv
    have hlisted : (stageOf rs i).isListed = true :=
      Stage.isListed_of_isPlaced (hstages.isAttached i ▸ hi) hagain
    have huse := (hmem i k).mpr ⟨hk, hlisted⟩
    simp [hasUses, List.ne_nil_of_mem huse]

/-- A return that is given its operand once more is listed again. -/
theorem mem_usesOf_iff_renewed : ∃ f, renewedReturn.forM Request.run (.empty "f") = .ok () f ∧
    f.hasUses ⟨0⟩ = true ∧
    ∀ i k, Use.mk i k ∈ f.usesOf ⟨0⟩ ↔ (f.operands i)[k]? = some (.value ⟨0⟩) ∧
      (f.isAttached i = true ∨ ∀ r ∈ renewedReturn, ¬r.Places i) := by
  have hruns : Run.succeeds (renewedReturn.forM Request.run (.empty "f"))
      (fun f => f.isAttached ⟨0⟩ = true ∧ (⟨0⟩ : ValueId) ∈ f.valueOperands ⟨0⟩) = true := by
    decide +kernel
  obtain ⟨_, f, hf, hplaced⟩ := Run.exists_of_succeeds hruns
  obtain ⟨hattached, huse⟩ := of_decide_eq_true hplaced
  obtain ⟨-, -, hiff, hused⟩ := mem_usesOf_iff_of_requests hf ⟨0⟩
  have hstage : ∀ i, stageOf renewedReturn i = if i = ⟨0⟩ then .placed else .pending := by
    intro i
    by_cases hi : i = ⟨0⟩
    · subst hi
      decide
    · simp [stageOf, renewedReturn, movedReturn, Stage.after, hi, Ne.symm hi]
  refine ⟨f, hf, hused ⟨0⟩ hattached huse (by simp [hstage]), hiff.mpr fun i _ => ?_⟩
  rw [hstage]
  split <;> simp

/-- The return that was moved uses the parameter, and is not listed. -/
theorem movedReturn_not_listed : ∃ f, movedReturn.forM Request.run (.empty "f") = .ok () f ∧
    f.isAttached ⟨0⟩ = true ∧ (f.operands ⟨0⟩)[0]? = some (.value ⟨0⟩) ∧
    Use.mk ⟨0⟩ 0 ∉ f.usesOf ⟨0⟩ ∧ f.hasUses ⟨0⟩ = false := by
  have hruns : Run.succeeds (movedReturn.forM Request.run (.empty "f")) (fun f =>
      f.isAttached ⟨0⟩ = true ∧ (f.operands ⟨0⟩)[0]? = some (.value ⟨0⟩) ∧
        Use.mk ⟨0⟩ 0 ∉ f.usesOf ⟨0⟩ ∧ f.hasUses ⟨0⟩ = false) = true := by
    decide +kernel
  obtain ⟨_, f, hf, h⟩ := Run.exists_of_succeeds hruns
  exact ⟨f, hf, of_decide_eq_true h⟩

end Function

end SsaPrune
