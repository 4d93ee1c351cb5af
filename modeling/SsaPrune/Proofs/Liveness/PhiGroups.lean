import SsaPrune.Proofs.Liveness.EdgeUses
import SsaPrune.Proofs.Runs
import SsaPrune.Proofs.Text.RoundTrip

/-!
# What a phi and the phis behind it say of each edge

The sets of a phi in the leading group of its block are told by the incoming pairs of that phi and of
those behind it in the group (`edgeUses_exact`): a block has a set when one of them pairs it with an
operand, be it an immediate, and the values in the set are those that they pair it with. A phi that
stands elsewhere has no sets.

The sets of all phis are found by one loop over the groups. It goes through each from its end, collects
the pairs of one phi after the other, and lets each phi keep what has been collected when it is its turn
(`Gathering.step`). So every phi gets what `edgeUses` says of it alone (`get_edgeUsesTable`).
-/

namespace SsaPrune

namespace EdgeUses

variable {e : EdgeUses} {b c : BlockId} {s : ValueSet}

/-- In ascending order each block has one set, which is found. -/
theorem Ascending.mem_iff (h : e.Ascending) : (b, s) ∈ e ↔ e.lookup b = some s := by
  induction e with
  | nil => simp
  | cons p rest ih =>
    obtain ⟨d, t⟩ := p
    obtain ⟨hd, hrest⟩ := List.pairwise_cons.mp h
    rw [List.mem_cons, ih hrest, List.lookup_cons]
    by_cases hbd : b = d
    · subst hbd
      have hnone : List.lookup b rest = none := lookup_eq_none hd
      simp [hnone, eq_comm]
    · have hbeq : (b == d) = false := by simpa using hbd
      simp [hbd, hbeq]

/-- Every incoming pair makes an entry for its block, whatever its operand. -/
theorem exists_lookup_add (h : e.Ascending) (v : Option ValueId) :
    (∃ s, (e.add b v).lookup c = some s) ↔ b = c ∨ ∃ s, e.lookup c = some s := by
  rw [lookup_add h]
  by_cases hbc : b = c <;> simp [hbc]

theorem exists_lookup_addIncoming (h : e.Ascending) {pairs : List (BlockId × Operand)} :
    (∃ s, (e.addIncoming pairs).lookup c = some s) ↔
      (∃ x, (c, x) ∈ pairs) ∨ ∃ s, e.lookup c = some s := by
  unfold addIncoming
  induction pairs generalizing e with
  | nil => simp
  | cons p pairs ih =>
    obtain ⟨b, x⟩ := p
    rw [List.foldl_cons, ih (h.add b x.value?), exists_lookup_add h]
    constructor
    · rintro (⟨y, hy⟩ | rfl | hs)
      · exact .inl ⟨y, List.mem_cons_of_mem _ hy⟩
      · exact .inl ⟨x, List.mem_cons_self⟩
      · exact .inr hs
    · rintro (⟨y, hy⟩ | hs)
      · rcases List.mem_cons.mp hy with heq | hy
        · exact .inr (.inl (Prod.mk.inj heq).1.symm)
        · exact .inl ⟨y, hy⟩
      · exact .inr (.inr hs)

/-- The sets collect what some phis say: a block has a set when one of them pairs it with an operand,
and in the set are the values that they pair it with. -/
structure Collects (f : Function) (phis : List InstId) (e : EdgeUses) : Prop where
  ascending : e.Ascending
  block_iff : ∀ c, (∃ s, (c, s) ∈ e) ↔ ∃ phi ∈ phis, ∃ x, (c, x) ∈ f.incoming phi
  mem_iff : ∀ c s, (c, s) ∈ e → ∀ v, v ∈ s ↔ ∃ phi ∈ phis, (c, .value v) ∈ f.incoming phi

end EdgeUses

namespace Function

variable {f : Function} {b c : BlockId} {phi : InstId} {before after : List InstId}

theorem exists_lookup_usesOfPhis {phis : List InstId} :
    (∃ s, (f.usesOfPhis phis).lookup c = some s) ↔ ∃ phi ∈ phis, ∃ x, (c, x) ∈ f.incoming phi := by
  induction phis with
  | nil => simp [usesOfPhis]
  | cons phi rest ih =>
    rw [usesOfPhis, EdgeUses.exists_lookup_addIncoming (f.ascending_usesOfPhis rest), ih]
    simp

theorem collects_usesOfPhis (phis : List InstId) : (f.usesOfPhis phis).Collects f phis where
  ascending := f.ascending_usesOfPhis phis
  block_iff c := by simp only [(f.ascending_usesOfPhis phis).mem_iff, exists_lookup_usesOfPhis]
  mem_iff c s hs v := by
    have hlookup := (f.ascending_usesOfPhis phis).mem_iff.mp hs
    rw [← f.has_usesOfPhis, EdgeUses.Has, hlookup]
    simp

/-! ## The leading group -/

/-- The sets of a phi of the leading group are those of the group from this phi on. -/
theorem edgeUses_of_leadingPhis (h : f.PlacesAgree)
    (hgroup : f.leadingPhis b = before ++ phi :: after) :
    f.edgeUses phi = f.usesOfPhis (phi :: after) := by
  have hmem : phi ∈ f.instsOf b := List.takeWhile_subset _ (by
    rw [← leadingPhis, hgroup]
    simp)
  have hnodup : (before ++ phi :: after).Nodup := by
    rw [← hgroup]
    exact (h.nodup b).sublist (List.takeWhile_sublist _)
  have hbefore : ∀ i ∈ before, decide (i ≠ phi) = true := by
    intro i hi
    exact decide_eq_true ((List.nodup_append.mp hnodup).2.2 i hi phi List.mem_cons_self)
  rw [edgeUses, (h.parent_iff phi b).mpr hmem]
  change f.usesOfPhis ((f.leadingPhis b).dropWhile (· ≠ phi)) = _
  rw [hgroup, List.dropWhile_append_of_pos hbefore, List.dropWhile_cons_of_neg (by simp)]

theorem ascending_edgeUses (f : Function) (phi : InstId) : (f.edgeUses phi).Ascending := by
  unfold edgeUses
  cases f.parent? phi with
  | none => exact List.Pairwise.nil
  | some b => exact f.ascending_usesOfPhis _

theorem edgeUses_eq_nil (hno : ∀ b, phi ∉ f.leadingPhis b) : f.edgeUses phi = [] := by
  unfold edgeUses
  cases f.parent? phi with
  | none => rfl
  | some b =>
    have hne : ∀ i ∈ f.leadingPhis b, decide (i ≠ phi) = true :=
      fun i hi => decide_eq_true fun he => hno b (he ▸ hi)
    change f.usesOfPhis ((f.leadingPhis b).dropWhile (· ≠ phi)) = []
    rw [← List.append_nil (f.leadingPhis b), List.dropWhile_append_of_pos hne]
    rfl

/-! ### One loop for all groups -/

/-- Where a loop through a group stands: what was collected so far, and what the phis have kept. -/
structure Gathering where
  collected : EdgeUses := []
  kept : SideTable .inst EdgeUses

/-- One turn: the pairs of a phi are added to those of the phis behind it, and the phi keeps what they
come to. -/
def Gathering.step (f : Function) (s : Gathering) (phi : InstId) : Gathering :=
  let collected := s.collected.addIncoming (f.incoming phi)
  { collected, kept := s.kept.set phi collected }

/-- What has been kept after the group of a block. -/
def gatherGroup (f : Function) (kept : SideTable .inst EdgeUses) (b : BlockId) :
    SideTable .inst EdgeUses :=
  ((f.leadingPhis b).reverse.foldl (Gathering.step f) { kept }).kept

/-- What all phis have kept after the groups of all blocks. -/
def edgeUsesTable (f : Function) : SideTable .inst EdgeUses := f.layout.foldl f.gatherGroup .empty

theorem collected_foldl_step (f : Function) (group : List InstId) (kept : SideTable .inst EdgeUses) :
    (group.reverse.foldl (Gathering.step f) { kept }).collected = f.usesOfPhis group := by
  induction group with
  | nil => rfl
  | cons phi group ih =>
    rw [List.reverse_cons, List.foldl_append, List.foldl_cons, List.foldl_nil, Gathering.step, ih]
    rfl

/-- A phi of the group keeps what the group says from there on. -/
theorem get_kept_foldl_step (f : Function) (group : List InstId) (kept : SideTable .inst EdgeUses)
    (phi : InstId) : (group.reverse.foldl (Gathering.step f) { kept }).kept.get phi =
      if phi ∈ group then f.usesOfPhis (group.dropWhile (· ≠ phi)) else kept.get phi := by
  induction group with
  | nil => simp
  | cons q group ih =>
    rw [List.reverse_cons, List.foldl_append, List.foldl_cons, List.foldl_nil, Gathering.step,
      collected_foldl_step, SideTable.get_set, ih]
    by_cases hq : q = phi
    · subst hq
      simp [usesOfPhis]
    · simp [hq, Ne.symm hq]

theorem get_gatherGroup (kept : SideTable .inst EdgeUses) : (f.gatherGroup kept b).get phi =
    if phi ∈ f.leadingPhis b then f.usesOfPhis ((f.leadingPhis b).dropWhile (· ≠ phi))
    else kept.get phi :=
  f.get_kept_foldl_step (f.leadingPhis b) kept phi

/-- A phi that is in none of the groups keeps nothing in them. -/
theorem get_foldl_gatherGroup_of_notMem {bs : List BlockId} (h : ∀ b ∈ bs, phi ∉ f.leadingPhis b)
    (kept : SideTable .inst EdgeUses) : (bs.foldl f.gatherGroup kept).get phi = kept.get phi := by
  induction bs generalizing kept with
  | nil => rfl
  | cons b bs ih =>
    obtain ⟨hb, hbs⟩ := List.forall_mem_cons.mp h
    rw [List.foldl_cons, ih hbs, get_gatherGroup, if_neg hb]

/-- A phi keeps what the group of its block says from there on, since no other block has it. -/
theorem get_foldl_gatherGroup (hp : f.PlacesAgree) (hphi : phi ∈ f.leadingPhis b) {bs : List BlockId}
    (hb : b ∈ bs) (kept : SideTable .inst EdgeUses) : (bs.foldl f.gatherGroup kept).get phi =
      f.usesOfPhis ((f.leadingPhis b).dropWhile (· ≠ phi)) := by
  induction bs generalizing kept with
  | nil => cases hb
  | cons c bs ih =>
    rw [List.foldl_cons]
    by_cases hlater : b ∈ bs
    · exact ih hlater _
    · obtain rfl := (List.mem_cons.mp hb).resolve_right hlater
      have hnone : ∀ d ∈ bs, phi ∉ f.leadingPhis d := by
        intro d hd hmem
        have hbd := hp.eq_of_mem (List.takeWhile_subset _ hphi) (List.takeWhile_subset _ hmem)
        exact hlater (hbd ▸ hd)
      rw [get_foldl_gatherGroup_of_notMem hnone, get_gatherGroup, if_pos hphi]

/-- **The loop gives each phi its own sets.** -/
theorem get_edgeUsesTable (hp : f.PlacesAgree) (phi : InstId) :
    f.edgeUsesTable.get phi = f.edgeUses phi := by
  by_cases hgroup : ∃ b, phi ∈ f.leadingPhis b
  · obtain ⟨b, hphi⟩ := hgroup
    have hmem : phi ∈ f.instsOf b := List.takeWhile_subset _ hphi
    have hb : b ∈ f.layout := hp.mem_layout_iff.mpr (has_block_of_mem_instsOf hmem)
    rw [edgeUsesTable, get_foldl_gatherGroup hp hphi hb, edgeUses, (hp.parent_iff phi b).mpr hmem]
  · have hno : ∀ b, phi ∉ f.leadingPhis b := fun b hb => hgroup ⟨b, hb⟩
    rw [edgeUsesTable, get_foldl_gatherGroup_of_notMem fun b _ => hno b, edgeUses_eq_nil hno]
    exact SideTable.get_empty phi

/-- Where each incoming block has its operand, the pairs name all of them. -/
theorem exists_mem_incoming_iff
    (hlen : ∀ d ∈ f.inst? phi, d.phiBlocks.length ≤ d.operands.length) :
    (∃ x, (c, x) ∈ f.incoming phi) ↔ ∃ d ∈ f.inst? phi, c ∈ d.phiBlocks := by
  unfold Function.incoming
  cases hd : f.inst? phi with
  | none => simp
  | some d =>
    have hkeys : d.incoming.map Prod.fst = d.phiBlocks := List.map_fst_zip (hlen d hd)
    simp [← hkeys]

/-- **The sets of a phi are exact.** In a leading group they collect the incoming pairs of the phi and
of those behind it, in ascending order of the blocks: a block is named when it stands in a pair of
`incoming`. An incoming block that has no operand at its place is in no pair, so the blocks are those of
`phiBlocks` where no phi has more blocks than operands. What is looked up is what stands there. A phi that
stands in no leading group has no sets. The loop over all groups keeps these sets for the phi. -/
theorem edgeUses_exact (h : f.PlacesAgree) (phi : InstId) :
    (∀ b before after, f.leadingPhis b = before ++ phi :: after →
      (f.edgeUses phi).Collects f (phi :: after) ∧
      ((∀ q ∈ phi :: after, ∀ d ∈ f.inst? q, d.phiBlocks.length ≤ d.operands.length) →
        ∀ c, (∃ s, (c, s) ∈ f.edgeUses phi) ↔ ∃ q ∈ phi :: after, ∃ d ∈ f.inst? q, c ∈ d.phiBlocks)) ∧
    (∀ c s, f.edgeUsesFrom? phi c = some s ↔ (c, s) ∈ f.edgeUses phi) ∧
    ((∀ b, phi ∉ f.leadingPhis b) → f.edgeUses phi = []) ∧
    f.edgeUsesTable.get phi = f.edgeUses phi := by
  refine ⟨fun b before after hgroup => ?_, fun c s => ?_, edgeUses_eq_nil, get_edgeUsesTable h phi⟩
  · rw [edgeUses_of_leadingPhis h hgroup]
    have hcollects := f.collects_usesOfPhis (phi :: after)
    refine ⟨hcollects, fun hlen c => ?_⟩
    rw [hcollects.block_iff]
    exact exists_congr fun q => and_congr_right fun hq => exists_mem_incoming_iff (hlen q hq)
  · exact (f.ascending_edgeUses phi).mem_iff.symm

/-- A group of three phis, of which the first names a block twice, the second has an immediate and the
third names a block that the others do not; behind it stands a phi that is not part of the group. -/
theorem edgeUses_exact_misplaced : ∃ fs,
    parseModule ("func @f(%a, %b) \x7b\n ^e:\n br [^h]\n ^h:\n %x = phi [%a, ^e], [%y, ^h], [%b, ^e]\n" ++
      " %y = phi [7, ^h]\n %z = phi [%x, ^k], [3, ^e]\n %w = add %x, 1\n %m = phi [%w, ^e]\n" ++
      " condbr %x [^h, ^k]\n ^k:\n ret %y\n\x7d") = .ok fs ∧ fs.length = 1 ∧
    ∀ f ∈ fs, f.PlacesAgree ∧ f.leadingPhis ⟨1⟩ = [⟨1⟩] ++ ⟨2⟩ :: [⟨3⟩] ∧
      (f.edgeUses ⟨2⟩).Collects f [⟨2⟩, ⟨3⟩] ∧ f.edgeUsesTable.get ⟨2⟩ = f.edgeUses ⟨2⟩ ∧
      f.isPhi ⟨5⟩ = true ∧ f.edgeUses ⟨5⟩ = [] := by
  refine (Run.exists_eq_ok_and (p := fun fs => fs.length = 1 && fs.all fun f =>
    f.leadingPhis ⟨1⟩ = [⟨1⟩, ⟨2⟩, ⟨3⟩] && f.isPhi ⟨5⟩ && f.parent? ⟨5⟩ = some ⟨1⟩) ?_).imp
    fun fs hfs => ⟨hfs.1, ?_⟩
  · decide +kernel
  · have hchecks := hfs.2
    simp only [Bool.and_eq_true, decide_eq_true_iff, List.all_eq_true] at hchecks
    refine ⟨hchecks.1, fun f hf => ?_⟩
    obtain ⟨⟨hgroup, hphi⟩, hparent⟩ := hchecks.2 f hf
    have hp := (composed_of_parseModule hfs.1 f hf).built.coherent.places
    obtain ⟨hcollects, -, -, htable⟩ := edgeUses_exact hp ⟨2⟩
    refine ⟨hp, hgroup, (hcollects ⟨1⟩ [⟨1⟩] [⟨3⟩] hgroup).1, htable, hphi, ?_⟩
    refine (edgeUses_exact hp ⟨5⟩).2.2.1 fun b hmem => ?_
    obtain rfl : (⟨1⟩ : BlockId) = b := Option.some.inj
      (hparent.symm.trans ((hp.parent_iff _ b).mpr (List.takeWhile_subset _ hmem)))
    rw [hgroup] at hmem
    simp at hmem

end Function

end SsaPrune
