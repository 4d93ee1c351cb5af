import SsaPrune.Proofs.Text.RoundTrip
import SsaPrune.Proofs.Text.Steps

/-!
# When the construction of a function succeeds

A source tree stands for a function exactly when it is *declared*: no name is given twice, every opcode
is known, and all names that are used are given somewhere, `Source.Function.resolve_isOk_iff`. In the
function that comes out everything is named, `Source.Function.named_of_resolve`.
-/

namespace SsaPrune

/-! ## Declared trees -/

namespace Source.Function

variable (source : Source.Function)

/-- The instructions of the tree, in order. -/
def insts : List Inst := source.blocks.flatMap (·.insts)

/-- The names that the tree gives to values: those of the parameters and of the results. -/
def valueNames : List String := source.params ++ source.insts.filterMap (·.result)

/-- The labels that the tree gives. -/
def labels : List String := source.blocks.map (·.label)

/-- No name is given twice, every opcode is known, and all names that are used are given. -/
structure Declared : Prop where
  values : source.valueNames.Nodup
  blocks : source.labels.Nodup
  fits : ∀ inst ∈ source.insts, Build.Fits source.labels inst
  known : ∀ inst ∈ source.insts, Build.Known source.valueNames inst

end Source.Function

namespace Build

variable {s t : Scope} {start : List Char} {source : Source.Function}

/-! ## The four passes -/

theorem declares_params (params : List String) : Declares Scope.valueNames (ValuePass [] [])
    (params.forM (addParam start)) True params :=
  (Declares.forM fun name _ => declares_addParam [] [] name).congr (by simp)
    (.of_eq (List.flatMap_singleton' params))

theorem declares_blocks (valueNames : List String) (blocks : List Source.Block) :
    Declares Scope.labels (BlockPass valueNames)
      (blocks.mapM fun block => return (← addBlock block, block)) True (blocks.map (·.label)) := by
  refine (Declares.mapM fun block _ => (declares_addBlock valueNames block).bind fun b =>
    Declares.pure (b, block)).congr (by simp) (.of_eq ?_)
  simp [List.map_eq_flatMap]

theorem declares_insts (labels : List String) (bs : List (BlockId × Source.Block)) :
    Declares Scope.valueNames (ValuePass labels (bs.map (·.1)))
      (bs.mapM fun (p : BlockId × Source.Block) => p.2.insts.mapM fun inst =>
        return (← addInst p.1 inst, inst) : Build _)
      (∀ p ∈ bs, ∀ inst ∈ p.2.insts, Fits labels inst)
      (bs.flatMap fun p => p.2.insts.filterMap (·.result)) := by
  refine (Declares.mapM fun p hp => Declares.mapM fun inst _ =>
    (declares_addInst (List.mem_map.mpr ⟨p, hp, rfl⟩) inst).bind fun i =>
      Declares.pure (i, inst)).congr (by simp) (.of_eq ?_)
  simp [List.filterMap_eq_flatMap_toList]

theorem declares_operands (valueNames : List String) (is : List (InstId × Source.Inst)) :
    Declares (fun _ => []) (OperandPass valueNames (is.map (·.1)))
      (is.forM fun (i, inst) => addOperands i inst) (∀ p ∈ is, Known valueNames p.2) [] :=
  (Declares.forM fun p hp =>
    declares_addOperands (List.mem_map.mpr ⟨p, hp, rfl⟩) p.2).congr Iff.rfl (.of_eq (by simp))

/-! ## The scope between the passes -/

/-- The parameters have been added. -/
structure ParamsAdded (source : Source.Function) (s : Scope) : Prop where
  pass : BlockPass s.valueNames s
  valueNames : s.valueNames.Perm source.params
  nodup : s.valueNames.Nodup
  labels : s.labels = []

/-- The blocks have been added as well, and these are they. -/
structure BlocksAdded (source : Source.Function) (bs : List (BlockId × Source.Block)) (s : Scope) :
    Prop where
  pass : ValuePass s.labels (bs.map (·.1)) s
  valueNames : s.valueNames.Perm source.params
  nodup : s.valueNames.Nodup
  labels : s.labels.Perm source.labels
  blocks : bs.map (·.2) = source.blocks
  distinct : (bs.map (·.1)).Nodup

/-- The instructions have been added as well, and these are they, block by block. -/
structure InstsAdded (source : Source.Function) (iss : List (List (InstId × Source.Inst)))
    (s : Scope) : Prop where
  pass : OperandPass s.valueNames (iss.flatten.map (·.1)) s
  valueNames : s.valueNames.Perm source.valueNames
  insts : iss.flatten.map (·.2) = source.insts

theorem valuePass_empty (name : String) : ValuePass [] [] ⟨.empty name, [], []⟩ :=
  ⟨Scope.sound_empty name, Scope.complete_empty name, rfl, by simp⟩

theorem params_isOk_iff : (∃ r, source.params.forM (addParam start) ⟨.empty source.name, [], []⟩ =
    .ok r) ↔ source.params.Nodup := by
  rw [(declares_params source.params).isOk_iff _ (valuePass_empty source.name) List.nodup_nil]
  simp [Scope.valueNames]

theorem paramsAdded {u : Unit}
    (h : source.params.forM (addParam start) ⟨.empty source.name, [], []⟩ = .ok (u, t)) :
    ParamsAdded source t := by
  obtain ⟨ht, hperm⟩ := (declares_params source.params).keeps _ _ _ (valuePass_empty source.name) h
  have hnames : t.valueNames.Perm source.params := by simpa [Scope.valueNames] using hperm
  exact ⟨⟨ht.sound, ht.complete, rfl⟩, hnames, hnames.nodup_iff.mpr (params_isOk_iff.mp ⟨_, h⟩),
    ht.labels⟩

namespace ParamsAdded

theorem blocks_isOk_iff (hs : ParamsAdded source s) :
    (∃ r, (source.blocks.mapM fun block => return (← addBlock block, block)) s = .ok r) ↔
      source.labels.Nodup := by
  rw [(declares_blocks s.valueNames source.blocks).isOk_iff _ hs.pass (by simp [hs.labels])]
  simp [hs.labels, Source.Function.labels]

theorem blocksAdded (hs : ParamsAdded source s) {bs : List (BlockId × Source.Block)}
    (h : (source.blocks.mapM fun block => return (← addBlock block, block)) s = .ok (bs, t)) :
    BlocksAdded source bs t := by
  obtain ⟨ht, hperm⟩ := (declares_blocks s.valueNames source.blocks).keeps _ _ _ hs.pass h
  obtain ⟨-, -, -, hlayout, hmap, hlabelled, -⟩ := addBlocks_eq_ok hs.pass.sound h
  refine ⟨⟨ht.sound, ht.complete, rfl, fun b hb => ?_⟩, ht.valueNames ▸ hs.valueNames,
    ht.valueNames ▸ hs.nodup, by simpa [hs.labels, Source.Function.labels] using hperm, hmap, ?_⟩
  · obtain ⟨p, hp, rfl⟩ := List.mem_map.mp hb
    exact Function.has_block_of_label (hlabelled p hp)
  · have hnodup := ht.sound.composed.built.coherent.places.nodup_layout
    rw [hlayout] at hnodup
    exact (List.nodup_append.mp hnodup).2.1

end ParamsAdded

namespace BlocksAdded

variable {bs : List (BlockId × Source.Block)}

theorem insts (hs : BlocksAdded source bs s) : bs.flatMap (·.2.insts) = source.insts := by
  rw [Source.Function.insts, ← hs.blocks, List.flatMap_map]

/-- The names of the values after the instructions, in another order. -/
theorem perm_valueNames (hs : BlocksAdded source bs s) :
    ((bs.flatMap fun p => p.2.insts.filterMap (·.result)) ++ s.valueNames).Perm
      source.valueNames := by
  rw [Source.Function.valueNames, ← hs.insts, List.filterMap_flatMap]
  exact (hs.valueNames.append_left _).trans List.perm_append_comm

theorem insts_isOk_iff (hs : BlocksAdded source bs s) :
    (∃ r, (bs.mapM fun (p : BlockId × Source.Block) => p.2.insts.mapM fun inst =>
      return (← addInst p.1 inst, inst) : Build _) s = .ok r) ↔
      (∀ inst ∈ source.insts, Fits source.labels inst) ∧ source.valueNames.Nodup := by
  rw [(declares_insts s.labels bs).isOk_iff _ hs.pass hs.nodup, hs.perm_valueNames.nodup_iff,
    ← hs.insts]
  have hfits : ∀ inst, Fits s.labels inst ↔ Fits source.labels inst := fun inst =>
    and_congr_right fun _ => forall₂_congr fun _ _ => hs.labels.mem_iff
  simp only [List.forall_mem_flatMap, hfits]

theorem instsAdded (hs : BlocksAdded source bs s) {iss : List (List (InstId × Source.Inst))}
    (h : (bs.mapM fun (p : BlockId × Source.Block) => p.2.insts.mapM fun inst =>
      return (← addInst p.1 inst, inst) : Build _) s = .ok (iss, t)) : InstsAdded source iss t := by
  obtain ⟨ht, hperm⟩ := (declares_insts s.labels bs).keeps _ _ _ hs.pass h
  obtain ⟨-, -, hout, -, hlists⟩ := addAllInsts_eq_ok hs.pass.sound
    (fun p hp => hs.pass.has _ (List.mem_map.mpr ⟨p, hp, rfl⟩)) hs.distinct h
  refine ⟨⟨ht.sound, ht.complete, rfl, fun i hi => ?_⟩, hperm.trans hs.perm_valueNames, ?_⟩
  · obtain ⟨p, hp, rfl⟩ := List.mem_map.mp hi
    obtain ⟨d, hd⟩ := hout p hp
    exact Function.has_inst_iff.mpr ⟨d, hd.inst⟩
  · rw [← hs.insts]
    exact (Source.flatMap_of_forall₂ (fun p is hp => hp.1.symm) hlists).symm

end BlocksAdded

theorem InstsAdded.operands_isOk_iff {iss : List (List (InstId × Source.Inst))}
    (hs : InstsAdded source iss s) :
    (∃ r, (iss.flatten.forM fun (i, inst) => addOperands i inst) s = .ok r) ↔
      ∀ inst ∈ source.insts, Known source.valueNames inst := by
  rw [(declares_operands s.valueNames iss.flatten).isOk_iff _ hs.pass List.nodup_nil, ← hs.insts]
  have hknown : ∀ inst, Known s.valueNames inst ↔ Known source.valueNames inst := fun inst =>
    forall₂_congr fun _ _ => hs.valueNames.mem_iff
  simp only [List.forall_mem_map, hknown, List.append_nil, List.nodup_nil, and_true]

/-! ## The whole construction -/

/-- A sequence succeeds when its first part does, if that decides about the second. -/
theorem bind_isOk_iff {α β : Type} {m : Build α} {k : α → Build β} {K : Prop}
    (hk : ∀ a t, m s = .ok (a, t) → ((∃ r, k a t = .ok r) ↔ K)) :
    (∃ r, (m >>= k) s = .ok r) ↔ (∃ r, m s = .ok r) ∧ K := by
  simp only [bind_eq_ok]
  constructor
  · rintro ⟨r, a, t, hm, hr⟩
    exact ⟨⟨_, hm⟩, (hk a t hm).mp ⟨r, hr⟩⟩
  · rintro ⟨⟨⟨a, t⟩, hm⟩, hK⟩
    obtain ⟨r, hr⟩ := (hk a t hm).mpr hK
    exact ⟨r, a, t, hm, hr⟩

theorem addFunction_isOk_iff :
    (∃ r, addFunction source ⟨.empty source.name, [], []⟩ = .ok r) ↔ source.Declared := by
  have hpasses : (∃ r, addFunction source ⟨.empty source.name, [], []⟩ = .ok r) ↔
      source.params.Nodup ∧ source.labels.Nodup ∧
        ((∀ inst ∈ source.insts, Fits source.labels inst) ∧ source.valueNames.Nodup) ∧
        ∀ inst ∈ source.insts, Known source.valueNames inst := by
    unfold addFunction
    rw [bind_isOk_iff, params_isOk_iff]
    intro _ s₁ hparams
    have hs₁ := paramsAdded hparams
    rw [bind_isOk_iff, hs₁.blocks_isOk_iff]
    intro bs s₂ hblocks
    have hs₂ := hs₁.blocksAdded hblocks
    rw [bind_isOk_iff, hs₂.insts_isOk_iff]
    intro iss s₃ hinsts
    exact (hs₂.instsAdded hinsts).operands_isOk_iff
  rw [hpasses]
  constructor
  · rintro ⟨-, hlabels, ⟨hfits, hvalues⟩, hknown⟩
    exact ⟨hvalues, hlabels, hfits, hknown⟩
  · rintro ⟨hvalues, hlabels, hfits, hknown⟩
    exact ⟨(List.nodup_append.mp hvalues).1, hlabels, ⟨hfits, hvalues⟩, hknown⟩

end Build

namespace Source

namespace Function

variable {source : Function}

/-- **A source tree stands for a function exactly when it is declared.** -/
theorem resolve_isOk_iff : (∃ f, source.resolve = .ok f) ↔ source.Declared := by
  rw [← Build.addFunction_isOk_iff]
  simp only [resolve_eq_ok_iff]
  exact ⟨fun ⟨_, u, t, ht, _⟩ => ⟨_, ht⟩, fun ⟨⟨u, t⟩, ht⟩ => ⟨_, u, t, ht, rfl⟩⟩

/-- **In a function that is put together everything is named**, and every instruction is in a
block. -/
theorem named_of_resolve {f : SsaPrune.Function} (h : source.resolve = .ok f) : f.Named := by
  obtain ⟨bs, iss, s₁, s₂, s₃, t, hpasses, rfl⟩ := exists_passes h
  have hs₃ := ((Build.paramsAdded hpasses.params).blocksAdded hpasses.blocks).instsAdded hpasses.insts
  obtain ⟨ht, -⟩ := (Build.declares_operands s₃.valueNames iss.flatten).keeps _ _ _ hs₃.pass
    hpasses.operands
  exact ht.complete.named ht.sound

end Function

/-! ## Modules -/

/-- The trees of a module stand for functions when each of them does and no two have the same name. -/
theorem resolveAll_isOk_iff {seen : List String} {sources : List Function} :
    (∃ fs, resolveAll seen sources = .ok fs) ↔
      (sources.map (·.name)).Nodup ∧ ∀ source ∈ sources, source.name ∉ seen ∧ source.Declared := by
  simp only [resolveAll_eq_ok_iff, exists_and_left, Build.exists_forall₂_iff, Function.resolve_isOk_iff,
    ← forall₂_and]

end Source

/-- In a function that was read from a text everything is named. -/
theorem named_of_parseModule {text : String} {fs : List Function} (h : parseModule text = .ok fs) :
    ∀ f ∈ fs, f.Named := by
  obtain ⟨sources, rest, -, hall⟩ := parseModule_eq_ok.mp h
  have hresolve := Source.forall₂_resolve_of_resolveAll hall
  exact forall_of_forall₂ (fun _ _ hf => Source.Function.named_of_resolve hf) hresolve

end SsaPrune
