import SsaPrune.Proofs.Elimination.ControlFlow
import SsaPrune.Proofs.Elimination.Needless
import SsaPrune.Proofs.Text.Declarations

/-!
# Functions that stand for the same text

A function from which instructions were taken out still has them in its arena; the one that is read
from its text does not, and numbers its instructions and values anew. The two are *twins*: they stand
for the same source tree. Their blocks correspond by number, their instructions by place and their
values by name.

So what does not depend on the numbers is the same for both: a twin of an orderly function is orderly
(`Twins.orderly`), and nothing is needless in it if nothing was in the other (`Twins.needed`).
-/

namespace SsaPrune

/-! ## Related lists -/

section Lists

variable {α β γ : Type} {R : α → β → Prop} {as : List α} {bs : List β}

/-- Lists that are related to the same list are related to each other. -/
theorem forall₂_of_common {S : α → γ → Prop} {cs : List γ} (hR : List.Forall₂ R as bs)
    (hS : List.Forall₂ S as cs) : List.Forall₂ (fun b c => ∃ a, R a b ∧ S a c) bs cs := by
  induction hR generalizing cs with
  | nil =>
    cases hS
    exact .nil
  | cons hab _ ih =>
    cases hS with
    | cons hac hS => exact .cons ⟨_, hab, hac⟩ (ih hS)

theorem getLast?_of_forall₂ (h : List.Forall₂ R as bs) :
    as.getLast? = none ∧ bs.getLast? = none ∨
      ∃ a b, as.getLast? = some a ∧ bs.getLast? = some b ∧ R a b := by
  have hreverse := List.rel_reverse h
  rw [← List.head?_reverse, ← List.head?_reverse]
  generalize as.reverse = as', bs.reverse = bs' at hreverse
  cases hreverse with
  | nil => exact .inl ⟨rfl, rfl⟩
  | cons hab _ => exact .inr ⟨_, _, rfl, rfl, hab⟩

/-- A list is split where a related one is. -/
theorem exists_split_of_forall₂ {pre post : List β} {b : β}
    (h : List.Forall₂ R as (pre ++ b :: post)) :
    ∃ pre' a post', as = pre' ++ a :: post' ∧ List.Forall₂ R pre' pre ∧ R a b ∧
      List.Forall₂ R post' post := by
  induction pre generalizing as with
  | nil =>
    obtain ⟨a, post', hab, hpost, rfl⟩ := List.forall₂_cons_right_iff.mp h
    exact ⟨[], a, post', rfl, .nil, hab, hpost⟩
  | cons c pre ih =>
    obtain ⟨a, rest, hac, hrest, rfl⟩ := List.forall₂_cons_right_iff.mp h
    obtain ⟨pre', d, post', rfl, hpre, hdb, hpost⟩ := ih hrest
    exact ⟨a :: pre', d, post', rfl, .cons hac hpre, hdb, hpost⟩

end Lists

/-- The instructions differ in nothing but the values that they name. -/
structure Instruction.Alike (d e : Instruction) : Prop where
  opcode : e.opcode = d.opcode
  callee : e.callee = d.callee
  successors : e.successors = d.successors
  phiBlocks : e.phiBlocks = d.phiBlocks
  operands : e.operands.length = d.operands.length

theorem Instruction.Alike.flaws {d e : Instruction} (h : d.Alike e) (hasResult : Bool) :
    e.flaws hasResult = d.flaws hasResult := by
  unfold Instruction.flaws
  rw [h.opcode, h.callee, h.successors, h.phiBlocks, h.operands]

namespace Function

/-- The instructions stand for the same line. -/
def Twin (f g : Function) (i j : InstId) : Prop :=
  ∃ written, f.SpellsInst written i ∧ g.SpellsInst written j

/-- The functions stand for the same tree, and in the second one everything is named. -/
structure Twins (source : Source.Function) (f g : Function) : Prop where
  left : f.Spells source
  right : g.Spells source
  leftPlaces : f.PlacesAgree
  rightPlaces : g.PlacesAgree
  named : g.Named

namespace Twins

variable {source : Source.Function} {f g : Function} {b c : BlockId} {i j : InstId}

/-! ## Blocks -/

theorem layout (h : Twins source f g) : g.layout = f.layout := by
  have hlength := h.right.blocks.length_eq.symm.trans h.left.blocks.length_eq
  rw [h.leftPlaces.layout, h.rightPlaces.layout] at hlength ⊢
  simp only [Arena.entities, List.length_map, List.length_range] at hlength
  rw [Arena.entities, hlength]
  rfl

theorem exists_block (h : Twins source f g) (hb : b ∈ f.layout) :
    ∃ block, f.SpellsBlock block b ∧ g.SpellsBlock block b := by
  have hboth := forall₂_of_common h.left.blocks h.right.blocks
  rw [h.layout, List.forall₂_same] at hboth
  exact hboth b hb

/-- The instructions of a block are twins, each of the one in the same place. -/
theorem instsOf (h : Twins source f g) (b : BlockId) :
    List.Forall₂ (f.Twin g) (f.instsOf b) (g.instsOf b) := by
  by_cases hb : b ∈ f.layout
  · obtain ⟨block, ⟨-, hf⟩, -, hg⟩ := h.exists_block hb
    exact forall₂_of_common hf hg
  · have hf : f.instsOf b = [] := List.eq_nil_iff_forall_not_mem.mpr fun i hi =>
      hb (h.leftPlaces.mem_layout_iff.mpr (has_block_of_mem_instsOf hi))
    have hg : g.instsOf b = [] := List.eq_nil_iff_forall_not_mem.mpr fun i hi =>
      hb (h.layout ▸ h.rightPlaces.mem_layout_iff.mpr (has_block_of_mem_instsOf hi))
    rw [hf, hg]
    exact .nil

theorem labelled (h : Twins source f g) {label : String} (hb : f.Labelled label b) :
    g.Labelled label b := by
  have hlayout := h.leftPlaces.mem_layout_iff.mpr (has_block_of_label hb)
  obtain ⟨block, ⟨hf, -⟩, hg, -⟩ := h.exists_block hlayout
  obtain rfl := Option.some.inj (Eq.trans (Eq.symm hb) hf)
  exact hg

/-- The same labels stand for the same blocks. -/
theorem eq_of_labelled (h : Twins source f g) {labels : List String} {bs cs : List BlockId}
    (hf : List.Forall₂ f.Labelled labels bs) (hg : List.Forall₂ g.Labelled labels cs) : cs = bs := by
  have hunique : Relator.RightUnique g.Labelled := fun l b c hb hc => h.named.label_inj b c l hb hc
  exact List.right_unique_forall₂' hunique hg (hf.imp fun _ _ => h.labelled)

/-! ## Instructions -/

theorem exists_inst? (h : Twins source f g) (hij : f.Twin g i j) :
    ∃ d e, f.inst? i = some d ∧ g.inst? j = some e ∧ d.Alike e ∧
      (g.result? j).isSome = (f.result? i).isSome := by
  obtain ⟨written, ⟨d, hd, hx⟩, e, he, hy⟩ := hij
  refine ⟨d, e, hd.inst, he.inst, ⟨?_, ?_, ?_, ?_, ?_⟩, ?_⟩
  · exact Opcode.name_inj.mp (he.opcode.trans hd.opcode.symm)
  · exact he.callee.trans hd.callee.symm
  · exact h.eq_of_labelled hd.successors he.successors
  · exact h.eq_of_labelled hd.phiBlocks he.phiBlocks
  · exact hy.length_eq.symm.trans hx.length_eq
  · rcases hd.result with ⟨hw, hi⟩ | ⟨n, v, hw, hi, -⟩ <;>
      rcases he.result with ⟨hw', hj⟩ | ⟨m, w, hw', hj, -⟩ <;> simp_all

theorem any_opcode (h : Twins source f g) (hij : f.Twin g i j) (p : Opcode → Bool) :
    (g.inst? j).any (fun e => p e.opcode) = (f.inst? i).any fun d => p d.opcode := by
  obtain ⟨d, e, hd, he, halike, -⟩ := h.exists_inst? hij
  rw [hd, he, Option.any_some, Option.any_some, halike.opcode]

theorem isTerminator (h : Twins source f g) (hij : f.Twin g i j) :
    g.isTerminator j = f.isTerminator i :=
  h.any_opcode hij (·.isTerminator)

theorem isPhi (h : Twins source f g) (hij : f.Twin g i j) : g.isPhi j = f.isPhi i :=
  h.any_opcode hij (·.isPhi)

theorem isRemovable (h : Twins source f g) (hij : f.Twin g i j) :
    g.isRemovable j = f.isRemovable i := by
  have heffects : g.hasSideEffects j = f.hasSideEffects i := h.any_opcode hij (·.hasSideEffects)
  rw [Function.isRemovable, h.isTerminator hij, h.isPhi hij, heffects]
  rfl

theorem exists_twin_left (h : Twins source f g) (hj : j ∈ g.instsOf b) :
    ∃ i ∈ f.instsOf b, f.Twin g i j :=
  exists_mem_of_forall₂ (h.instsOf b).flip hj

/-! ## Edges -/

theorem targets (h : Twins source f g) : g.targets = f.targets := by
  funext b
  unfold Function.targets last?
  rcases getLast?_of_forall₂ (h.instsOf b) with ⟨hf, hg⟩ | ⟨i, j, hi, hj, hij⟩
  · rw [hf, hg]
  · obtain ⟨d, e, hd, he, halike, -⟩ := h.exists_inst? hij
    have hsucc : g.successors j = f.successors i := by
      rw [successors, successors, hd, he, Option.map_some, Option.map_some, halike.successors]
    rw [hi, hj]
    simp only [h.isTerminator hij, hsucc]

theorem preds (h : Twins source f g) : g.preds = f.preds := preds_congr h.layout h.targets

/-- **A twin of an orderly function is orderly.** -/
theorem orderly (h : Twins source f g) (ho : f.Orderly) : g.Orderly where
  layout_ne_nil := by
    rw [h.layout]
    exact ho.layout_ne_nil
  ends b hb hreach := by
    rw [h.layout] at hb
    rw [reachable_congr h.layout h.targets] at hreach
    have hend := ho.ends b hb hreach
    rw [last?] at hend ⊢
    rcases getLast?_of_forall₂ (h.instsOf b) with ⟨hf, -⟩ | ⟨i, j, hi, hj, hij⟩
    · rw [hf] at hend
      cases hend
    · rw [hi, Option.any_some] at hend
      rw [hj, Option.any_some, h.isTerminator hij]
      exact hend
  terminatorLast b pre j post hlist hterm := by
    obtain ⟨pre', i, post', hlist', -, hij, hpost⟩ :=
      exists_split_of_forall₂ (hlist ▸ h.instsOf b)
    rw [h.isTerminator hij] at hterm
    rw [ho.terminatorLast b pre' i post' hlist' hterm] at hpost
    cases hpost
    rfl
  phisFirst b pre j post hlist hphi k hk := by
    obtain ⟨pre', i, post', hlist', hpre, hij, -⟩ :=
      exists_split_of_forall₂ (hlist ▸ h.instsOf b)
    obtain ⟨l, hl, hlk⟩ := exists_mem_of_forall₂ hpre.flip hk
    rw [h.isPhi hij] at hphi
    rw [h.isPhi hlk]
    exact ho.phisFirst b pre' i post' hlist' hphi l hl
  incoming b j hj e he hphi c hc := by
    obtain ⟨i, hi, hij⟩ := h.exists_twin_left hj
    obtain ⟨d, e', hd, he', halike, -⟩ := h.exists_inst? hij
    obtain rfl := Option.some.inj (he.symm.trans he')
    rw [halike.opcode] at hphi
    rw [halike.phiBlocks] at hc
    rw [h.preds]
    exact ho.incoming b i hi d hd hphi c hc
  flawless b j hj e he := by
    obtain ⟨i, hi, hij⟩ := h.exists_twin_left hj
    obtain ⟨d, e', hd, he', halike, hresult⟩ := h.exists_inst? hij
    obtain rfl := Option.some.inj (he.symm.trans he')
    rw [halike.flaws, hresult]
    exact ho.flawless b i hi d hd

/-! ## Values -/

/-- Values are the same when they have the same name. -/
def SameValue (f g : Function) (v w : ValueId) : Prop :=
  ∃ n, f.valueName? v = some n ∧ g.valueName? w = some n

theorem exists_result? (hij : f.Twin g i j) {v : ValueId} (hv : f.result? i = some v) :
    ∃ w, g.result? j = some w ∧ SameValue f g v w := by
  obtain ⟨written, ⟨d, hd, -⟩, e, he, -⟩ := hij
  rcases hd.result with ⟨-, hnone⟩ | ⟨n, v', hw, hv', hn⟩
  · rw [hv] at hnone
    cases hnone
  · obtain rfl := Option.some.inj (hv.symm.trans hv')
    rcases he.result with ⟨hw', -⟩ | ⟨m, w, hw', hres, hm⟩
    · rw [hw] at hw'
      cases hw'
    · obtain rfl := Option.some.inj (hw.symm.trans hw')
      exact ⟨w, hres, n, hn, hm⟩

theorem exists_mem_valueOperands (hij : f.Twin g i j) {v : ValueId} (hv : v ∈ f.valueOperands i) :
    ∃ w ∈ g.valueOperands j, SameValue f g v w := by
  obtain ⟨written, ⟨d, hd, hx⟩, e, he, hy⟩ := hij
  rw [mem_valueOperands, operands_of_inst? hd.inst] at hv
  obtain ⟨x, hxw, hbears⟩ := exists_mem_of_forall₂ hx.flip hv
  obtain ⟨y, hye, hbears'⟩ := exists_mem_of_forall₂ hy hxw
  cases x with
  | imm n => exact False.elim hbears
  | name n =>
    cases y with
    | imm k => exact False.elim hbears'
    | value w =>
      refine ⟨w, ?_, n, hbears, hbears'⟩
      rw [mem_valueOperands, operands_of_inst? he.inst]
      exact hye

/-- **Nothing is needless in a twin** if nothing was in the other function. -/
theorem needed (h : Twins source f g) (hf : f.Needed) : g.Needed := by
  intro j hj hneedless
  obtain ⟨b, hb, hjb⟩ := List.mem_flatMap.mp hj
  obtain ⟨i, hi, hij⟩ := h.exists_twin_left hjb
  refine hf i (List.mem_flatMap.mpr ⟨b, h.layout ▸ hb, hi⟩) ⟨?_, fun v hv u hu huse => ?_⟩
  · rw [← h.isRemovable hij]
    exact hneedless.1
  · obtain ⟨w, hw, n, hvn, hwn⟩ := exists_result? hij hv
    obtain ⟨c, hc, huc⟩ := List.mem_flatMap.mp hu
    obtain ⟨u', hu', huu'⟩ := exists_mem_of_forall₂ (h.instsOf c) huc
    obtain ⟨w', hw', m, hvm, hwm⟩ := exists_mem_valueOperands huu' huse
    obtain rfl := Option.some.inj (hvn.symm.trans hvm)
    obtain rfl := h.named.value_inj w w' n hwn hwm
    exact hneedless.2 w hw u' (List.mem_flatMap.mpr ⟨c, h.layout.symm ▸ hc, hu'⟩) hw'

end Twins

/-! ## Accepted twins -/

variable {f g : Function} {source : Source.Function}

/-- Where every instruction is in a block, no operand is left without its definition. -/
theorem Named.operandsDefined (hn : f.Named) (hc : f.Closed) (hp : f.PlacesAgree) :
    f.OperandsDefined := by
  refine fun i _ v hv => ⟨hc.has_value hv, isDangling_eq_false_iff.mpr fun j hj => ?_⟩
  exact hp.isAttached_iff.mpr (hn.placed j (hc.definition v j hj))

end Function

end SsaPrune
