import Mathlib.Logic.Function.Iterate
import Mathlib.Logic.Relation
import SsaPrune.Proofs.EdgeLists
import SsaPrune.Proofs.Text.RoundTrip

/-!
# The walk over the control-flow graph

`DepthFirst next visited todo order` is the recursive traversal of a graph: it goes through the blocks
of `todo` in turn, passes over those that were visited, and visits each other one by going through its
successors before it goes on. What such a traversal meets is told by induction on it.

The walk with an explicit stack makes the same traversal (`depthFirst_preorder`), and so does one that
also looks at what was visited before it puts a block on the stack, `Search`. The main statement is
`reachable_depthFirst`: the reachable blocks of a function are those that its edges lead to from the
entry, each once and in the order of the traversal.
-/

namespace SsaPrune

/-! ## The recursive traversal -/

/-- The traversal of the blocks of `todo` by way of `next`, when those of `visited` were visited before;
`order` has the blocks that it visits. -/
inductive DepthFirst (next : BlockId → List BlockId) :
    List BlockId → List BlockId → List BlockId → Prop
  | done {visited : List BlockId} : DepthFirst next visited [] []
  | skip {visited rest order : List BlockId} {b : BlockId} (hb : b ∈ visited)
      (hrest : DepthFirst next visited rest order) : DepthFirst next visited (b :: rest) order
  | visit {visited rest below after : List BlockId} {b : BlockId} (hb : b ∉ visited)
      (hbelow : DepthFirst next (visited ++ [b]) (next b) below)
      (hrest : DepthFirst next (visited ++ b :: below) rest after) :
      DepthFirst next visited (b :: rest) (b :: below ++ after)

namespace DepthFirst

variable {next : BlockId → List BlockId} {visited todo order : List BlockId}

/-- There is one traversal only. -/
theorem unique {order' : List BlockId} (h : DepthFirst next visited todo order)
    (h' : DepthFirst next visited todo order') : order = order' := by
  induction h generalizing order' with
  | done =>
    cases h'
    rfl
  | skip hb _ ih =>
    cases h' with
    | skip _ hrest => exact ih hrest
    | visit hno => exact absurd hb hno
  | visit hb _ _ ihbelow ihrest =>
    cases h' with
    | skip hyes => exact absurd hyes hb
    | visit _ hbelow hrest =>
      obtain rfl := ihbelow hbelow
      rw [ihrest hrest]

/-- A traversal of two lists in turn goes through the first, and then through the second. -/
theorem exists_append {first second : List BlockId}
    (h : DepthFirst next visited (first ++ second) order) :
    ∃ begun ended, order = begun ++ ended ∧ DepthFirst next visited first begun ∧
      DepthFirst next (visited ++ begun) second ended := by
  induction first generalizing visited order with
  | nil => exact ⟨[], order, rfl, .done, by rwa [List.append_nil]⟩
  | cons b first ih =>
    cases h with
    | skip hb hrest =>
      obtain ⟨begun, ended, rfl, hfirst, hsecond⟩ := ih hrest
      exact ⟨begun, ended, rfl, .skip hb hfirst, hsecond⟩
    | visit hb hbelow hrest =>
      obtain ⟨begun, ended, rfl, hfirst, hsecond⟩ := ih hrest
      refine ⟨_, ended, ?_, .visit hb hbelow hfirst, ?_⟩
      · simp
      · simpa using hsecond

/-! ### What is visited -/

/-- No block is visited twice, nor one that was visited before. -/
theorem nodup (h : DepthFirst next visited todo order) :
    order.Nodup ∧ ∀ b ∈ order, b ∉ visited := by
  induction h with
  | done => simp
  | skip _ _ ih => exact ih
  | @visit visited rest below after b hb _ _ ihbelow ihrest =>
    obtain ⟨hbelow, hnew⟩ := ihbelow
    obtain ⟨hafter, hlater⟩ := ihrest
    have hfirst : (b :: below).Nodup := List.nodup_cons.mpr ⟨fun hmem => hnew b hmem (by simp), hbelow⟩
    refine ⟨List.nodup_append.mpr ⟨hfirst, hafter, fun c hc d hd => ?_⟩, fun c hc => ?_⟩
    · rintro rfl
      exact hlater c hd (List.mem_append_right _ hc)
    · rcases List.mem_append.mp hc with hc | hc
      · rcases List.mem_cons.mp hc with rfl | hc
        · exact hb
        · exact fun hmem => hnew c hc (List.mem_append_left _ hmem)
      · exact fun hmem => hlater c hc (List.mem_append_left _ hmem)

/-- What is visited can be reached from what was to be visited. -/
theorem exists_path (h : DepthFirst next visited todo order) :
    ∀ c ∈ order, ∃ b ∈ todo, Relation.ReflTransGen (fun p q => q ∈ next p) b c := by
  induction h with
  | done => simp
  | skip _ _ ih =>
    intro c hc
    obtain ⟨b, hb, hpath⟩ := ih c hc
    exact ⟨b, List.mem_cons_of_mem _ hb, hpath⟩
  | @visit visited rest below after b _ _ _ ihbelow ihrest =>
    intro c hc
    rcases List.mem_append.mp hc with hc | hc
    · rcases List.mem_cons.mp hc with rfl | hc
      · exact ⟨c, List.mem_cons_self, .refl⟩
      · obtain ⟨d, hd, hpath⟩ := ihbelow c hc
        exact ⟨b, List.mem_cons_self, .head hd hpath⟩
    · obtain ⟨d, hd, hpath⟩ := ihrest c hc
      exact ⟨d, List.mem_cons_of_mem _ hd, hpath⟩

/-- In the end everything that was to be visited has been, and the successors of what was visited on
the way have been as well. -/
theorem mem_visited (h : DepthFirst next visited todo order) :
    (∀ b ∈ todo, b ∈ visited ++ order) ∧ ∀ b ∈ order, ∀ c ∈ next b, c ∈ visited ++ order := by
  induction h with
  | done => simp
  | skip hb _ ih =>
    exact ⟨List.forall_mem_cons.mpr ⟨List.mem_append_left _ hb, ih.1⟩, ih.2⟩
  | @visit visited rest below after b _ _ _ ihbelow ihrest =>
    have hlast : ∀ {c}, c ∈ visited ++ b :: below ++ after → c ∈ visited ++ (b :: below ++ after) :=
      fun hc => by rwa [← List.append_assoc]
    have hmid : ∀ {c}, c ∈ visited ++ [b] ++ below → c ∈ visited ++ (b :: below ++ after) :=
      fun hc => hlast (List.mem_append_left _ (by simpa using hc))
    refine ⟨List.forall_mem_cons.mpr ⟨by simp, fun c hc => hlast (ihrest.1 c hc)⟩, fun p hp c hc => ?_⟩
    rcases List.mem_append.mp hp with hp | hp
    · rcases List.mem_cons.mp hp with rfl | hp
      · exact hmid (ihbelow.1 c hc)
      · exact hmid (ihbelow.2 p hp c hc)
    · exact hlast (ihrest.2 p hp c hc)

/-- **A traversal from scratch visits what can be reached.** -/
theorem mem_iff (h : DepthFirst next [] todo order) {c : BlockId} :
    c ∈ order ↔ ∃ b ∈ todo, Relation.ReflTransGen (fun p q => q ∈ next p) b c := by
  refine ⟨h.exists_path c, ?_⟩
  rintro ⟨b, hb, hpath⟩
  induction hpath with
  | refl => exact h.mem_visited.1 b hb
  | tail _ hstep ih => exact h.mem_visited.2 _ ih _ hstep

end DepthFirst

/-! ## The walk with a stack -/

theorem nodup_eraseDups {α : Type} [BEq α] [LawfulBEq α] : ∀ l : List α, l.eraseDups.Nodup
  | [] => List.nodup_nil
  | a :: l => by
    rw [List.eraseDups_cons, List.nodup_cons, List.mem_eraseDups]
    exact ⟨by simp, nodup_eraseDups _⟩
termination_by l => l.length
decreasing_by exact Nat.lt_succ_of_le (List.length_filter_le _ l)

/-- Every block that the walk can come to is in `stock`. -/
structure Covers (next : BlockId → List BlockId) (stock : List BlockId) : Prop where
  nodup : stock.Nodup
  next : ∀ b ∈ stock, ∀ c ∈ next b, c ∈ stock

/-- **The walk with a stack makes the recursive traversal.** What is left of the stock are the blocks
that were not visited. -/
theorem depthFirst_preorder {next : BlockId → List BlockId} {stock : List BlockId}
    (hstock : Covers next stock) {visited unseen stack : List BlockId} (hnodup : unseen.Nodup)
    (hunseen : ∀ b, b ∈ unseen ↔ b ∈ stock ∧ b ∉ visited) (hstack : ∀ b ∈ stack, b ∈ stock) :
    DepthFirst next visited stack (preorder next unseen stack) := by
  fun_induction preorder next unseen stack generalizing visited with
  | case1 => exact .done
  | case2 unseen b rest hb ih =>
    obtain ⟨hbstock, hbnew⟩ := (hunseen b).mp hb
    have hleft : ∀ c, c ∈ unseen.erase b ↔ c ∈ stock ∧ c ∉ visited ++ [b] := by
      intro c
      rw [hnodup.mem_erase_iff, hunseen, List.mem_append, List.mem_singleton, not_or]
      constructor
      · exact fun ⟨hne, hc, hnew⟩ => ⟨hc, hnew, hne⟩
      · exact fun ⟨hc, hnew, hne⟩ => ⟨hne, hc, hnew⟩
    have hpushed : ∀ c ∈ next b ++ rest, c ∈ stock :=
      List.forall_mem_append.mpr ⟨hstock.next b hbstock, (List.forall_mem_cons.mp hstack).2⟩
    obtain ⟨below, after, heq, hbelow, hafter⟩ := (ih (hnodup.erase b) hleft hpushed).exists_append
    rw [heq]
    exact .visit hbnew hbelow (by simpa using hafter)
  | case3 unseen b rest hb ih =>
    have hbstock := hstack b List.mem_cons_self
    have hbseen : b ∈ visited := by
      by_contra hno
      exact hb ((hunseen b).mpr ⟨hbstock, hno⟩)
    exact .skip hbseen (ih hnodup hunseen fun c hc => hstack c (List.mem_cons_of_mem _ hc))

/-! ## A walk that also looks before it puts a block on the stack -/

/-- The state of such a walk: the visited blocks in order, and the stack with its top first. -/
structure Search where
  visited : List BlockId
  stack : List BlockId
  deriving DecidableEq

namespace Search

variable {next : BlockId → List BlockId}

/-- One turn: a block is taken off the stack. If it was visited in the meantime nothing else is done;
otherwise it is visited, and its successors that were not visited are put on the stack. -/
def step (next : BlockId → List BlockId) : Search → Search
  | ⟨visited, []⟩ => ⟨visited, []⟩
  | ⟨visited, b :: rest⟩ =>
    if b ∈ visited then ⟨visited, rest⟩
    else ⟨visited ++ [b], (next b).filter (· ∉ visited ++ [b]) ++ rest⟩

theorem step_of_mem {visited rest : List BlockId} {b : BlockId} (h : b ∈ visited) :
    step next ⟨visited, b :: rest⟩ = ⟨visited, rest⟩ := if_pos h

theorem step_of_notMem {visited rest : List BlockId} {b : BlockId} (h : b ∉ visited) :
    step next ⟨visited, b :: rest⟩ =
      ⟨visited ++ [b], (next b).filter (· ∉ visited ++ [b]) ++ rest⟩ := if_neg h

/-- **Such a walk makes the recursive traversal too**, whatever lies further down on the stack. The
blocks that it leaves out when it fills the stack are some that were visited `before`. -/
theorem exists_iterate {visited todo order : List BlockId} (h : DepthFirst next visited todo order)
    {before : List BlockId} (hbefore : ∀ b ∈ before, b ∈ visited) (rest : List BlockId) :
    ∃ n, (step next)^[n] ⟨visited, todo.filter (· ∉ before) ++ rest⟩ = ⟨visited ++ order, rest⟩ := by
  induction h generalizing before rest with
  | done => exact ⟨0, by simp⟩
  | @skip visited todo order b hb _ ih =>
    obtain ⟨n, hn⟩ := ih hbefore rest
    by_cases hout : b ∈ before
    · exact ⟨n, by rwa [List.filter_cons_of_neg (by simpa using hout)]⟩
    · refine ⟨n + 1, ?_⟩
      rw [List.filter_cons_of_pos (by simpa using hout), List.cons_append,
        Function.iterate_succ_apply, step_of_mem hb]
      exact hn
  | @visit visited todo below after b hb _ _ ihbelow ihrest =>
    have hvisited : ∀ c ∈ visited ++ [b], c ∈ visited ++ [b] := fun _ hc => hc
    obtain ⟨m, hm⟩ := ihbelow hvisited (todo.filter (· ∉ before) ++ rest)
    obtain ⟨n, hn⟩ := ihrest (fun c hc => List.mem_append_left _ (hbefore c hc)) rest
    refine ⟨n + (m + 1), ?_⟩
    rw [List.filter_cons_of_pos (by simpa using fun hout => hb (hbefore b hout)), List.cons_append,
      Function.iterate_add_apply, Function.iterate_succ_apply, step_of_notMem hb, hm]
    simpa using hn

end Search

/-! ## The blocks of a function -/

namespace Function

variable {f : Function} {b c : BlockId}

/-- The block can be reached from the entry along the edges. -/
def Reaches (f : Function) (b : BlockId) : Prop :=
  ∃ e, f.entry? = some e ∧ Relation.ReflTransGen f.Edge e b

theorem PlacesAgree.covers_stock (hp : f.PlacesAgree) : Covers f.succs f.stock where
  nodup := nodup_eraseDups _
  next b _ c hc := by
    have hb := hp.mem_layout_of_edge (mem_succs_iff.mp hc)
    exact List.mem_eraseDups.mpr (List.mem_append_right _ (List.mem_flatMap.mpr ⟨b, hb, hc⟩))

theorem depthFirst_reachable (hp : f.PlacesAgree) :
    DepthFirst f.succs [] f.entry?.toList f.reachable := by
  refine depthFirst_preorder hp.covers_stock hp.covers_stock.nodup (by simp) fun b hb => ?_
  rw [Option.mem_toList] at hb
  exact List.mem_eraseDups.mpr (List.mem_append_left _ (List.mem_of_head? hb))

theorem mem_reachable_iff (hp : f.PlacesAgree) : b ∈ f.reachable ↔ f.Reaches b := by
  have hedge : (fun p q => q ∈ f.succs p) = f.Edge := by
    funext p q
    exact propext mem_succs_iff
  rw [(depthFirst_reachable hp).mem_iff, hedge]
  simp [Reaches]

/-- **The reachable blocks are those to which the edges lead from the entry**, each once.

Everything that is read on the way exists, and the edges are those that one loop over the blocks finds.
The recursive traversal has one outcome, and the walk that keeps a stack and looks at what was visited at
both ends of it empties its stack with the same outcome; both are the list of reachable blocks. In a
function without blocks there are none. -/
theorem reachable_depthFirst (hp : f.PlacesAgree) :
    (∀ b ∈ f.layout, f.Has (.block b) ∧ ∀ i, f.last? b = some i → f.Has (.inst i)) ∧
    (∀ b, f.adjacency.succs.get b = f.succs b) ∧
    (∀ order, DepthFirst f.succs [] f.entry?.toList order ↔ order = f.reachable) ∧
    (∃ n, (Search.step f.succs)^[n] ⟨[], f.entry?.toList⟩ = ⟨f.reachable, []⟩) ∧
    (∀ b, b ∈ f.reachable ↔ f.Reaches b) ∧ f.reachable.Nodup ∧ (f.layout = [] → f.reachable = []) := by
  have hwalk := depthFirst_reachable hp
  refine ⟨fun b hb => ⟨hp.mem_layout_iff.mp hb, fun i hi => ?_⟩, hp.succs_adjacency,
    fun order => ⟨fun h => h.unique hwalk, ?_⟩, ?_, fun b => mem_reachable_iff hp, hwalk.nodup.1,
    fun hempty => ?_⟩
  · exact has_inst_of_parent ((hp.parent_iff i b).mpr (List.mem_of_getLast? hi))
  · rintro rfl
    exact hwalk
  · obtain ⟨n, hn⟩ := Search.exists_iterate hwalk (List.forall_mem_nil _) []
    exact ⟨n, by simpa using hn⟩
  · have hentry : f.entry?.toList = [] := congrArg (fun bs => bs.head?.toList) hempty
    rw [hentry] at hwalk
    exact hwalk.unique .done

/-- Two loops, an edge that is named twice, a block that lies on the stack twice, and a block that is not
reached. -/
def crossing : String :=
  "func @f(%n) \x7b\n ^a:\n condbr %n [^b, ^c]\n ^b:\n condbr %n [^d, ^c]\n" ++
    " ^c:\n condbr %n [^a, ^c]\n ^d:\n condbr %n [^c, ^c]\n ^e:\n br [^a]\n\x7d"

/-- The third block is visited last, from the block that the second one leads to. -/
theorem reachable_depthFirst_crossing : ∃ f, parseModule crossing = .ok [f] ∧ f.PlacesAgree ∧
    f.reachable = [⟨0⟩, ⟨1⟩, ⟨3⟩, ⟨2⟩] ∧
    (∀ b ∈ f.layout, f.Has (.block b) ∧ ∀ i, f.last? b = some i → f.Has (.inst i)) ∧
    (∀ b, f.adjacency.succs.get b = f.succs b) ∧
    (∀ order, DepthFirst f.succs [] f.entry?.toList order ↔ order = f.reachable) ∧
    (∃ n, (Search.step f.succs)^[n] ⟨[], f.entry?.toList⟩ = ⟨f.reachable, []⟩) ∧
    (∀ b, b ∈ f.reachable ↔ f.Reaches b) ∧ f.reachable.Nodup ∧ (f.layout = [] → f.reachable = []) := by
  have hruns : Run.yieldsOne (parseModule crossing) (fun f =>
      f.entry? = some ⟨0⟩ ∧ f.stock = [⟨0⟩, ⟨1⟩, ⟨2⟩, ⟨3⟩, ⟨4⟩] ∧
      [0, 1, 2, 3].map (fun n => f.succs ⟨n⟩) =
        [[⟨1⟩, ⟨2⟩], [⟨3⟩, ⟨2⟩], [⟨0⟩, ⟨2⟩], [⟨2⟩]]) = true := by
    decide +kernel
  obtain ⟨f, hparse, hchecks⟩ := Run.exists_of_yieldsOne hruns
  obtain ⟨hentry, hstock, hsuccs⟩ := of_decide_eq_true hchecks
  simp only [List.map_cons, List.map_nil, List.cons.injEq, and_true] at hsuccs
  have horder : f.reachable = [⟨0⟩, ⟨1⟩, ⟨3⟩, ⟨2⟩] := by
    rw [reachable, hentry, hstock]
    simp [preorder, hsuccs]
  have hplaces := (composed_of_parseModule hparse f (by simp)).built.coherent.places
  exact ⟨f, hparse, hplaces, horder, reachable_depthFirst hplaces⟩

end Function

end SsaPrune
