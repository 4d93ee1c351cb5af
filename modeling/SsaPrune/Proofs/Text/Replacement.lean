import SsaPrune.Proofs.Text.Positions

/-!
# The end of a text can be exchanged

A reader that stops in front of the end of a text did not look at all of what stands there. So the end
can be exchanged for another one, and the reader stops at the same place, with the same answer up to
places (`Steady`).

How far a reader looks ahead is told by a mark that it must leave in front of the end. The readers of a
head look at the next character only, so any character is enough for them. Those of blocks may read past
every character but a closing brace, and past a brace only in a comment. A function is read up to its
brace, so what stands behind it can be anything (`readFunction_exchange`), be it the rest of a module
(`readModule_append`).
-/

namespace SsaPrune.Reader

variable {α β γ δ : Type} {mark : Char → Prop} {bare : α → γ} {bare' : β → δ} {m m' item : Reader α}
  {k k' : α → Reader β} {s t r u : List Char} {p : Char → Bool} {comment : Bool}

/-! ## Marks -/

/-- There is a mark in the text. -/
def Marked (mark : Char → Prop) (s : List Char) : Prop := ∃ c ∈ s, mark c

namespace Marked

theorem exists_cons (h : Marked mark r) : ∃ c s, r = c :: s := by
  obtain ⟨c, hc, -⟩ := h
  exact List.exists_cons_of_ne_nil (List.ne_nil_of_mem hc)

/-- What ends in a marked text and an end has a mark in front of that end. -/
theorem exists_front (h : Marked mark r) (hsuffix : r ++ t <:+ u) :
    ∃ w, u = w ++ t ∧ Marked mark w := by
  obtain ⟨w, rfl⟩ := hsuffix
  obtain ⟨c, hc, hmark⟩ := h
  exact ⟨w ++ r, (List.append_assoc w r t).symm, c, List.mem_append_right w hc, hmark⟩

/-- What comes next in front of an end does not depend on the end. -/
theorem stops (h : Marked mark r) (hs : Stops p (r ++ t)) (t' : List Char) : Stops p (r ++ t') := by
  obtain ⟨c, s, rfl⟩ := h.exists_cons
  exact stops_cons.mpr (stops_cons.mp hs)

end Marked

/-! ## Steady readers -/

/-- When the first reader leaves a mark in front of an end of the text, then with any other end in its
place the second reader succeeds as well: its answer is the same up to places, and it leaves the same in
front of the end. -/
structure Steady (mark : Char → Prop) (bare : α → γ) (m m' : Reader α) : Prop where
  within : ∀ text, Within text m fun _ => True
  exchange : ∀ {s t a r}, m (s ++ t) = .ok a (r ++ t) → Marked mark r → ∀ t',
    ∃ a', bare a = bare a' ∧ m' (s ++ t') = .ok a' (r ++ t')

/-- An end that is left with a mark in front of it was given with a mark in front of it. -/
theorem Steady.exists_front (h : Steady mark bare m m') {a : α} (ha : m u = .ok a (r ++ t))
    (hr : Marked mark r) : ∃ w, u = w ++ t ∧ Marked mark w :=
  hr.exists_front ((h.within u).ok List.suffix_rfl ha).2

theorem steady_pure {a a' : α} (h : bare a = bare a') : Steady mark bare (pure a) (pure a') where
  within _ := within_pure trivial
  exchange {s t b r} hm _ t' := by
    obtain ⟨rfl, hsr⟩ := EStateM.Result.ok.inj hm
    obtain rfl : s = r := List.append_cancel_right hsr
    exact ⟨a', h, rfl⟩

theorem Steady.bind (h : Steady mark bare m m')
    (hk : ∀ a a', bare a = bare a' → Steady mark bare' (k a) (k' a')) :
    Steady mark bare' (m >>= k) (m' >>= k') where
  within text := (h.within text).andThen fun a => (hk a a rfl).within text
  exchange {s t b q} hb hq t' := by
    obtain ⟨a, u, ha, hka⟩ := Run.bind_eq_ok.mp hb
    obtain ⟨w, rfl, hw⟩ := (hk a a rfl).exists_front hka hq
    obtain ⟨a', haa', ha'⟩ := h.exchange ha hw t'
    obtain ⟨b', hbb', hb'⟩ := (hk a a' haa').exchange hka hq t'
    exact ⟨b', hbb', Run.bind_eq_ok.mpr ⟨a', _, ha', hb'⟩⟩

/-- A step that keeps no places. -/
theorem Steady.step (h : Steady mark id m m') (hk : ∀ a, Steady mark bare' (k a) (k' a)) :
    Steady mark bare' (m >>= k) (m' >>= k') :=
  h.bind fun a a' (haa' : a = a') => haa' ▸ hk a

/-- Of the text itself only its first character stays the same. -/
theorem steady_get : Steady mark List.head? get get where
  within _ := within_get.weaken
  exchange {s t a r} hm hr t' := by
    obtain ⟨rfl, hsr⟩ := EStateM.Result.ok.inj hm
    obtain rfl : s = r := List.append_cancel_right hsr
    obtain ⟨c, s, rfl⟩ := hr.exists_cons
    exact ⟨c :: s ++ t', rfl, rfl⟩

/-- A confined reader leaves the end alone when there is a brace in front of it. -/
theorem Confined.steady (h : Confined m) (hw : ∀ text, Within text m fun _ => True) :
    Steady (· = '\x7d') id m m where
  within := hw
  exchange {s t a r} hm hr t' := by
    obtain ⟨w, hsw, c, hc, rfl⟩ := hr.exists_front ((hw _).ok List.suffix_rfl hm).2
    obtain rfl := List.append_cancel_right hsw
    rw [h.append s t hc] at hm
    refine ⟨a, rfl, ?_⟩
    rw [h.append s t' hc]
    cases ha : m s with
    | ok b u =>
      rw [ha] at hm
      obtain ⟨rfl, hu⟩ := EStateM.Result.ok.inj hm
      rw [List.append_cancel_right hu]
      rfl
    | error e u =>
      rw [ha] at hm
      cases hm

/-! ### Words -/

theorem steady_literal (c : Char) : Steady mark id (literal c) (literal c) where
  within _ := within_literal c
  exchange {s t a r} hm _ t' := by
    obtain rfl : s = c :: r := List.append_cancel_right (eq_cons_of_literal hm)
    exact ⟨(), rfl, literal_cons c (r ++ t')⟩

theorem steady_keyword (w : String) : Steady mark id (keyword w) (keyword w) where
  within _ := within_keyword w
  exchange {s t a r} hm _ t' := by
    have htext := Source.eq_append_of_keyword hm
    rw [← List.append_assoc] at htext
    obtain rfl := List.append_cancel_right htext
    refine ⟨(), rfl, ?_⟩
    rw [List.append_assoc]
    exact Source.keyword_append w (r ++ t')

/-- A word goes as far as its characters do. -/
theorem eq_append_of_word {w : String} (h : word p s = .ok w r) : s = w.toList ++ r ∧ Stops p r := by
  unfold word at h
  split at h
  · cases h
  · obtain ⟨rfl, rfl⟩ := EStateM.Result.ok.inj h
    rw [String.toList_ofList, List.takeWhile_append_dropWhile]
    refine ⟨rfl, fun c hc => ?_⟩
    have hhead := List.head?_dropWhile_not p s
    rw [Option.mem_def.mp hc] at hhead
    simpa using hhead

theorem steady_word (p : Char → Bool) : Steady mark id (word p) (word p) where
  within _ := within_word p
  exchange {s t w r} hm hr t' := by
    obtain ⟨htext, hstops⟩ := eq_append_of_word hm
    have hword := Source.yields_word p _ _ _ hm
    rw [← List.append_assoc] at htext
    obtain rfl := List.append_cancel_right htext
    refine ⟨w, rfl, ?_⟩
    rw [List.append_assoc]
    exact word_append hword.ne hword.all (hr.stops hstops t')

/-! ### Blanks -/

/-- Where blanks end there is neither a blank nor a comment. -/
theorem stops_of_skipBlanks (comment : Bool) (s : List Char) :
    Stops (fun c => isBlank c || c = ';') (skipBlanks comment s) := by
  induction s generalizing comment with
  | nil => exact stops_nil _
  | cons c s ih =>
    rw [skipBlanks]
    split_ifs with hcomment hblank hsemi
    · exact ih _
    · exact ih _
    · exact ih _
    · exact stops_cons.mpr (by simp [hblank, hsemi])

/-- Blanks that end somewhere in front of an end, or just there, do not go into another one unless this
one starts with more of them. -/
theorem skipBlanks_exchange (h : skipBlanks comment (s ++ t) = r ++ t) (hne : r ++ t ≠ [])
    (t' : List Char) : skipBlanks comment (s ++ t') = skipBlanks false (r ++ t') := by
  induction s generalizing comment with
  | nil =>
    have hlen := length_skipBlanks_le comment t
    rw [List.nil_append] at h
    rw [h, List.length_append] at hlen
    obtain rfl : r = [] := List.eq_nil_of_length_eq_zero (by omega)
    cases comment with
    | false => rfl
    | true =>
      -- a comment takes at least the first character
      obtain ⟨c, t, rfl⟩ := List.exists_cons_of_ne_nil hne
      have hlen := length_skipBlanks_le (c ≠ '\n') t
      rw [skipBlanks, if_pos rfl] at h
      rw [h, List.nil_append, List.length_cons] at hlen
      omega
  | cons d s ih =>
    rw [List.cons_append, skipBlanks] at h ⊢
    split_ifs at h ⊢ with hcomment hblank hsemi
    · exact ih h
    · exact ih h
    · exact ih h
    · obtain rfl : d :: s = r := List.append_cancel_right h
      exact (skipBlanks_of_stops (stops_cons.mpr (by simp [hblank, hsemi]))).symm

theorem Marked.skipBlanks_exchange (hr : Marked mark r) (h : skipBlanks comment (s ++ t) = r ++ t)
    (t' : List Char) : skipBlanks comment (s ++ t') = r ++ t' := by
  have hstops := stops_of_skipBlanks comment (s ++ t)
  have hne : r ++ t ≠ [] := by
    obtain ⟨c, r, rfl⟩ := hr.exists_cons
    exact List.cons_ne_nil _ _
  rw [h] at hstops
  rw [Reader.skipBlanks_exchange h hne, skipBlanks_of_stops (hr.stops hstops t')]

theorem skipBlanks_append (h : skipBlanks comment s ≠ []) (t : List Char) :
    skipBlanks comment (s ++ t) = skipBlanks comment s ++ t := by
  obtain ⟨c, r, hr⟩ := List.exists_cons_of_ne_nil h
  have hmark : Marked (· = c) (skipBlanks comment s) := ⟨c, by rw [hr]; exact List.mem_cons_self, rfl⟩
  exact hmark.skipBlanks_exchange (t := []) (by rw [List.append_nil, List.append_nil]) t

/-- Behind blanks that go up to the end of the text there may be a comment that was not ended. -/
theorem skipBlanks_cases (h : skipBlanks comment s = []) (t : List Char) :
    ∃ open?, skipBlanks comment (s ++ t) = skipBlanks open? t := by
  induction s generalizing comment with
  | nil => exact ⟨comment, rfl⟩
  | cons c s ih =>
    rw [List.cons_append, skipBlanks]
    rw [skipBlanks] at h
    split_ifs at h ⊢
    · exact ih h
    · exact ih h
    · exact ih h

/-- A line end ends every comment. -/
theorem skipBlanks_lineEnd (h : skipBlanks comment s = []) (t : List Char) :
    skipBlanks comment (s ++ '\n' :: t) = skipBlanks false t := by
  obtain ⟨open?, hopen⟩ := skipBlanks_cases h ('\n' :: t)
  rw [hopen]
  cases open? <;> rfl

theorem steady_blanks : Steady mark id blanks blanks where
  within _ := within_blanks
  exchange {s t a r} hm hr t' := by
    have hskip : skipBlanks false (s ++ t) = r ++ t := (EStateM.Result.ok.inj hm).2
    exact ⟨(), rfl, by rw [blanks_apply, hr.skipBlanks_exchange hskip t']⟩

/-! ### Lists -/

/-- Items up to where the next character says so. -/
theorem Steady.itemsUntil {stop : List Char → Bool}
    (hstop : ∀ c s s', stop (c :: s) = stop (c :: s')) (h : Steady mark bare item item) :
    Steady mark (List.map bare) (itemsUntil stop item) (itemsUntil stop item) where
  within _ := ((h.within _).itemsUntil stop).weaken
  exchange {s t as r} has hr t' := by
    have hsame : ∀ {w : List Char}, Marked mark w → stop (w ++ t') = stop (w ++ t) := by
      intro w hw
      obtain ⟨c, w, rfl⟩ := hw.exists_cons
      exact hstop c _ _
    generalize hst : s ++ t = u at has
    fun_induction Reader.itemsUntil stop item u generalizing s as r with
    | case1 u hend =>
      obtain ⟨rfl, hskip⟩ := EStateM.Result.ok.inj has
      subst hst
      refine ⟨[], rfl, itemsUntil_nil (hr.skipBlanks_exchange hskip t') ?_⟩
      rw [hsame hr, ← hskip]
      exact hend
    | case2 u hgo a rest ha hlen more v hmore ih =>
      obtain ⟨rfl, rfl⟩ := EStateM.Result.ok.inj has
      subst hst
      obtain ⟨w, rfl, hw⟩ := hr.exists_front (((h.within _).itemsUntil stop).ok List.suffix_rfl hmore).2
      obtain ⟨y, hy, hymark⟩ := h.exists_front ha hw
      rw [hy] at ha hgo hlen
      obtain ⟨a', hbare, ha'⟩ := h.exchange ha hw t'
      obtain ⟨more', hbares, hmore'⟩ := ih hr rfl hmore
      refine ⟨a' :: more', by rw [List.map_cons, List.map_cons, hbare, hbares], ?_⟩
      refine itemsUntil_cons (hymark.skipBlanks_exchange hy t') ?_ ha' ?_ hmore'
      · rw [hsame hymark]
        exact Bool.eq_false_iff.mpr hgo
      · simpa using hlen
    | case3 => cases has
    | case4 => cases has
    | case5 => cases has

/-- The items after the first, when it is not a comma that they end in front of. -/
theorem Steady.moreItems (h : Steady mark id item item) {as : List α}
    (has : moreItems item (s ++ t) = (as, r ++ t)) (hr : Marked mark r)
    (hcomma : Stops (· = ',') (r ++ t)) (t' : List Char) :
    Reader.moreItems item (s ++ t') = (as, r ++ t') := by
  have hnot : ∀ rest, ',' :: rest ≠ r ++ t := by
    intro rest heq
    rw [← heq] at hcomma
    simp at hcomma
  generalize hst : s ++ t = u at has
  fun_induction Reader.moreItems item u generalizing s as with
  | case1 rest a rest' ha hlen more v hmore ih =>
    obtain ⟨rfl, rfl⟩ := Prod.mk.inj has
    have hsuffix := ((h.within rest').moreItems List.suffix_rfl).2
    rw [hmore] at hsuffix
    obtain ⟨w, rfl, hw⟩ := hr.exists_front hsuffix
    obtain ⟨y, rfl, -⟩ := h.exists_front ha hw
    obtain rfl : s = ',' :: y := List.append_cancel_right hst
    obtain ⟨_, rfl, ha'⟩ := h.exchange ha hw t'
    rw [List.cons_append, moreItems_cons ha' (by simpa using hlen), ih rfl hmore]
    rfl
  | case2 rest a rest' ha hlen => exact absurd (Prod.mk.inj has).2 (hnot rest)
  | case3 rest e rest' ha => exact absurd (Prod.mk.inj has).2 (hnot rest)
  | case4 u hu =>
    obtain ⟨rfl, rfl⟩ := Prod.mk.inj has
    obtain rfl := List.append_cancel_right hst
    exact moreItems_of_stops (hr.stops hcomma t')

theorem Steady.items1 (h : Steady mark id item item) {as : List α}
    (has : items1 item (s ++ t) = .ok as (r ++ t)) (hr : Marked mark r)
    (hcomma : Stops (· = ',') (r ++ t)) (t' : List Char) :
    Reader.items1 item (s ++ t') = .ok as (r ++ t') := by
  have happly : ∀ s, (modifyGet (Reader.moreItems item) : Reader (List α)) s =
      .ok (Reader.moreItems item s).1 (Reader.moreItems item s).2 := fun _ => rfl
  obtain ⟨a, u, ha, hmore⟩ := Run.bind_eq_ok.mp has
  rw [Run.bind_of_ok (happly u)] at hmore
  obtain ⟨rfl, hrest⟩ := EStateM.Result.ok.inj hmore
  have hsuffix := ((h.within u).moreItems List.suffix_rfl).2
  rw [hrest] at hsuffix
  obtain ⟨w, rfl, hw⟩ := hr.exists_front hsuffix
  obtain ⟨_, rfl, ha'⟩ := h.exchange ha hw t'
  have hmore' := h.moreItems (Prod.ext rfl hrest) hr hcomma t'
  rw [Reader.items1, Run.bind_of_ok ha', Run.bind_of_ok (happly _), hmore']
  rfl

end SsaPrune.Reader

namespace SsaPrune.Source

open Reader

variable {mark : Char → Prop} {s t r : List Char}

/-! ## The head of a function -/

/-- A function without its blocks: what is read of it in front of its body. -/
def readSignature : Reader Function := do
  blanks
  let start ← get
  keyword "func"
  blanks
  let name ← readName '@'
  blanks
  let params ← readParams
  blanks
  return { start, name, params, blocks := [] }

/-- What is read of a function up to where its body starts: also the opening brace, and the blanks
behind it. -/
def readHead : Reader Function := do
  let head ← readSignature
  literal '\x7b'
  blanks
  return head

/-- The blocks that start with their labels. -/
def readLabelled : Reader (List Block) := itemsUntil (fun s => !startsWith '^' s) readBlock

/-- The blocks of a body. -/
def readBlocks : Reader (List Block) := do
  let first ← readFirstBlock
  let labelled ← readLabelled
  return first ++ labelled

/-- A function is read as its head and then its body. -/
theorem readFunction_eq : readFunction = (do
    let head ← readHead
    let blocks ← readBlocks
    literal '\x7d'
    return { head with blocks }) := by
  simp only [readHead, readSignature, readBlocks, bind_assoc, pure_bind]
  rfl

theorem steady_readName (sign : Char) : Steady mark id (readName sign) (readName sign) :=
  (steady_literal sign).step fun _ => steady_word _

theorem steady_readParam : Steady mark id readParam readParam :=
  steady_blanks.step fun _ => (steady_readName '%').step fun _ => steady_blanks.step fun _ =>
    steady_pure rfl

theorem stops_comma_of_close {s : List Char} (h : (skipBlanks false s).head? = some ')') :
    Stops (· = ',') s := by
  cases s with
  | nil => exact stops_nil _
  | cons c s =>
    refine stops_cons.mpr (decide_eq_false fun hc => ?_)
    subst hc
    cases h

/-- In front of the closing parenthesis there are no parameters left. -/
theorem items_readParam_of_close {s : List Char} (h : s.head? = some ')') :
    items readParam s = .ok [] s := by
  obtain ⟨s, rfl⟩ := List.head?_eq_some_iff.mp h
  rfl

/-- In front of the closing parenthesis the parameters end, whatever stands behind it. -/
theorem items_readParam_exchange {names : List String}
    (h : items readParam (s ++ t) = .ok names (r ++ t)) (hr : Marked mark r)
    (hclose : (skipBlanks false (r ++ t)).head? = some ')') (hs : skipBlanks false (s ++ t) = s ++ t)
    (t' : List Char) : items readParam (s ++ t') = .ok names (r ++ t') := by
  obtain ⟨names?, u, hattempt, heq⟩ := Run.bind_eq_ok.mp h
  obtain ⟨rfl, rfl⟩ := EStateM.Result.ok.inj heq
  unfold attempt at hattempt
  split at hattempt
  · rename_i hlist
    obtain ⟨rfl, rfl⟩ := EStateM.Result.ok.inj hattempt
    have hlist' := steady_readParam.items1 hlist hr (stops_comma_of_close hclose) t'
    rw [items, Run.bind_apply, attempt, hlist']
    rfl
  · obtain ⟨rfl, hsr⟩ := EStateM.Result.ok.inj hattempt
    obtain rfl := List.append_cancel_right hsr
    obtain ⟨c, s, rfl⟩ := hr.exists_cons
    refine items_readParam_of_close ?_
    rw [hs] at hclose
    exact hclose

theorem steady_readParams : Steady mark id readParams readParams := by
  refine (steady_literal '(').step fun _ => ?_
  have hend : ∀ names : List String, Steady mark id (do blanks; literal ')'; return names)
      (do blanks; literal ')'; return names) := fun names =>
    steady_blanks.step fun _ => (steady_literal ')').step fun _ => steady_pure rfl
  have hparam : Steady mark id readParam readParam := steady_readParam
  have hitems : ∀ text, Within text (items readParam) fun _ => True :=
    fun text => (hparam.within text).items.weaken
  refine ⟨fun text => within_blanks.andThen fun _ => (hitems text).andThen fun names =>
    (hend names).within text, fun {s t names r} h hr t' => ?_⟩
  -- the blanks after the list lead to the closing parenthesis, so the list did not end too early
  obtain ⟨_, u, hblanks, hbehind⟩ := Run.bind_eq_ok.mp h
  obtain ⟨names', v, hlist, hrest⟩ := Run.bind_eq_ok.mp hbehind
  obtain ⟨w, rfl, hw⟩ := (hend names').exists_front hrest hr
  obtain ⟨y, rfl, hy⟩ := hw.exists_front ((hitems u).ok List.suffix_rfl hlist).2
  have hclose : (skipBlanks false (w ++ t)).head? = some ')' := by
    obtain ⟨_, x, hskip, hlit⟩ := Run.bind_eq_ok.mp hrest
    obtain ⟨-, rfl⟩ := EStateM.Result.ok.inj hskip
    obtain ⟨_, x', hlit, -⟩ := Run.bind_eq_ok.mp hlit
    rw [eq_cons_of_literal hlit]
    rfl
  have hskip : skipBlanks false (s ++ t) = y ++ t := (EStateM.Result.ok.inj hblanks).2
  have hstart : skipBlanks false (y ++ t) = y ++ t := by rw [← hskip, skipBlanks_skipBlanks]
  obtain ⟨_, -, hblanks'⟩ := steady_blanks.exchange hblanks hy t'
  obtain ⟨names'', hnames, hrest'⟩ := (hend names').exchange hrest hr t'
  refine ⟨names'', hnames, ?_⟩
  rw [Run.bind_of_ok hblanks']
  exact (Run.bind_of_ok (items_readParam_exchange hlist hw hclose hstart t')).trans hrest'

theorem steady_readSignature : Steady mark Function.bare readSignature readSignature := by
  refine steady_blanks.step fun _ => steady_get.bind fun start start' _ => ?_
  refine (steady_keyword "func").step fun _ => steady_blanks.step fun _ => ?_
  refine (steady_readName '@').step fun name => steady_blanks.step fun _ => ?_
  exact steady_readParams.step fun params => steady_blanks.step fun _ => steady_pure rfl

theorem steady_readHead : Steady mark Function.bare readHead readHead :=
  steady_readSignature.bind fun _ _ hhead => (steady_literal '\x7b').step fun _ =>
    steady_blanks.step fun _ => steady_pure hhead

/-- **What stands at the start of a body can be exchanged.** How far the blanks go then depends on what
is put there. -/
theorem readHead_exchange {head : Function} (h : readHead (s ++ t) = .ok head t) :
    ∃ w, skipBlanks false (w ++ t) = t ∧ ∀ t', ∃ head', head.bare = head'.bare ∧
      readHead (s ++ t') = .ok head' (skipBlanks false (w ++ t')) := by
  obtain ⟨_, u, hsignature, hbehind⟩ := Run.bind_eq_ok.mp h
  obtain ⟨_, v, hlit, hbehind⟩ := Run.bind_eq_ok.mp hbehind
  obtain ⟨_, x, hblanks, heq⟩ := Run.bind_eq_ok.mp hbehind
  obtain ⟨rfl, rfl⟩ := EStateM.Result.ok.inj heq
  have hskip : skipBlanks false v = x := (EStateM.Result.ok.inj hblanks).2
  obtain ⟨w, rfl⟩ : x <:+ v := hskip ▸ skipBlanks_suffix false v
  have hbrace : u = ('\x7b' :: w) ++ x := eq_cons_of_literal hlit
  rw [hbrace] at hsignature
  refine ⟨w, hskip, fun t' => ?_⟩
  obtain ⟨head', hbare, hsignature'⟩ := steady_readSignature.exchange hsignature
    (⟨_, List.mem_cons_self, trivial⟩ : Marked (fun _ => True) ('\x7b' :: w)) t'
  refine ⟨head', hbare, ?_⟩
  rw [readHead, Run.bind_of_ok hsignature', List.cons_append, Run.bind_of_ok (literal_cons _ _),
    Run.bind_of_ok (blanks_apply _)]
  rfl

/-! ## Blocks and functions -/

theorem steady_readInst : Steady (· = '\x7d') Inst.bare readInst readInst := by
  refine steady_get.bind fun start start' _ => ?_
  refine (confined_readResult.attempt.steady fun _ => within_readResult.attempt.weaken).step
    fun result => ?_
  refine (steady_word _).step fun opcode => ?_
  refine (confined_padding.steady fun _ => within_padding).step fun _ => ?_
  refine (confined_readCallee.attempt.steady fun _ => within_readCallee.attempt.weaken).step
    fun callee => ?_
  split
  · exact (confined_readIncoming.steady fun _ => within_readIncoming).step fun _ => steady_pure rfl
  · exact (confined_readPlain.steady fun _ => within_readPlain).step fun _ => steady_pure rfl

theorem steady_readInsts : Steady (· = '\x7d') (List.map Inst.bare) readInsts readInsts :=
  steady_readInst.itemsUntil fun _ _ _ => rfl

theorem steady_readBlock : Steady (· = '\x7d') Block.bare readBlock readBlock := by
  refine steady_blanks.step fun _ => steady_get.bind fun start start' _ => ?_
  refine (steady_readName '^').step fun label => ?_
  refine (confined_padding.steady fun _ => within_padding).step fun _ => ?_
  refine (steady_literal ':').step fun _ => ?_
  exact steady_readInsts.bind fun insts insts' hinsts => steady_pure (by simp [Block.bare, hinsts])

theorem steady_readFirstBlock :
    Steady (· = '\x7d') (List.map Block.bare) readFirstBlock readFirstBlock := by
  refine steady_get.bind fun start start' hstart => ?_
  have hsame : ∀ c, startsWith c start' = startsWith c start := fun c => by
    rw [startsWith, startsWith, hstart]
  simp only [hsame]
  split
  · exact steady_pure rfl
  · exact steady_readInsts.bind fun insts insts' hinsts =>
      steady_pure (by simp [Block.bare, hinsts])

theorem steady_readLabelled : Steady (· = '\x7d') (List.map Block.bare) readLabelled readLabelled :=
  steady_readBlock.itemsUntil fun _ _ _ => rfl

theorem steady_readBlocks : Steady (· = '\x7d') (List.map Block.bare) readBlocks readBlocks := by
  refine steady_readFirstBlock.bind fun first first' hfirst => ?_
  refine steady_readLabelled.bind fun labelled labelled' hlabelled => steady_pure ?_
  rw [List.map_append, List.map_append, hfirst, hlabelled]

/-- **What stands behind a function can be exchanged.** -/
theorem readFunction_exchange {source : Function} (h : readFunction (s ++ t) = .ok source (r ++ t))
    (t' : List Char) :
    ∃ source', source.bare = source'.bare ∧ readFunction (s ++ t') = .ok source' (r ++ t') := by
  rw [readFunction_eq] at h ⊢
  obtain ⟨head, u, hhead, hbody⟩ := Run.bind_eq_ok.mp h
  obtain ⟨blocks, v, hblocks, hclose⟩ := Run.bind_eq_ok.mp hbody
  obtain ⟨_, w, hlit, heq⟩ := Run.bind_eq_ok.mp hclose
  obtain ⟨rfl, rfl⟩ := EStateM.Result.ok.inj heq
  -- the closing brace is the mark that the blocks leave
  have hbrace : v = ('\x7d' :: r) ++ t := eq_cons_of_literal hlit
  have hmark : Marked (· = '\x7d') ('\x7d' :: r) := ⟨_, List.mem_cons_self, rfl⟩
  rw [hbrace] at hblocks
  obtain ⟨x, rfl, hx⟩ := steady_readBlocks.exists_front hblocks hmark
  obtain ⟨head', hbare, hhead'⟩ := steady_readHead.exchange hhead hx t'
  obtain ⟨blocks', hbares, hblocks'⟩ := steady_readBlocks.exchange hblocks hmark t'
  refine ⟨{ head' with blocks := blocks' }, ?_, ?_⟩
  · simp only [Function.bare, Function.mk.injEq, true_and] at hbare ⊢
    exact ⟨hbare.1, hbare.2.1, hbares⟩
  · rw [Run.bind_of_ok hhead', Run.bind_of_ok hblocks', List.cons_append,
      Run.bind_of_ok (literal_cons _ _)]
    rfl

theorem readFunction_append {source : Function} (h : readFunction s = .ok source r) (t : List Char) :
    ∃ source', source.bare = source'.bare ∧ readFunction (s ++ t) = .ok source' (r ++ t) := by
  rw [← List.append_nil s, ← List.append_nil r] at h
  exact readFunction_exchange h t

/-! ## Modules -/

/-- Items are read from behind the blanks. -/
theorem itemsUntil_congr {α : Type} {stop : List Char → Bool} {item : Reader α} {s t : List Char}
    (h : skipBlanks false s = skipBlanks false t) :
    itemsUntil stop item s = itemsUntil stop item t := by
  rw [itemsUntil, itemsUntil, h]

/-- **Two modules, one behind the other, are read as one.** -/
theorem readModule_append {s t u r : List Char} {sources more : List Function}
    (hs : readModule s = .ok sources u) (ht : readModule t = .ok more r) :
    ∃ sources', sources.map Function.bare = sources'.map Function.bare ∧
      readModule (s ++ '\n' :: t) = .ok (sources' ++ more) r := by
  unfold readModule at hs ⊢
  fun_induction itemsUntil List.isEmpty readFunction s generalizing sources u with
  | case1 s hend =>
    obtain ⟨rfl, rfl⟩ := EStateM.Result.ok.inj hs
    refine ⟨[], rfl, ?_⟩
    rw [itemsUntil_congr (skipBlanks_lineEnd (List.isEmpty_iff.mp hend) t)]
    exact ht
  | case2 s hgo source rest hsource hlen sources' u' hsources ih =>
    obtain ⟨rfl, rfl⟩ := EStateM.Result.ok.inj hs
    obtain ⟨source', hbare, hread⟩ := readFunction_append hsource ('\n' :: t)
    obtain ⟨sources'', hbares, hreads⟩ := ih hsources
    refine ⟨source' :: sources'', by simp [hbare, hbares], ?_⟩
    have hne : skipBlanks false s ≠ [] := fun he => hgo (by rw [he]; rfl)
    refine itemsUntil_cons (skipBlanks_append hne _) ?_ hread ?_ hreads
    · simp [hne]
    · simpa using hlen
  | case3 => cases hs
  | case4 => cases hs
  | case5 => cases hs

end SsaPrune.Source
