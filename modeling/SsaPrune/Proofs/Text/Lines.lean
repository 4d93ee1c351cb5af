import SsaPrune.Proofs.Text.Positions

/-!
# An instruction stays on its line

Between the parts of an instruction only padding is read, and no part of it has room for the end of a
line or for a comment. So whatever is read of an instruction stands within one line (`InLine`), and a
list that goes on behind the line end is not read past it.

The lemmas follow the ways in which readers are put together, and then the grammar; the main statement is
`readInst_inLine`.
-/

namespace SsaPrune.Reader

variable {α β : Type} {p : Char → Bool} {item : Reader α} {s : List Char} {c : Char}

/-- The character neither ends a line nor starts a comment. -/
def InLine (c : Char) : Prop := c ≠ '\n' ∧ c ≠ '\r' ∧ c ≠ ';'

instance : DecidablePred InLine := fun _ => inferInstanceAs (Decidable (_ ∧ _ ∧ _))

theorem inLine_of (hn : p '\n' = false) (hr : p '\r' = false) (hs : p ';' = false)
    (hc : p c = true) : InLine c := by
  refine ⟨?_, ?_, ?_⟩
  all_goals
    rintro rfl
    simp_all

/-- What is read stands at the front of the text and within a line, and the rest is left. -/
def StaysInLine (item : Reader α) : Prop :=
  ∀ s a rest, item s = .ok a rest → ∃ taken, s = taken ++ rest ∧ ∀ c ∈ taken, InLine c

/-! ## Putting readers together -/

theorem staysInLine_pure (a : α) : StaysInLine (pure a) := by
  intro s b rest h
  obtain ⟨-, rfl⟩ := EStateM.Result.ok.inj h
  exact ⟨[], rfl, by simp⟩

theorem StaysInLine.bind {k : α → Reader β} (h : StaysInLine item) (hk : ∀ a, StaysInLine (k a)) :
    StaysInLine (item >>= k) := by
  intro s b rest hb
  obtain ⟨a, t, ha, hka⟩ := Run.bind_eq_ok.mp hb
  obtain ⟨taken, rfl, htaken⟩ := h s a t ha
  obtain ⟨more, rfl, hmore⟩ := hk a t b rest hka
  exact ⟨taken ++ more, by rw [List.append_assoc], List.forall_mem_append.mpr ⟨htaken, hmore⟩⟩

/-- A look at the text takes nothing. -/
theorem staysInLine_get {k : List Char → Reader β} (hk : ∀ s, StaysInLine (k s)) :
    StaysInLine (get >>= k) :=
  fun s => hk s s

theorem StaysInLine.ite {q : Prop} [Decidable q] {other : Reader α} (h : StaysInLine item)
    (ho : StaysInLine other) : StaysInLine (if q then item else other) := by
  split
  · exact h
  · exact ho

theorem staysInLine_literal (hc : InLine c) : StaysInLine (literal c) := by
  intro s u rest h
  exact ⟨[c], eq_cons_of_literal h, by simpa using hc⟩

theorem staysInLine_scan (hp : ∀ c, p c = true → InLine c) (s : List Char) :
    s = s.takeWhile p ++ s.dropWhile p ∧ ∀ c ∈ s.takeWhile p, InLine c :=
  ⟨List.takeWhile_append_dropWhile.symm, fun c hc => hp c (List.all_eq_true.mp List.all_takeWhile c hc)⟩

theorem staysInLine_word (hp : ∀ c, p c = true → InLine c) : StaysInLine (word p) := by
  intro s w rest h
  unfold word at h
  split at h
  · cases h
  · obtain ⟨-, rfl⟩ := EStateM.Result.ok.inj h
    exact ⟨_, staysInLine_scan hp s⟩

theorem staysInLine_padding : StaysInLine padding := by
  intro s u rest h
  obtain ⟨-, rfl⟩ := EStateM.Result.ok.inj h
  exact ⟨_, staysInLine_scan (fun _ => inLine_of rfl rfl rfl) s⟩

theorem StaysInLine.padded (h : StaysInLine item) : StaysInLine (padded item) :=
  staysInLine_padding.bind fun _ => h.bind fun a => staysInLine_padding.bind fun _ =>
    staysInLine_pure a

theorem StaysInLine.attempt (h : StaysInLine item) : StaysInLine (attempt item) := by
  intro s a? rest ha
  unfold Reader.attempt at ha
  split at ha
  · rename_i hitem
    obtain ⟨-, rfl⟩ := EStateM.Result.ok.inj ha
    exact h s _ _ hitem
  · obtain ⟨-, rfl⟩ := EStateM.Result.ok.inj ha
    exact ⟨[], rfl, by simp⟩

/-! ### Integers -/

theorem positive?_inLine {n : Int} {rest : List Char} (h : positive? s = some (n, rest)) :
    ∃ taken, s = taken ++ rest ∧ ∀ c ∈ taken, InLine c := by
  unfold positive? at h
  split at h
  · split at h
    · obtain ⟨-, rfl⟩ := Prod.mk.inj (Option.some.inj h)
      exact ⟨_, staysInLine_scan (fun _ => inLine_of rfl rfl rfl) _⟩
    · cases h
  · cases h

theorem integer?_inLine {n : Int} {rest : List Char} (h : integer? s = some (n, rest)) :
    ∃ taken, s = taken ++ rest ∧ ∀ c ∈ taken, InLine c := by
  cases s with
  | nil => cases h
  | cons c s =>
    have hsigned : ∀ {m : Int}, InLine c → positive? s = some (m, rest) →
        ∃ taken, c :: s = taken ++ rest ∧ ∀ c ∈ taken, InLine c := by
      intro m hc hm
      obtain ⟨taken, rfl, htaken⟩ := positive?_inLine hm
      exact ⟨c :: taken, rfl, List.forall_mem_cons.mpr ⟨hc, htaken⟩⟩
    rw [integer?_cons] at h
    split_ifs at h with hzero hplus hminus
    · obtain ⟨-, rfl⟩ := Prod.mk.inj (Option.some.inj h)
      exact ⟨[c], rfl, by simpa [hzero] using (by decide : InLine '0')⟩
    · exact hsigned (hplus ▸ by decide) h
    · obtain ⟨⟨m, r⟩, hm, heq⟩ := Option.map_eq_some_iff.mp h
      obtain ⟨-, rfl⟩ := Prod.mk.inj heq
      exact hsigned (hminus ▸ by decide) hm
    · exact positive?_inLine h

theorem staysInLine_integer : StaysInLine integer := by
  intro s n rest h
  unfold integer at h
  split at h
  · rename_i hint
    split at h
    · obtain ⟨-, rfl⟩ := EStateM.Result.ok.inj h
      exact integer?_inLine hint
    · cases h
  · cases h

/-! ### Lists -/

theorem StaysInLine.moreItems (h : StaysInLine item) (s : List Char) :
    ∃ taken, s = taken ++ (moreItems item s).2 ∧ ∀ c ∈ taken, InLine c := by
  fun_induction Reader.moreItems item s with
  | case1 rest a rest' ha hlen more rest'' hmore ih =>
    rw [hmore] at ih
    obtain ⟨first, rfl, hfirst⟩ := h _ _ _ ha
    obtain ⟨taken, rfl, htaken⟩ := ih
    refine ⟨',' :: (first ++ taken), by simp, List.forall_mem_cons.mpr ⟨by decide, ?_⟩⟩
    exact List.forall_mem_append.mpr ⟨hfirst, htaken⟩
  | case2 => exact ⟨[], rfl, by simp⟩
  | case3 => exact ⟨[], rfl, by simp⟩
  | case4 => exact ⟨[], rfl, by simp⟩

theorem StaysInLine.items1 (h : StaysInLine item) : StaysInLine (items1 item) := by
  refine h.bind fun a => StaysInLine.bind (fun s more rest hmore => ?_) fun _ => staysInLine_pure _
  obtain ⟨-, rfl⟩ := EStateM.Result.ok.inj
    (show EStateM.Result.ok (Reader.moreItems item s).1 _ = _ from hmore)
  exact h.moreItems s

end SsaPrune.Reader

namespace SsaPrune.Source

open Reader

/-! ## The grammar of an instruction -/

theorem staysInLine_readName {sign : Char} (hs : InLine sign) : StaysInLine (readName sign) :=
  (staysInLine_literal hs).bind fun _ => staysInLine_word fun _ => inLine_of rfl rfl rfl

theorem staysInLine_readOperand : StaysInLine readOperand :=
  staysInLine_get fun _ => .ite
    ((staysInLine_readName (by decide)).bind fun _ => staysInLine_pure _)
    (staysInLine_integer.bind fun _ => staysInLine_pure _)

theorem staysInLine_readSuccessors : StaysInLine readSuccessors :=
  (staysInLine_literal (by decide)).bind fun _ => staysInLine_padding.bind fun _ =>
    (staysInLine_readName (by decide)).padded.items1.bind fun _ => staysInLine_padding.bind fun _ =>
      (staysInLine_literal (by decide)).bind fun _ => staysInLine_pure _

theorem staysInLine_readPair : StaysInLine readPair :=
  (staysInLine_literal (by decide)).bind fun _ => staysInLine_padding.bind fun _ =>
    staysInLine_readOperand.bind fun _ => staysInLine_padding.bind fun _ =>
      (staysInLine_literal (by decide)).bind fun _ => staysInLine_padding.bind fun _ =>
        (staysInLine_readName (by decide)).bind fun _ => staysInLine_padding.bind fun _ =>
          (staysInLine_literal (by decide)).bind fun _ => staysInLine_pure _

theorem staysInLine_readIncoming : StaysInLine readIncoming :=
  staysInLine_readPair.padded.items1.bind fun _ => staysInLine_pure _

theorem staysInLine_readPlain : StaysInLine readPlain := by
  rw [readPlain_eq, optional_eq, optional_eq]
  refine (staysInLine_get fun _ => .ite staysInLine_readOperand.padded.items1
    (staysInLine_pure _)).bind fun _ => staysInLine_padding.bind fun _ => ?_
  exact (staysInLine_get fun _ => .ite staysInLine_readSuccessors
    (staysInLine_pure _)).bind fun _ => staysInLine_pure _

theorem staysInLine_readResult : StaysInLine readResult :=
  (staysInLine_readName (by decide)).bind fun _ => staysInLine_padding.bind fun _ =>
    (staysInLine_literal (by decide)).bind fun _ => staysInLine_padding.bind fun _ =>
      staysInLine_pure _

theorem staysInLine_readCallee : StaysInLine readCallee :=
  (staysInLine_readName (by decide)).bind fun _ => staysInLine_padding.bind fun _ =>
    staysInLine_pure _

theorem staysInLine_readInst : StaysInLine readInst := by
  refine staysInLine_get fun start => staysInLine_readResult.attempt.bind fun result => ?_
  refine (staysInLine_word fun _ => inLine_of rfl rfl rfl).bind fun opcode => ?_
  refine staysInLine_padding.bind fun _ => staysInLine_readCallee.attempt.bind fun callee => ?_
  split
  · exact staysInLine_readIncoming.bind fun _ => staysInLine_pure _
  · exact staysInLine_readPlain.bind fun _ => staysInLine_pure _

/-- What follows a character that was not read is left as it is. -/
theorem exists_left_of_append {c : Char} {taken rest before after : List Char}
    (htaken : ∀ d ∈ taken, d ≠ c) (h : taken ++ rest = before ++ c :: after) :
    ∃ left, rest = left ++ c :: after := by
  obtain ⟨left, rfl, rfl⟩ | ⟨left, rfl, hleft⟩ := List.append_eq_append_iff.mp h
  · exact ⟨left, rfl⟩
  · cases left with
    | nil => exact ⟨[], hleft.symm⟩
    | cons d left =>
      obtain ⟨rfl, -⟩ := List.cons.inj hleft
      exact absurd rfl (htaken c (by simp))

/-- **An instruction does not go on behind the end of its line**: what is read of it is not empty and
has in it no line feed, no carriage return and no semicolon. So from the first of these on, the text is
left as it is, whatever the instruction lacks there. -/
theorem readInst_inLine {s rest : List Char} {inst : Inst} (h : readInst s = .ok inst rest) :
    ∃ taken, s = taken ++ rest ∧ taken ≠ [] ∧
      (∀ c ∈ taken, c ≠ '\n' ∧ c ≠ '\r' ∧ c ≠ ';') ∧
      ∀ before c after, s = before ++ c :: after → c ∈ ['\n', '\r', ';'] →
        ∃ left, rest = left ++ c :: after := by
  obtain ⟨taken, hs, hline⟩ := staysInLine_readInst s inst rest h
  refine ⟨taken, hs, fun hnil => ?_, hline, fun before c after hsplit hc => ?_⟩
  · have hless := progresses_readInst s inst rest h
    rw [hs, hnil] at hless
    exact Nat.lt_irrefl _ hless
  · refine exists_left_of_append (fun d hd => ?_) (hs.symm.trans hsplit)
    obtain ⟨hn, hr, hsemi⟩ := hline d hd
    rintro rfl
    simp_all

/-- A list that ends in a comma is not completed from the next line. -/
theorem readInst_inLine_comma : ∃ inst rest, readInst "%x = add %a ,\n%b\n".toList = .ok inst rest ∧
    inst.arguments = .plain [.name "a"] [] ∧
    ∃ taken, "%x = add %a ,\n%b\n".toList = taken ++ rest ∧ taken ≠ [] ∧
      ∃ left, rest = left ++ '\n' :: "%b\n".toList := by
  have hread : (match readInst "%x = add %a ,\n%b\n".toList with
      | .ok inst _ => inst.arguments = .plain [.name "a"] []
      | .error _ _ => false) = true := by
    decide +kernel
  cases h : readInst "%x = add %a ,\n%b\n".toList with
  | error e rest =>
    rw [h] at hread
    cases hread
  | ok inst rest =>
    rw [h] at hread
    obtain ⟨taken, hs, hne, -, hleft⟩ := readInst_inLine h
    exact ⟨inst, rest, rfl, of_decide_eq_true hread, taken, hs, hne,
      hleft "%x = add %a ,".toList '\n' "%b\n".toList (by decide) (by simp)⟩

end SsaPrune.Source
