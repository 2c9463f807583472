import KeepalivedDevel.StringParser.Simulation

/-!
# Comments do not change the words

Two runs of the word splitter side by side: on a string, and on the same string
with a comment behind it. As long as the first run is inside the string the
second one makes the same steps with the comment still ahead of it, and where
the first run stops at the end of the string the second one stops at the comment.
-/

namespace KeepalivedDevel.StringParser
open CLib CLib.While

/- `cur_quote` when the outer loop is left. -/
def quoteAtEnd (src : CString) : Option Quote :=
  (visits outerBody (fun s => s.ofs.length) ⟨src.bytes, none, []⟩).getLast?.bind Outer.curQuote

def Cursor.before (comment : List UInt8) (c : Cursor) : Cursor :=
  { c with ofs := c.ofs ++ comment }

def Outer.before (comment : List UInt8) (s : Outer) : Outer :=
  { s with ofs := s.ofs ++ comment }

/-! ### Escapes in front of a comment -/

section
variable {c : UInt8} (hc : c ∈ commentStartChrs) (t : List UInt8)
include hc

theorem comment_not_digit : isxdigit c = false ∧ isOctal c = false := by
  simp only [commentStartChrs, List.mem_cons, List.not_mem_nil, or_false] at hc
  rcases hc with rfl | rfl <;> decide

theorem comment_not_blank : c ∉ whiteSpace := by
  simp only [commentStartChrs, List.mem_cons, List.not_mem_nil, or_false] at hc
  rcases hc with rfl | rfl <;> decide

theorem hexDigits_before (v : UInt8) (ofs : List UInt8) :
    hexDigits v (ofs ++ c :: t) = ((hexDigits v ofs).1, (hexDigits v ofs).2 ++ c :: t) := by
  induction ofs generalizing v with
  | nil => simp [hexDigits, (comment_not_digit hc).1]
  | cons d ofs ih =>
    rw [List.cons_append, hexDigits, hexDigits]
    split
    · exact ih _
    · rfl

theorem octalDigit_before (v : UInt8) (ofs : List UInt8) :
    octalDigit v (ofs ++ c :: t) = ((octalDigit v ofs).1, (octalDigit v ofs).2 ++ c :: t) := by
  cases ofs with
  | nil => simp [octalDigit, (comment_not_digit hc).2]
  | cons d ofs =>
    rw [List.cons_append, octalDigit, octalDigit]
    split <;> rfl

theorem startsHex_before (ofs : List UInt8) : startsHex (ofs ++ c :: t) = startsHex ofs := by
  cases ofs with
  | nil => exact (comment_not_digit hc).1
  | cons d ofs => rfl

theorem escape_before {s ofs : List UInt8} {v : UInt8} (h : escape s = some (v, ofs)) :
    escape (s ++ c :: t) = some (v, ofs ++ c :: t) := by
  cases s with
  | nil => cases h
  | cons d s =>
    rw [escape] at h
    rw [List.cons_append, escape, startsHex_before hc, hexDigits_before hc, octalDigit_before hc]
    simp only [octalDigit_before hc]
    split at h
    · next hx =>
      rw [if_pos hx, Option.some.inj h]
    · next hx =>
      rw [if_neg hx]
      split at h
      · next ho =>
        rw [if_pos ho, Option.some.inj h]
      · next ho =>
        cases h
        rw [if_neg ho]

end

/-! ### The inner loop -/

theorem delimiter_stop {ch : UInt8} (opBuf rest : List UInt8) (hb : ch ≠ backslash)
    (hq : ∀ q : Quote, ch ≠ q.char) :
    delimiter opBuf none ch rest = .leave (.ok ⟨ch :: rest, opBuf, none⟩) := by
  have hs : ch ≠ 39 := hq .single
  have hd : ch ≠ 34 := hq .double
  simp [delimiter, hb, hs, hd]

theorem comment_not_quote {c : UInt8} (hc : c ∈ commentStartChrs) :
    c ≠ backslash ∧ ∀ q : Quote, c ≠ q.char := by
  simp only [commentStartChrs, List.mem_cons, List.not_mem_nil, or_false] at hc
  rcases hc with rfl | rfl <;> exact ⟨by decide, fun q => by cases q <;> decide⟩

section
variable {c : UInt8} (hc : c ∈ commentStartChrs) (t : List UInt8)
include hc

theorem delimiter_before {opBuf rest : List UInt8} {q : Option Quote} {ch : UInt8} {d : Cursor}
    (h : delimiter opBuf q ch rest = .again d) :
    delimiter opBuf q ch (rest ++ c :: t) = .again (d.before (c :: t)) := by
  rcases delimiter_cases opBuf q ch rest with ⟨_, _, he⟩ | ⟨v, ofs, hb, hv, he⟩ |
    ⟨q', hb, hq, he⟩ | ⟨q', hn, hq, he⟩ | ⟨_, _, _, he⟩ <;> rw [h] at he <;> cases he
  · simp [delimiter, hb, escape_before hc t hv, Cursor.before]
  · simp [delimiter, hb, hq, Cursor.before]
  · subst hn hq
    cases q' <;> rfl

theorem innerBody_before {s d : Cursor} (h : innerBody s = .again d) :
    innerBody (s.before (c :: t)) = .again (d.before (c :: t)) := by
  obtain ⟨f, hf, hd⟩ := innerBody_again h
  have hf' := strpbrk_append hf (c :: t)
  rw [innerBody, if_neg (by simp [Cursor.before])]
  simp only [Cursor.before, hf']
  exact delimiter_before hc t hd

/- At the end of the string the first run stops without a delimiter. -/
theorem innerBody_stop {s d : Cursor} (h : innerBody s = .leave (.ok d)) (hq : d.curQuote = none) :
    innerBody (s.before (c :: t)) = .leave (.ok (d.before (c :: t))) := by
  obtain ⟨hb, hquote⟩ := comment_not_quote hc
  have hin : c ∈ delimiters none := by simp [delimiters, hc]
  rw [innerBody, if_neg (by simp [Cursor.before])]
  rcases innerBody_cases s with ⟨hn, he⟩ | ⟨q, _, _, _, he⟩ | ⟨_, hp, hn, he⟩ | ⟨f, hf, he⟩ <;>
    rw [h] at he
  · cases he
    have hfound := strpbrk_append_cons (s := []) (c := c) rfl hin t
    rw [List.nil_append] at hfound
    simp only [Cursor.before, hn, hq, List.nil_append, hfound, List.append_nil]
    exact delimiter_stop _ _ hb hquote
  · cases he
  · cases he
    rw [hn] at hp
    simp only [Cursor.before, hn, strpbrk_append_cons hp hin t]
    exact delimiter_stop _ _ hb hquote
  · obtain ⟨rfl, hn, hfb, hfq⟩ := delimiter_leave he.symm
    rw [hn] at hf
    simp only [Cursor.before, hn, strpbrk_append hf (c :: t)]
    exact delimiter_stop _ _ hfb hfq

theorem innerLoop_before (s d : Cursor) (h : innerLoop s = .ok d) (hq : d.curQuote = none) :
    innerLoop (s.before (c :: t)) = .ok (d.before (c :: t)) := by
  have key : ∀ d, innerLoop s = .ok d → d.curQuote = none →
      innerLoop (s.before (c :: t)) = .ok (d.before (c :: t)) := by
    refine run_induction innerBody_decreases (motive := fun s r => ∀ d, r = .ok d →
      d.curQuote = none → innerLoop (s.before (c :: t)) = .ok (d.before (c :: t))) ?_ ?_ s
    · intro s r hs d hr hq
      subst hr
      exact run_leave _ (innerBody_stop hc t hs hq)
    · intro s u r hs ih d hr hq
      exact (run_again _ (innerBody_before hc t hs)).trans (ih d hr hq)
  exact key d h hq

/-! ### The outer loop -/

omit hc in
theorem skipped_before {ofs rest : List UInt8} {ch : UInt8}
    (h : ofs.drop (strspn ofs whiteSpace) = ch :: rest) :
    (ofs ++ c :: t).drop (strspn (ofs ++ c :: t) whiteSpace) = ch :: (rest ++ c :: t) := by
  rw [drop_strspn] at h ⊢
  simp [List.dropWhile_append, h]

theorem outerBody_before {s u : Outer} (h : outerBody s = .again u) (hq : u.curQuote = none) :
    outerBody (s.before (c :: t)) = .again (u.before (c :: t)) := by
  rcases outerBody_cases s with
    ⟨_, he⟩ | ⟨ch, rest, hd, ⟨_, he⟩ | ⟨e, _, _, he⟩ | ⟨d, hn, hi, he⟩⟩ <;> rw [h] at he <;> cases he
  have hi' : innerLoop ⟨ch :: (rest ++ c :: t), [], s.curQuote⟩ = .ok (d.before (c :: t)) :=
    innerLoop_before hc t _ d hi hq
  rw [outerBody, if_neg (by simp [Outer.before])]
  simp only [Outer.before, skipped_before t hd, hn, ite_false, hi']
  rfl

theorem outerBody_stop {s : Outer} {o : Outcome} (h : outerBody s = .leave o)
    (ho : o.errExit = none) : outerBody (s.before (c :: t)) = .leave o := by
  rw [outerBody, if_neg (by simp [Outer.before])]
  rcases outerBody_cases s with
    ⟨hd, he⟩ | ⟨ch, rest, hd, ⟨hcom, he⟩ | ⟨e, _, _, he⟩ | ⟨d, hn, hi, he⟩⟩ <;> rw [h] at he <;> cases he
  · have hskip : (s.ofs ++ c :: t).drop (strspn (s.ofs ++ c :: t) whiteSpace) = c :: t := by
      rw [drop_strspn] at hd ⊢
      simp [List.dropWhile_append, hd, comment_not_blank hc]
    simp only [Outer.before, hskip, hc, ite_true]
  · simp only [Outer.before, skipped_before t hd, hcom, ite_true]
  · cases ho

/- A word left with its quote open is the last one. -/
omit hc in
theorem outerBody_open {s u : Outer} {q : Quote} (h : outerBody s = .again u)
    (hq : u.curQuote = some q) : outerBody u = .leave ⟨u.words, none⟩ := by
  rcases outerBody_cases s with
    ⟨_, he⟩ | ⟨ch, rest, hd, ⟨_, he⟩ | ⟨e, _, _, he⟩ | ⟨d, hn, hi, he⟩⟩ <;> rw [h] at he <;> cases he
  have hspec := innerLoop_spec ⟨ch :: rest, [], s.curQuote⟩
  simp only [hi, InnerSpec] at hspec
  simp only at hq
  rw [hq] at hspec
  simp [outerBody, hspec.1]

theorem outerLoop_before (s : Outer) (hok : (outerLoop s).errExit = none)
    (hq : (visits outerBody (fun s => s.ofs.length) s).getLast?.bind Outer.curQuote = none) :
    outerLoop (s.before (c :: t)) = outerLoop s := by
  have key : (outerLoop s).errExit = none →
      (visits outerBody (fun s => s.ofs.length) s).getLast?.bind Outer.curQuote = none →
      outerLoop (s.before (c :: t)) = outerLoop s := by
    refine run_induction outerBody_decreases (motive := fun s o => o.errExit = none →
      (visits outerBody (fun s => s.ofs.length) s).getLast?.bind Outer.curQuote = none →
      outerLoop (s.before (c :: t)) = o) ?_ ?_ s
    · intro s o hs ho _
      exact run_leave _ (outerBody_stop hc t hs ho)
    · intro s u o hs ih ho hq
      rw [visits_last outerBody_decreases hs] at hq
      have hu : u.curQuote = none := by
        cases hopen : u.curQuote with
        | none => rfl
        | some q =>
          rw [visits_leave _ (outerBody_open hs hopen)] at hq
          simp [hopen] at hq
      exact (run_again _ (outerBody_before hc t hs hu)).trans (ih ho hq)
  exact key hok hq

end

theorem comment_keeps_words (s src : CString) {c : UInt8} (t : List UInt8)
    (hc : c ∈ commentStartChrs) (hsrc : src.bytes = s.bytes ++ c :: t)
    (hok : (allocStrvecQuotedEscaped s).errExit = none) (hq : quoteAtEnd s = none) :
    (allocStrvecQuotedEscaped src).errExit = none ∧
      (allocStrvecQuotedEscaped src).words = (allocStrvecQuotedEscaped s).words := by
  have hrun := outerLoop_before hc t ⟨s.bytes, none, []⟩ hok hq
  have heq : allocStrvecQuotedEscaped src = allocStrvecQuotedEscaped s := by
    rw [allocStrvecQuotedEscaped, hsrc]
    exact hrun
  rw [heq]
  exact ⟨hok, rfl⟩

/- The string `a\x41` and the comment `#'`. -/
theorem comment_keeps_words_hex :
    (allocStrvecQuotedEscaped ⟨[97, 92, 120, 52, 49, 35, 39], by decide⟩).errExit = none ∧
      (allocStrvecQuotedEscaped ⟨[97, 92, 120, 52, 49, 35, 39], by decide⟩).words =
        (allocStrvecQuotedEscaped ⟨[97, 92, 120, 52, 49], by decide⟩).words :=
  comment_keeps_words ⟨[97, 92, 120, 52, 49], by decide⟩
    ⟨[97, 92, 120, 52, 49, 35, 39], by decide⟩ [39] (by decide : (35 : UInt8) ∈ commentStartChrs)
    rfl (by decide) (by decide)

end KeepalivedDevel.StringParser
