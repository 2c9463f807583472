import KeepalivedDevel.StringParser.Escapes

/-!
# The two loops against the reference

A pass of the inner loop that goes round again does not change what the
reference says about the rest of the line; leaving the loop either ends a word
or is an error. The one place where the two part is the loop test `*ofs`: it
leaves the loop without an error when the line ends right behind an opening
quote or an escape, although a quoted section is open. `endsOpen` is true of
exactly these lines.
-/

namespace KeepalivedDevel.StringParser
open CLib CLib.While

/-! ### Classes of bytes -/

theorem classify_blank {c : UInt8} (h : c ∈ whiteSpace) :
    classify c = .blank ∧ c ≠ backslash := by
  simp only [whiteSpace, List.mem_cons, List.not_mem_nil, or_false] at h
  rcases h with rfl | rfl <;> decide

theorem classify_comment {c : UInt8} (h : c ∈ commentStartChrs) :
    classify c = .comment ∧ c ≠ backslash := by
  simp only [commentStartChrs, List.mem_cons, List.not_mem_nil, or_false] at h
  rcases h with rfl | rfl <;> decide

theorem classify_quote (q : Quote) : classify q.char = .quote q ∧ q.char ≠ backslash := by
  cases q <;> decide

theorem classify_bare {c : UInt8} (h : c ∉ delimiters none) :
    classify c = .bare ∧ c ≠ backslash := by
  simp only [delimiters, whiteSpace, commentStartChrs, List.cons_append, List.nil_append,
    List.mem_cons, List.not_mem_nil, or_false, not_or] at h
  obtain ⟨h32, h9, h35, h33, h39, h34, hb⟩ := h
  exact ⟨by simp [classify, h32, h9, h35, h33, h39, h34], hb⟩

theorem not_mem_delimiters_some {c : UInt8} {q : Quote} (h : c ∉ delimiters (some q)) :
    c ≠ q.char ∧ c ≠ backslash := by
  cases q <;> simpa [delimiters, Quote.char] using h

theorem mem_delimiters_some {c : UInt8} {q : Quote} (h : c ∈ delimiters (some q))
    (hb : c ≠ backslash) : c = q.char := by
  cases q <;> simpa [delimiters, Quote.char, hb] using h

theorem syms_ne_nil {s : List UInt8} (h : s ≠ []) : syms s ≠ [] := by
  cases s with
  | nil => exact absurd rfl h
  | cons c s =>
    by_cases hc : c = backslash
    · subst hc
      cases he : escapeAt s with
      | none => simp [syms, unescape, he]
      | some p => simp [syms_lit he]
    · simp [syms_raw hc]

/-! ### Copying text up to a delimiter -/

def modeOf : Option Quote → List UInt8 → Mode
  | none, w => .word w
  | some q, w => .quoted q w

/- The reader of `endsOpen` at the head of the inner loop: a quoted section
that is open has just been opened or has just had an escape. -/
def openAt (q : Option Quote) : Option (Quote × Bool) := q.map (·, true)

theorem tokens_text (q : Option Quote) (text s w : List UInt8)
    (h : ∀ c ∈ text, c ∉ delimiters q) :
    tokens (modeOf q w) (syms (text ++ s)) = tokens (modeOf q (w ++ text)) (syms s) := by
  induction text generalizing w with
  | nil => simp
  | cons c text ih =>
    have hc := h c (List.mem_cons_self ..)
    have ht := ih (w ++ [c]) fun d hd => h d (List.mem_cons_of_mem _ hd)
    rw [List.append_assoc, List.singleton_append] at ht
    cases q with
    | none =>
      obtain ⟨hbare, hb⟩ := classify_bare hc
      rw [List.cons_append, syms_raw hb, ← ht]
      simp only [modeOf, tokens, hbare]
    | some q =>
      obtain ⟨hq, hb⟩ := not_mem_delimiters_some hc
      rw [List.cons_append, syms_raw hb, ← ht]
      simp only [modeOf, tokens, hq, ite_false]

theorem endsOpen_behind (q : Quote) (a b : Bool) {l : List Sym} (h : l ≠ []) :
    endsOpen (some (q, a)) l = endsOpen (some (q, b)) l := by
  cases l with
  | nil => exact absurd rfl h
  | cons x l => cases x <;> rfl

theorem endsOpen_text (q : Option Quote) (text s : List UInt8) (hs : q = none ∨ s ≠ [])
    (h : ∀ c ∈ text, c ∉ delimiters q) :
    endsOpen (openAt q) (syms (text ++ s)) = endsOpen (openAt q) (syms s) := by
  induction text with
  | nil => rfl
  | cons c text ih =>
    have hc := h c (List.mem_cons_self ..)
    have ht := ih fun d hd => h d (List.mem_cons_of_mem _ hd)
    cases q with
    | none =>
      obtain ⟨hbare, hb⟩ := classify_bare hc
      rw [List.cons_append, syms_raw hb, ← ht]
      simp only [openAt, Option.map_none, endsOpen, hbare]
    | some q =>
      obtain ⟨hq, hb⟩ := not_mem_delimiters_some hc
      rw [List.cons_append, syms_raw hb, ← ht]
      simp only [openAt, Option.map_some, endsOpen, hq, ite_false]
      have hne : s ≠ [] := hs.resolve_left (Option.some_ne_none q)
      exact endsOpen_behind q false true (syms_ne_nil (by simp [hne]))

theorem open_text (q : Quote) (s w : List UInt8) (hs : s ≠ [])
    (h : ∀ c ∈ s, c ∉ delimiters (some q)) :
    tokens (.quoted q w) (syms s) = none ∧ endsOpen (some (q, true)) (syms s) = false := by
  refine ⟨?_, ?_⟩
  · have ht := tokens_text (some q) s [] w h
    rw [List.append_nil] at ht
    exact ht
  · obtain ⟨text, c, rfl⟩ := (List.eq_nil_or_concat' s).resolve_left hs
    have hc := not_mem_delimiters_some (h c (by simp))
    have ht := endsOpen_text (some q) text [c] (.inr (by simp)) fun d hd => h d (by simp [hd])
    rw [openAt, Option.map_some] at ht
    rw [ht, syms_raw hc.2, syms_nil]
    simp only [endsOpen, hc.1, ite_false]

/-! ### The inner loop -/

/- What the reference says of the rest of the line, at the head of the loop. -/
def Cursor.ahead (c : Cursor) : Option (List (List UInt8)) × Bool :=
  (tokens (modeOf c.curQuote c.opBuf) (syms c.ofs), endsOpen (openAt c.curQuote) (syms c.ofs))

theorem ahead_text (text : List UInt8) {s : List UInt8} (w : List UInt8) {q : Option Quote}
    (hs : q = none ∨ s ≠ []) (h : ∀ c ∈ text, c ∉ delimiters q) :
    Cursor.ahead ⟨text ++ s, w, q⟩ = Cursor.ahead ⟨s, w ++ text, q⟩ := by
  simp only [Cursor.ahead]
  rw [tokens_text q text s w h, endsOpen_text q text s hs h]

theorem ahead_escape {s ofs : List UInt8} {v : UInt8} (w : List UInt8) (q : Option Quote)
    (h : escape s = some (v, ofs)) :
    Cursor.ahead ⟨backslash :: s, w, q⟩ = Cursor.ahead ⟨ofs, w ++ [v], q⟩ := by
  simp only [Cursor.ahead, syms_escape h]
  cases q <;> rfl

theorem ahead_open (q : Quote) (s w : List UInt8) :
    Cursor.ahead ⟨q.char :: s, w, none⟩ = Cursor.ahead ⟨s, w, some q⟩ := by
  obtain ⟨hcl, hb⟩ := classify_quote q
  simp only [Cursor.ahead, syms_raw hb, modeOf, openAt, Option.map_some, Option.map_none, tokens,
    endsOpen, hcl]

theorem ahead_close (q : Quote) (s w : List UInt8) :
    Cursor.ahead ⟨q.char :: s, w, some q⟩ = Cursor.ahead ⟨s, w, none⟩ := by
  simp only [Cursor.ahead, syms_raw (classify_quote q).2, modeOf, openAt, Option.map_some,
    Option.map_none, tokens, endsOpen, ite_true]

theorem ahead_found {c : Cursor} {f : Found} (hf : strpbrk (delimiters c.curQuote) c.ofs = some f) :
    c.ahead = Cursor.ahead ⟨f.ch :: f.rest, c.opBuf ++ f.text, c.curQuote⟩ := by
  obtain ⟨hs, -, htext⟩ := strpbrk_some hf
  rw [← ahead_text f.text c.opBuf (.inr (by simp)) htext, ← hs]

/- A further pass leaves the reference's answer as it is. -/
theorem ahead_again {s t : Cursor} (h : innerBody s = .again t) : s.ahead = t.ahead := by
  obtain ⟨f, hf, he⟩ := innerBody_again h
  rw [ahead_found hf]
  rcases delimiter_cases (s.opBuf ++ f.text) s.curQuote f.ch f.rest with
    ⟨_, _, hd⟩ | ⟨v, ofs, hb, hv, hd⟩ | ⟨q, hb, hq, hd⟩ | ⟨q, hn, hq, hd⟩ | ⟨_, _, _, hd⟩ <;>
    rw [he] at hd <;> cases hd
  · rw [hb]
    exact ahead_escape _ _ hv
  · have hin := (strpbrk_some hf).2.1
    rw [hq] at hin
    rw [hq, mem_delimiters_some hin hb]
    exact ahead_close q _ _
  · rw [hn, hq]
    exact ahead_open q _ _

/-- What the result of the inner loop says about the line it was entered with:
an error is one for the reference too, a finished word is followed by the words
of the rest, and a word left with a quote open is an error that was missed. -/
def InnerSpec (s : Cursor) : Except ErrExit Cursor → Prop
  | .error _ => s.ahead = (none, false)
  | .ok d =>
    match d.curQuote with
    | none => s.ahead =
        ((tokens .gap (syms d.ofs)).map (d.opBuf :: ·), endsOpen none (syms d.ofs))
    | some _ => d.ofs = [] ∧ s.ahead = (none, true)

theorem tokens_word_stop {ch : UInt8} (rest w : List UInt8)
    (h : ch ∈ whiteSpace ∨ ch ∈ commentStartChrs) :
    tokens (.word w) (syms (ch :: rest)) =
      (tokens .gap (syms (ch :: rest))).map (w :: ·) := by
  rcases h with h | h
  · obtain ⟨hcl, hb⟩ := classify_blank h
    simp only [syms_raw hb, tokens, hcl]
  · obtain ⟨hcl, hb⟩ := classify_comment h
    simp only [syms_raw hb, tokens, hcl, Option.map_some]

theorem innerBody_leave {s : Cursor} {r : Except ErrExit Cursor} (h : innerBody s = .leave r) :
    InnerSpec s r := by
  rcases innerBody_cases s with ⟨hn, he⟩ | ⟨q, hne, hp, hq, he⟩ | ⟨hne, hp, hq, he⟩ | ⟨f, hf, he⟩
  · rw [h] at he
    cases he
    obtain ⟨ofs, opBuf, curQuote⟩ := s
    cases hn
    cases curQuote with
    | none => rfl
    | some q => exact ⟨rfl, rfl⟩
  · rw [h] at he
    cases he
    rw [hq] at hp
    obtain ⟨ht, ho⟩ := open_text q s.ofs s.opBuf hne (strpbrk_none hp)
    simp only [InnerSpec, Cursor.ahead, hq, modeOf, openAt, Option.map_some, ht, ho]
  · rw [h] at he
    cases he
    rw [hq] at hp
    have ht := tokens_text none s.ofs [] s.opBuf (strpbrk_none hp)
    have ho := endsOpen_text none s.ofs [] (.inl rfl) (strpbrk_none hp)
    rw [List.append_nil] at ht ho
    simp only [InnerSpec, Cursor.ahead, hq, ht, ho]
    rfl
  · rw [h] at he
    rcases delimiter_cases (s.opBuf ++ f.text) s.curQuote f.ch f.rest with
      ⟨hb, hv, hd⟩ | ⟨v, ofs, hb, hv, hd⟩ | ⟨q, hb, hq, hd⟩ | ⟨q, hn, hq, hd⟩ |
      ⟨hb, hn, hq, hd⟩ <;> rw [← he] at hd <;> cases hd
    · -- a backslash with nothing behind it
      have hr := escape_none hv
      simp only [InnerSpec]
      rw [ahead_found hf]
      simp only [Cursor.ahead, hb, hr, syms_dangling]
      cases s.curQuote <;> rfl
    · have hin := (strpbrk_some hf).2.1
      rw [hn] at hin
      have hstop := mem_delimiters_none hin hb hq
      simp only [InnerSpec]
      rw [ahead_found hf]
      simp only [Cursor.ahead, hn, modeOf, openAt, Option.map_none, tokens_word_stop _ _ hstop]

theorem innerLoop_spec (s : Cursor) : InnerSpec s (innerLoop s) := by
  refine run_induction innerBody_decreases (motive := InnerSpec) ?_ ?_ s
  · intro s r h
    exact innerBody_leave h
  · intro s t r h ht
    have ha := ahead_again h
    cases r with
    | error e => exact ha.trans ht
    | ok d =>
      simp only [InnerSpec] at ht ⊢
      rw [ha]
      exact ht

/-! ### The outer loop -/

theorem gap_blanks (blanks s : List UInt8) (h : ∀ c ∈ blanks, c ∈ whiteSpace) :
    tokens .gap (syms (blanks ++ s)) = tokens .gap (syms s) ∧
      endsOpen none (syms (blanks ++ s)) = endsOpen none (syms s) := by
  induction blanks with
  | nil => exact ⟨rfl, rfl⟩
  | cons c blanks ih =>
    obtain ⟨hcl, hb⟩ := classify_blank (h c (List.mem_cons_self ..))
    obtain ⟨ht, ho⟩ := ih fun d hd => h d (List.mem_cons_of_mem _ hd)
    rw [List.cons_append, syms_raw hb, ← ht, ← ho]
    simp only [tokens, endsOpen, hcl, and_self]

theorem gap_skip (s : List UInt8) :
    tokens .gap (syms s) = tokens .gap (syms (s.dropWhile (· ∈ whiteSpace))) ∧
      endsOpen none (syms s) = endsOpen none (syms (s.dropWhile (· ∈ whiteSpace))) := by
  have hb := gap_blanks (s.takeWhile (· ∈ whiteSpace)) (s.dropWhile (· ∈ whiteSpace)) fun c hc => by
    simpa using List.mem_takeWhile_imp hc
  rwa [List.takeWhile_append_dropWhile] at hb

theorem gap_skipped {ofs s : List UInt8} (h : ofs.drop (strspn ofs whiteSpace) = s) :
    tokens .gap (syms ofs) = tokens .gap (syms s) ∧
      endsOpen none (syms ofs) = endsOpen none (syms s) := by
  rw [← h, drop_strspn]
  exact gap_skip ofs

theorem gap_word {ch : UInt8} (rest : List UInt8) (hw : ch ∉ whiteSpace)
    (hc : ch ∉ commentStartChrs) :
    tokens .gap (syms (ch :: rest)) = tokens (.word []) (syms (ch :: rest)) := by
  by_cases hb : ch = backslash
  · subst hb
    cases he : escapeAt rest with
    | none => simp only [syms, unescape, he, ite_true, tokens]
    | some p => simp only [syms_lit he, tokens, List.nil_append]
  · simp only [syms_raw hb, tokens, List.nil_append]
    simp only [whiteSpace, List.mem_cons, List.not_mem_nil, or_false] at hw
    simp only [commentStartChrs, List.mem_cons, List.not_mem_nil, or_false] at hc
    simp only [classify, hw, hc, ite_false]
    split_ifs <;> rfl

theorem ne_nil_of_skipped {ofs rest : List UInt8} {ch : UInt8}
    (h : ofs.drop (strspn ofs whiteSpace) = ch :: rest) : ofs ≠ [] := by
  rintro rfl
  simp at h

def OuterSpec (s : Outer) (o : Outcome) : Prop :=
  s.curQuote = none ∨ s.ofs = [] →
    if endsOpen none (syms s.ofs) then tokens .gap (syms s.ofs) = none ∧ o.errExit = none
    else match tokens .gap (syms s.ofs) with
      | none => o.errExit.isSome
      | some ws => o = ⟨s.words ++ ws, none⟩

theorem outerBody_leave {s : Outer} {o : Outcome} (h : outerBody s = .leave o) :
    OuterSpec s o := by
  intro hq
  rcases outerBody_cases s with ⟨hd, he⟩ | ⟨ch, rest, hd, hcase⟩
  · rw [h] at he
    cases he
    rw [(gap_skipped hd).1, (gap_skipped hd).2]
    simp [tokens, endsOpen]
  · have hw := (skipped_head hd).1
    have hnone := hq.resolve_right (ne_nil_of_skipped hd)
    rw [(gap_skipped hd).1, (gap_skipped hd).2]
    rcases hcase with ⟨hc, he⟩ | ⟨e, hc, hi, he⟩ | ⟨c, _, _, he⟩
    · rw [h] at he
      cases he
      obtain ⟨hcl, hb⟩ := classify_comment hc
      simp [syms_raw hb, tokens, endsOpen, hcl]
    · rw [h] at he
      cases he
      have hspec := innerLoop_spec ⟨ch :: rest, [], s.curQuote⟩
      rw [hi] at hspec
      simp only [InnerSpec, Cursor.ahead, hnone, modeOf, openAt, Option.map_none,
        Prod.mk.injEq] at hspec
      rw [gap_word rest hw hc, hspec.1, hspec.2]
      simp
    · rw [h] at he
      cases he

theorem outerBody_step {s t : Outer} {o : Outcome} (h : outerBody s = .again t)
    (ht : OuterSpec t o) : OuterSpec s o := by
  intro hq
  rcases outerBody_cases s with ⟨_, he⟩ | ⟨ch, rest, hd, ⟨_, he⟩ | ⟨e, _, _, he⟩ | ⟨c, hc, hi, he⟩⟩
    <;> rw [h] at he <;> cases he
  have hw := (skipped_head hd).1
  have hnone := hq.resolve_right (ne_nil_of_skipped hd)
  rw [(gap_skipped hd).1, (gap_skipped hd).2, gap_word rest hw hc]
  have hspec := innerLoop_spec ⟨ch :: rest, [], s.curQuote⟩
  rw [hi] at hspec
  simp only [InnerSpec, Cursor.ahead, hnone, modeOf, openAt, Option.map_none] at hspec
  cases hcq : c.curQuote with
  | none =>
    simp only [hcq, Prod.mk.injEq] at hspec
    rw [hspec.1, hspec.2]
    have hrest := ht (.inl hcq)
    simp only at hrest
    cases hb : endsOpen none (syms c.ofs) with
    | true =>
      rw [hb] at hrest
      simp only [ite_true] at hrest ⊢
      exact ⟨by rw [hrest.1]; rfl, hrest.2⟩
    | false =>
      rw [hb] at hrest
      simp only [Bool.false_eq_true, ite_false] at hrest ⊢
      cases hts : tokens .gap (syms c.ofs) with
      | none => simpa [hts] using hrest
      | some ws => simpa [hts] using hrest
  | some q =>
    -- the missed error: the line is used up with the quote still open
    simp only [hcq, Prod.mk.injEq] at hspec
    obtain ⟨hofs, hnil, htrue⟩ := hspec
    have hrest := ht (.inr hofs)
    simp only [hofs, syms_nil, endsOpen, tokens, Bool.false_eq_true, ite_false] at hrest
    rw [hnil, htrue, hrest]
    simp

theorem outerLoop_spec (s : Outer) : OuterSpec s (outerLoop s) := by
  refine run_induction outerBody_decreases (motive := OuterSpec) ?_ ?_ s
  · intro s o h
    exact outerBody_leave h
  · intro s t o h ht
    exact outerBody_step h ht

/-! ### Agreement -/

def EndsOpen (src : CString) : Prop := endsOpen none (syms src.bytes) = true

/-- The function takes an error exit on exactly the lines the reference calls
an error, and emits the reference's words on all others. -/
def Agrees (src : CString) : Prop :=
  ((allocStrvecQuotedEscaped src).errExit.isSome ↔ reference src = none) ∧
    ∀ ws, reference src = some ws → (allocStrvecQuotedEscaped src).words = ws

theorem run_of_not_endsOpen (src : CString) (h : ¬ EndsOpen src) :
    match reference src with
    | none => (allocStrvecQuotedEscaped src).errExit.isSome
    | some ws => allocStrvecQuotedEscaped src = ⟨ws, none⟩ := by
  have hspec := outerLoop_spec ⟨src.bytes, none, []⟩ (.inl rfl)
  simp only [EndsOpen] at h
  simpa [h, reference, allocStrvecQuotedEscaped] using hspec

end KeepalivedDevel.StringParser
