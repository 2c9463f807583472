import KeepalivedDevel.StringParser.Simulation

/-!
# Writing words and reading them back

A word can be written in pieces: bare runs, quoted strings and single escaped
bytes. A line of such words, separated by blanks, is split into exactly the
words it was written from.
-/

namespace KeepalivedDevel.StringParser
open CLib

/-! ### Written words -/

def BareByte (c : UInt8) : Prop := c ∉ [0, 32, 9, 35, 33, 39, 34, 92]

/- Bytes that a backslash leaves as they are, an `x` before a hexadecimal
digit apart: none of `a b f n r t v` and no octal digit. -/
def PlainEscape (c : UInt8) : Prop :=
  c ≠ 0 ∧ c ∉ [97, 98, 102, 110, 114, 116, 118] ∧ ¬ (48 ≤ c ∧ c ≤ 55)

inductive Segment where
  | bare (run : List UInt8) (nonempty : run ≠ []) (plain : ∀ c ∈ run, BareByte c)
  | quoted (q : Quote) (text : List UInt8) (nulFree : 0 ∉ text)
  | escaped (c : UInt8) (plain : PlainEscape c)

/- A quoted text, with a backslash before each backslash and each quote. -/
def quoteText (q : Quote) (text : List UInt8) : List UInt8 :=
  text.flatMap fun c => if c = backslash ∨ c = q.char then [backslash, c] else [c]

def Segment.write : Segment → List UInt8
  | .bare run _ _ => run
  | .quoted q text _ => q.char :: (quoteText q text ++ [q.char])
  | .escaped c _ => [backslash, c]

def Segment.decode : Segment → List UInt8
  | .bare run _ _ => run
  | .quoted _ text _ => text
  | .escaped c _ => [c]

def Segment.isEscapedX : Segment → Bool
  | .escaped c _ => c = 120
  | _ => false

def writeSegments (segs : List Segment) : List UInt8 := segs.flatMap Segment.write

/- No escaped `x` stands before a hexadecimal digit. -/
def NoHexAfterX : List Segment → Prop
  | [] => True
  | seg :: segs =>
    (seg.isEscapedX = true → startsHex (writeSegments segs) = false) ∧ NoHexAfterX segs

structure Word where
  segments : List Segment
  nonempty : segments ≠ []
  noHexAfterX : NoHexAfterX segments

def Word.write (w : Word) : List UInt8 := writeSegments w.segments

def Word.decode (w : Word) : List UInt8 := w.segments.flatMap Segment.decode

/- What stands between two words: spaces and tabs, at least one. -/
structure Separator where
  run : List UInt8
  nonempty : run ≠ []
  blank : ∀ c ∈ run, c = 32 ∨ c = 9

def writeLine : (ℕ → Separator) → List Word → List UInt8
  | _, [] => []
  | _, [w] => w.write
  | seps, w :: v :: ws => w.write ++ ((seps 0).run ++ writeLine (fun i => seps (i + 1)) (v :: ws))

theorem zero_ne_quote (q : Quote) : (0 : UInt8) ≠ q.char := by cases q <;> decide

theorem quoteText_nulFree (q : Quote) {text : List UInt8} (h : 0 ∉ text) :
    0 ∉ quoteText q text := by
  simp only [quoteText, List.mem_flatMap, not_exists, not_and]
  intro c hc
  have hc0 : (0 : UInt8) ≠ c := fun h0 => h (h0 ▸ hc)
  split <;> simp [hc0, backslash]

theorem Segment.write_nulFree (seg : Segment) : 0 ∉ seg.write := by
  cases seg with
  | bare run _ plain =>
    intro h0
    exact plain 0 h0 (by simp)
  | quoted q text h => simp [Segment.write, zero_ne_quote q, quoteText_nulFree q h]
  | escaped c plain => simp [Segment.write, backslash, plain.1.symm]

theorem Word.write_nulFree (w : Word) : 0 ∉ w.write := by
  simp only [Word.write, writeSegments, List.mem_flatMap, not_exists, not_and]
  exact fun seg _ => seg.write_nulFree

theorem writeLine_nulFree (seps : ℕ → Separator) (ws : List Word) : 0 ∉ writeLine seps ws := by
  induction ws generalizing seps with
  | nil => simp [writeLine]
  | cons w ws ih =>
    cases ws with
    | nil => exact w.write_nulFree
    | cons v ws =>
      have hsep : 0 ∉ (seps 0).run := fun h0 => by
        rcases (seps 0).blank 0 h0 with h | h <;> cases h
      simp only [writeLine, List.mem_append, not_or]
      exact ⟨w.write_nulFree, hsep, ih _⟩

def line (seps : ℕ → Separator) (ws : List Word) : CString :=
  ⟨writeLine seps ws, writeLine_nulFree seps ws⟩

/-! ### Reading one segment -/

theorem bareByte_delimiters {c : UInt8} (h : BareByte c) : c ∉ delimiters none := by
  simp only [BareByte, List.mem_cons, List.not_mem_nil, or_false, not_or] at h
  simp [delimiters, whiteSpace, commentStartChrs, backslash, h]

theorem escape_plain {c : UInt8} {s : List UInt8} (hc : PlainEscape c)
    (hx : c = 120 → startsHex s = false) : escape (c :: s) = some (c, s) := by
  obtain ⟨-, hctl, hoct⟩ := hc
  have h1 : (decide (c = 120) && startsHex s) = false := by
    by_cases h : c = 120
    · simp [hx h]
    · simp [h]
  have h2 : isOctal c = false := by
    simpa [isOctal] using hoct
  have h3 : switchEscape c = c := by
    simp only [List.mem_cons, List.not_mem_nil, or_false, not_or] at hctl
    simp [switchEscape, hctl]
  simp only [escape, h1, h2, h3, Bool.false_eq_true, ite_false]

theorem escape_special {c : UInt8} (q : Quote) (s : List UInt8)
    (h : c = backslash ∨ c = q.char) : escape (c :: s) = some (c, s) := by
  refine escape_plain ?_ ?_
  · rcases h with rfl | rfl
    · exact ⟨by decide, by decide, by decide⟩
    · cases q <;> exact ⟨by decide, by decide, by decide⟩
  · intro hx
    rcases h with rfl | rfl
    · cases hx
    · cases q <;> cases hx

theorem ahead_quoteText (q : Quote) (text s w : List UInt8) :
    Cursor.ahead ⟨quoteText q text ++ q.char :: s, w, some q⟩ =
      Cursor.ahead ⟨q.char :: s, w ++ text, some q⟩ := by
  induction text generalizing w with
  | nil => simp [quoteText]
  | cons c text ih =>
    have hcons : quoteText q (c :: text) =
        (if c = backslash ∨ c = q.char then [backslash, c] else [c]) ++ quoteText q text := rfl
    rw [hcons, List.append_assoc]
    by_cases h : c = backslash ∨ c = q.char
    · rw [if_pos h]
      simp only [List.cons_append, List.nil_append]
      rw [ahead_escape w (some q) (escape_special q _ h), ih]
      simp
    · rw [if_neg h]
      have hc : ∀ d ∈ [c], d ∉ delimiters (some q) := by
        intro d hd
        rw [List.mem_singleton] at hd
        subst hd
        cases q <;> simpa [delimiters, Quote.char, or_comm] using h
      rw [ahead_text [c] w (.inr (by simp)) hc, ih]
      simp

theorem ahead_segment (seg : Segment) (s w : List UInt8)
    (hx : seg.isEscapedX = true → startsHex s = false) :
    Cursor.ahead ⟨seg.write ++ s, w, none⟩ = Cursor.ahead ⟨s, w ++ seg.decode, none⟩ := by
  cases seg with
  | bare run _ plain => exact ahead_text run w (.inl rfl) fun c hc => bareByte_delimiters (plain c hc)
  | quoted q text _ =>
    simp only [Segment.write, Segment.decode, List.cons_append, List.append_assoc, List.nil_append]
    rw [ahead_open, ahead_quoteText, ahead_close]
  | escaped c plain =>
    simp only [Segment.isEscapedX, decide_eq_true_eq] at hx
    exact ahead_escape w none (escape_plain plain hx)

/-! ### Reading a line -/

theorem startsHex_append {a : List UInt8} (b : List UInt8) (h : a ≠ []) :
    startsHex (a ++ b) = startsHex a := by
  cases a with
  | nil => exact absurd rfl h
  | cons c a => rfl

theorem Segment.write_ne_nil (seg : Segment) : seg.write ≠ [] := by
  cases seg with
  | bare run nonempty _ => exact nonempty
  | quoted q text _ => simp [Segment.write]
  | escaped c _ => simp [Segment.write]

theorem ahead_segments (segs : List Segment) (s w : List UInt8) (hn : NoHexAfterX segs)
    (hs : startsHex s = false) :
    Cursor.ahead ⟨writeSegments segs ++ s, w, none⟩ =
      Cursor.ahead ⟨s, w ++ segs.flatMap Segment.decode, none⟩ := by
  induction segs generalizing w with
  | nil => simp [writeSegments]
  | cons seg segs ih =>
    have hx : seg.isEscapedX = true → startsHex (writeSegments segs ++ s) = false := by
      intro hseg
      cases segs with
      | nil => exact hs
      | cons t segs =>
        have hne : writeSegments (t :: segs) ≠ [] := by simp [writeSegments, t.write_ne_nil]
        rw [startsHex_append s hne]
        exact hn.1 hseg
    have hcons : writeSegments (seg :: segs) = seg.write ++ writeSegments segs := rfl
    rw [hcons, List.append_assoc, ahead_segment seg _ w hx, ih _ hn.2]
    simp

theorem Word.write_head (w : Word) :
    ∃ ch rest, w.write = ch :: rest ∧ ch ∉ whiteSpace ∧ ch ∉ commentStartChrs := by
  obtain ⟨segs, hne, _⟩ := w
  cases segs with
  | nil => exact absurd rfl hne
  | cons seg segs =>
    have hcons : writeSegments (seg :: segs) = seg.write ++ writeSegments segs := rfl
    simp only [Word.write, hcons]
    cases seg with
    | bare run nonempty plain =>
      cases run with
      | nil => exact absurd rfl nonempty
      | cons c run =>
        have hc := bareByte_delimiters (plain c (List.mem_cons_self ..))
        simp only [delimiters, List.mem_append, not_or] at hc
        exact ⟨c, run ++ writeSegments segs, rfl, hc.1.1, hc.1.2⟩
    | quoted q text _ => exact ⟨q.char, _, rfl, by cases q <;> decide, by cases q <;> decide⟩
    | escaped c _ => exact ⟨backslash, _, rfl, by decide, by decide⟩

theorem gap_write (w : Word) (s : List UInt8) (hs : startsHex s = false) :
    tokens .gap (syms (w.write ++ s)) = tokens (.word w.decode) (syms s) ∧
      endsOpen none (syms (w.write ++ s)) = endsOpen none (syms s) := by
  have ha := ahead_segments w.segments s [] w.noHexAfterX hs
  simp only [Cursor.ahead, modeOf, openAt, Option.map_none, List.nil_append, Prod.mk.injEq] at ha
  refine ⟨?_, ha.2⟩
  obtain ⟨ch, rest, hw, hblank, hcomment⟩ := w.write_head
  rw [hw, List.cons_append, gap_word _ hblank hcomment, ← List.cons_append, ← hw]
  exact ha.1

theorem reference_line (seps : ℕ → Separator) (ws : List Word) :
    tokens .gap (syms (writeLine seps ws)) = some (ws.map Word.decode) ∧
      endsOpen none (syms (writeLine seps ws)) = false := by
  induction ws generalizing seps with
  | nil => exact ⟨rfl, rfl⟩
  | cons w ws ih =>
    cases ws with
    | nil =>
      have hg := gap_write w [] rfl
      rw [List.append_nil] at hg
      exact hg
    | cons v ws =>
      obtain ⟨hr, ho⟩ := ih fun i => seps (i + 1)
      rcases hsep : seps 0 with ⟨run, hne, hblank⟩
      cases run with
      | nil => exact absurd rfl hne
      | cons c run =>
        have hmem : ∀ d ∈ c :: run, d ∈ whiteSpace := by
          intro d hd
          simpa [whiteSpace] using hblank d hd
        have hc := hmem c (List.mem_cons_self ..)
        have hhex : isxdigit c = false := by
          rcases hblank c (List.mem_cons_self ..) with rfl | rfl <;> decide
        simp only [writeLine, hsep]
        obtain ⟨hgt, hgo⟩ := gap_write w (c :: run ++ writeLine (fun i => seps (i + 1)) (v :: ws)) hhex
        obtain ⟨hbt, hbo⟩ := gap_blanks (c :: run) (writeLine (fun i => seps (i + 1)) (v :: ws)) hmem
        rw [hgt, hgo, hbo, ho, List.cons_append, tokens_word_stop _ _ (.inl hc), ← List.cons_append,
          hbt, hr]
        exact ⟨rfl, rfl⟩

end KeepalivedDevel.StringParser
