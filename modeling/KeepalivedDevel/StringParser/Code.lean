import KeepalivedDevel.CLib.While
import KeepalivedDevel.CLib.CString

/-!
# The word splitter of `code_test/string_parser.c`

`alloc_strvec_quoted_escaped` walks a cursor `ofs` over the source string. The
outer loop skips blanks and collects one word at a time; the inner loop copies
text up to the next delimiter and then deals with that delimiter. The cursor is
modelled by the bytes still to be read, `op_buf` by the bytes written to it
since `ofs_op` was last reset.
-/

namespace KeepalivedDevel.StringParser
open CLib CLib.While

/-! ### Delimiters (`string_parser.c:7-8`, `string_parser.c:33`) -/

abbrev backslash : UInt8 := 92

def whiteSpace : List UInt8 := [32, 9]

def commentStartChrs : List UInt8 := [35, 33]

/- The two values of `cur_quote` besides 0. -/
inductive Quote where
  | single
  | double
  deriving Repr, DecidableEq

def Quote.char : Quote → UInt8
  | .single => 39
  | .double => 34

/- The set `strpbrk` searches for, chosen by `cur_quote`. -/
def delimiters : Option Quote → List UInt8
  | some .double => [34, backslash]
  | some .single => [39, backslash]
  | none => whiteSpace ++ commentStartChrs ++ [39, 34, backslash]

/-! ### Escapes (`string_parser.c:53-112`) -/

/- `isdigit(c) ? c - '0' : 10 + c - (isupper(c) ? 'A' : 'a')`. -/
def hexDigit (c : UInt8) : UInt8 :=
  if isdigit c then c - 48 else 10 + c - (if isupper c then 65 else 97)

/- The loop over the digits of `\x...`. -/
def hexDigits (opChar : UInt8) : List UInt8 → UInt8 × List UInt8
  | [] => (opChar, [])
  | c :: ofs =>
    if isxdigit c then hexDigits (opChar <<< 4 ||| hexDigit c) ofs else (opChar, c :: ofs)

def isOctal (c : UInt8) : Bool := 48 ≤ c && c ≤ 55

/- One of the two tests for a further octal digit. -/
def octalDigit (opChar : UInt8) : List UInt8 → UInt8 × List UInt8
  | [] => (opChar, [])
  | c :: ofs =>
    if isOctal c then ((opChar <<< 3) + (c - 48), ofs) else (opChar, c :: ofs)

/- The `switch` on a byte that starts no numeric escape. -/
def switchEscape (c : UInt8) : UInt8 :=
  if c = 97 then 7
  else if c = 98 then 8
  else if c = 102 then 12
  else if c = 110 then 10
  else if c = 114 then 13
  else if c = 116 then 9
  else if c = 118 then 11
  else c

/- `isxdigit(*ofs)`, where the terminator is no hexadecimal digit. -/
def startsHex : List UInt8 → Bool
  | [] => false
  | c :: _ => isxdigit c

/-- `op_char` and the cursor behind an escape, entered after the backslash;
`none` when the string ends there. -/
def escape : List UInt8 → Option (UInt8 × List UInt8)
  | [] => none
  | c :: ofs =>
    if c = 120 && startsHex ofs then some (hexDigits 0 ofs)
    else if isOctal c then
      let p := octalDigit (c - 48) ofs
      some (octalDigit p.1 p.2)
    else some (switchEscape c, ofs)

theorem hexDigits_length (v : UInt8) (ofs : List UInt8) :
    (hexDigits v ofs).2.length ≤ ofs.length := by
  induction ofs generalizing v with
  | nil => exact le_rfl
  | cons c ofs ih =>
    rw [hexDigits]
    split
    · exact (ih _).trans (Nat.le_succ _)
    · exact le_rfl

theorem octalDigit_length (v : UInt8) (ofs : List UInt8) :
    (octalDigit v ofs).2.length ≤ ofs.length := by
  cases ofs with
  | nil => exact le_rfl
  | cons c ofs =>
    rw [octalDigit]
    split
    · exact Nat.le_succ _
    · exact le_rfl

theorem escape_length {ofs rest : List UInt8} {v : UInt8} (h : escape ofs = some (v, rest)) :
    rest.length < ofs.length := by
  cases ofs with
  | nil => simp [escape] at h
  | cons c ofs =>
    simp only [escape] at h
    split at h
    · have hl := hexDigits_length 0 ofs
      rw [Option.some.injEq] at h
      rw [h] at hl
      exact Nat.lt_succ_of_le hl
    · split at h
      · have h1 := octalDigit_length (c - 48) ofs
        have h2 := octalDigit_length (octalDigit (c - 48) ofs).1 (octalDigit (c - 48) ofs).2
        rw [Option.some.injEq] at h
        rw [h] at h2
        exact Nat.lt_succ_of_le (h2.trans h1)
      · cases h
        exact Nat.lt_succ_self _

/-! ### The inner loop (`string_parser.c:32-129`) -/

inductive ErrExit where
  | missingTerminating (q : Quote)
  | missingEscape
  deriving Repr, DecidableEq

structure Cursor where
  ofs : List UInt8
  opBuf : List UInt8
  curQuote : Option Quote
  deriving Repr, DecidableEq

/-- What follows once the wanted text is saved and `*ofs` is the delimiter
`ch`, with `rest` behind it. -/
def delimiter (opBuf : List UInt8) (curQuote : Option Quote) (ch : UInt8) (rest : List UInt8) :
    Pass Cursor (Except ErrExit Cursor) :=
  if ch = backslash then
    match escape rest with
    | none => .leave (.error .missingEscape)
    | some (opChar, ofs) => .again ⟨ofs, opBuf ++ [opChar], curQuote⟩
  else if curQuote.isSome then .again ⟨rest, opBuf, none⟩
  else if ch = 34 then .again ⟨rest, opBuf, some .double⟩
  else if ch = 39 then .again ⟨rest, opBuf, some .single⟩
  else .leave (.ok ⟨ch :: rest, opBuf, curQuote⟩)

def innerBody (c : Cursor) : Pass Cursor (Except ErrExit Cursor) :=
  if c.ofs = [] then .leave (.ok c)
  else match strpbrk (delimiters c.curQuote) c.ofs with
    | none =>
      match c.curQuote with
      | some q => .leave (.error (.missingTerminating q))
      | none => .leave (.ok ⟨[], c.opBuf ++ c.ofs, none⟩)
    | some ofs1 => delimiter (c.opBuf ++ ofs1.text) c.curQuote ofs1.ch ofs1.rest

theorem delimiter_cases (opBuf : List UInt8) (curQuote : Option Quote) (ch : UInt8)
    (rest : List UInt8) :
    (ch = backslash ∧ escape rest = none ∧
      delimiter opBuf curQuote ch rest = .leave (.error .missingEscape)) ∨
    (∃ opChar ofs, ch = backslash ∧ escape rest = some (opChar, ofs) ∧
      delimiter opBuf curQuote ch rest = .again ⟨ofs, opBuf ++ [opChar], curQuote⟩) ∨
    (∃ q, ch ≠ backslash ∧ curQuote = some q ∧
      delimiter opBuf curQuote ch rest = .again ⟨rest, opBuf, none⟩) ∨
    (∃ q : Quote, curQuote = none ∧ ch = q.char ∧
      delimiter opBuf curQuote ch rest = .again ⟨rest, opBuf, some q⟩) ∨
    (ch ≠ backslash ∧ curQuote = none ∧ (∀ q : Quote, ch ≠ q.char) ∧
      delimiter opBuf curQuote ch rest = .leave (.ok ⟨ch :: rest, opBuf, none⟩)) := by
  by_cases hb : ch = backslash
  · cases he : escape rest with
    | none => exact .inl ⟨hb, rfl, by simp [delimiter, hb, he]⟩
    | some p => exact .inr (.inl ⟨p.1, p.2, hb, rfl, by simp [delimiter, hb, he]⟩)
  · cases curQuote with
    | some q => exact .inr (.inr (.inl ⟨q, hb, rfl, by simp [delimiter, hb]⟩))
    | none =>
      by_cases hd : ch = 34
      · exact .inr (.inr (.inr (.inl ⟨.double, rfl, hd, by simp [delimiter, backslash, hd]⟩)))
      · by_cases hs : ch = 39
        · exact .inr (.inr (.inr (.inl ⟨.single, rfl, hs, by simp [delimiter, backslash, hs]⟩)))
        · refine .inr (.inr (.inr (.inr ⟨hb, rfl, ?_, by simp [delimiter, hb, hd, hs]⟩)))
          intro q
          cases q with
          | single => exact hs
          | double => exact hd

theorem innerBody_cases (c : Cursor) :
    (c.ofs = [] ∧ innerBody c = .leave (.ok c)) ∨
    (∃ q, c.ofs ≠ [] ∧ strpbrk (delimiters c.curQuote) c.ofs = none ∧ c.curQuote = some q ∧
      innerBody c = .leave (.error (.missingTerminating q))) ∨
    (c.ofs ≠ [] ∧ strpbrk (delimiters c.curQuote) c.ofs = none ∧ c.curQuote = none ∧
      innerBody c = .leave (.ok ⟨[], c.opBuf ++ c.ofs, none⟩)) ∨
    (∃ f, strpbrk (delimiters c.curQuote) c.ofs = some f ∧
      innerBody c = delimiter (c.opBuf ++ f.text) c.curQuote f.ch f.rest) := by
  obtain ⟨ofs, opBuf, curQuote⟩ := c
  by_cases hn : ofs = []
  · exact .inl ⟨hn, by simp [innerBody, hn]⟩
  · cases hp : strpbrk (delimiters curQuote) ofs with
    | some f => exact .inr (.inr (.inr ⟨f, rfl, by simp [innerBody, hn, hp]⟩))
    | none =>
      cases curQuote with
      | some q => exact .inr (.inl ⟨q, hn, rfl, rfl, by simp [innerBody, hn, hp]⟩)
      | none => exact .inr (.inr (.inl ⟨hn, rfl, rfl, by simp [innerBody, hn, hp]⟩))

theorem delimiter_again {opBuf rest : List UInt8} {curQuote : Option Quote} {ch : UInt8}
    {t : Cursor} (h : delimiter opBuf curQuote ch rest = .again t) :
    t.ofs.length ≤ rest.length := by
  rcases delimiter_cases opBuf curQuote ch rest with ⟨_, _, he⟩ | ⟨v, ofs, _, hv, he⟩ |
    ⟨q, _, _, he⟩ | ⟨q, _, _, he⟩ | ⟨_, _, _, he⟩ <;> rw [h] at he
  · cases he
  · cases he
    exact (escape_length hv).le
  · cases he
    exact le_rfl
  · cases he
    exact le_rfl
  · cases he

theorem delimiter_leave {opBuf rest : List UInt8} {curQuote : Option Quote} {ch : UInt8}
    {d : Cursor} (h : delimiter opBuf curQuote ch rest = .leave (.ok d)) :
    d = ⟨ch :: rest, opBuf, none⟩ ∧ curQuote = none ∧ ch ≠ backslash ∧
      ∀ q : Quote, ch ≠ q.char := by
  rcases delimiter_cases opBuf curQuote ch rest with ⟨_, _, he⟩ | ⟨v, ofs, _, hv, he⟩ |
    ⟨q, _, _, he⟩ | ⟨q, _, _, he⟩ | ⟨hb, hn, hq, he⟩ <;> rw [h] at he
  · cases he
  · cases he
  · cases he
  · cases he
  · cases he
    exact ⟨rfl, hn, hb, hq⟩

theorem mem_delimiters_none {ch : UInt8} (h : ch ∈ delimiters none) (hb : ch ≠ backslash)
    (hq : ∀ q : Quote, ch ≠ q.char) : ch ∈ whiteSpace ∨ ch ∈ commentStartChrs := by
  have hs := hq .single
  have hd := hq .double
  simp only [Quote.char] at hs hd
  simpa [delimiters, hb, hs, hd] using h

theorem innerBody_again {s t : Cursor} (h : innerBody s = .again t) :
    ∃ f, strpbrk (delimiters s.curQuote) s.ofs = some f ∧
      delimiter (s.opBuf ++ f.text) s.curQuote f.ch f.rest = .again t := by
  rcases innerBody_cases s with ⟨_, he⟩ | ⟨q, _, _, _, he⟩ | ⟨_, _, _, he⟩ | ⟨f, hf, he⟩ <;>
    rw [h] at he
  · cases he
  · cases he
  · cases he
  · exact ⟨f, hf, he.symm⟩

theorem innerBody_decreases : Decreases innerBody (fun c => c.ofs.length) := by
  intro s t h
  show t.ofs.length < s.ofs.length
  obtain ⟨f, hf, hd⟩ := innerBody_again h
  have hl := delimiter_again hd
  have hs := congrArg List.length (strpbrk_some hf).1
  simp only [List.length_append, List.length_cons] at hs
  omega

def innerLoop : Cursor → Except ErrExit Cursor :=
  run innerBody (fun c => c.ofs.length) innerBody_decreases

theorem innerLoop_length (c d : Cursor) (h : innerLoop c = .ok d) :
    d.ofs.length ≤ c.ofs.length := by
  have key : ∀ d, innerLoop c = .ok d → d.ofs.length ≤ c.ofs.length := by
    refine run_induction innerBody_decreases
      (motive := fun s r => ∀ d, r = .ok d → d.ofs.length ≤ s.ofs.length) ?_ ?_ c
    · intro s r hr d hd
      subst hd
      rcases innerBody_cases s with ⟨_, he⟩ | ⟨q, _, _, _, he⟩ | ⟨_, _, _, he⟩ | ⟨f, hf, he⟩
      · rw [hr] at he
        cases he
        exact le_rfl
      · rw [hr] at he
        cases he
      · rw [hr] at he
        cases he
        exact Nat.zero_le _
      · rw [hr] at he
        have hs := congrArg List.length (strpbrk_some hf).1
        rw [(delimiter_leave he.symm).1]
        simp only [List.length_append, List.length_cons] at hs ⊢
        omega
    · intro s t r ht hd d hr
      have hlt := innerBody_decreases s t ht
      exact (hd d hr).trans hlt.le
  exact key d h

/-- The inner loop is entered at a byte that is neither blank nor a comment
start, and then uses up at least that byte, whatever `cur_quote` is. -/
theorem innerLoop_progress {ch : UInt8} {rest opBuf : List UInt8} {curQuote : Option Quote}
    {d : Cursor} (hw : ch ∉ whiteSpace) (hc : ch ∉ commentStartChrs)
    (h : innerLoop ⟨ch :: rest, opBuf, curQuote⟩ = .ok d) : d.ofs.length < (ch :: rest).length := by
  rcases innerBody_cases ⟨ch :: rest, opBuf, curQuote⟩ with
    ⟨hn, _⟩ | ⟨q, _, _, _, he⟩ | ⟨_, _, _, he⟩ | ⟨f, hf, he⟩
  · cases hn
  · rw [innerLoop, run_leave _ he] at h
    cases h
  · rw [innerLoop, run_leave _ he] at h
    cases h
    exact Nat.succ_pos _
  · obtain ⟨hs, hin, htext⟩ := strpbrk_some hf
    simp only at hs hin
    cases hb : delimiter (opBuf ++ f.text) curQuote f.ch f.rest with
    | again t =>
      rw [innerLoop, run_again _ (he.trans hb)] at h
      have hle := innerLoop_length t d h
      have ht := delimiter_again hb
      rw [hs]
      simp only [List.length_append, List.length_cons]
      omega
    | leave r =>
      rw [innerLoop, run_leave _ (he.trans hb)] at h
      subst h
      obtain ⟨hd, hn, hback, hquote⟩ := delimiter_leave hb
      subst hn
      have hsep := mem_delimiters_none hin hback hquote
      -- the delimiter stopped at is not the byte the word starts with
      cases htx : f.text with
      | nil =>
        rw [htx, List.nil_append, List.cons.injEq] at hs
        rw [← hs.1] at hsep
        exact absurd hsep (by simp [hw, hc])
      | cons x xs =>
        rw [hs, htx, hd]
        simp only [List.cons_append, List.length_cons, List.length_append]
        omega

/-! ### The outer loop (`string_parser.c:23-141`) -/

structure Outer where
  ofs : List UInt8
  curQuote : Option Quote
  words : List (List UInt8)
  deriving Repr, DecidableEq

/-- What a run of the function leaves behind: for each `Word is:` line the
`ofs_op - op_buf` bytes of `op_buf` it is printed from, and the error exit if
one was taken. -/
structure Outcome where
  words : List (List UInt8)
  errExit : Option ErrExit
  deriving Repr, DecidableEq

def outerBody (s : Outer) : Pass Outer Outcome :=
  if s.ofs = [] then .leave ⟨s.words, none⟩
  else match s.ofs.drop (strspn s.ofs whiteSpace) with
    | [] => .leave ⟨s.words, none⟩
    | ch :: rest =>
      if ch ∈ commentStartChrs then .leave ⟨s.words, none⟩
      else match innerLoop ⟨ch :: rest, [], s.curQuote⟩ with
        | .error e => .leave ⟨s.words, some e⟩
        | .ok c => .again ⟨c.ofs, c.curQuote, s.words ++ [c.opBuf]⟩

theorem skipped_head {ofs rest : List UInt8} {ch : UInt8}
    (h : ofs.drop (strspn ofs whiteSpace) = ch :: rest) :
    ch ∉ whiteSpace ∧ (ch :: rest).length ≤ ofs.length := by
  have hlen := congrArg List.length h
  rw [List.length_drop] at hlen
  rw [drop_strspn] at h
  have hne : ofs.dropWhile (· ∈ whiteSpace) ≠ [] := by simp [h]
  have hhead := List.head_dropWhile_not (· ∈ whiteSpace) hne
  simp only [h, List.head_cons, decide_eq_false_iff_not] at hhead
  exact ⟨hhead, by omega⟩

theorem outerBody_cases (s : Outer) :
    (s.ofs.drop (strspn s.ofs whiteSpace) = [] ∧ outerBody s = .leave ⟨s.words, none⟩) ∨
    ∃ ch rest, s.ofs.drop (strspn s.ofs whiteSpace) = ch :: rest ∧
      ((ch ∈ commentStartChrs ∧ outerBody s = .leave ⟨s.words, none⟩) ∨
      (∃ e, ch ∉ commentStartChrs ∧ innerLoop ⟨ch :: rest, [], s.curQuote⟩ = .error e ∧
        outerBody s = .leave ⟨s.words, some e⟩) ∨
      (∃ c, ch ∉ commentStartChrs ∧ innerLoop ⟨ch :: rest, [], s.curQuote⟩ = .ok c ∧
        outerBody s = .again ⟨c.ofs, c.curQuote, s.words ++ [c.opBuf]⟩)) := by
  by_cases hn : s.ofs = []
  · exact .inl ⟨by simp [hn], by simp [outerBody, hn]⟩
  · cases hd : s.ofs.drop (strspn s.ofs whiteSpace) with
    | nil => exact .inl ⟨rfl, by simp [outerBody, hn, hd]⟩
    | cons ch rest =>
      refine .inr ⟨ch, rest, rfl, ?_⟩
      by_cases hc : ch ∈ commentStartChrs
      · exact .inl ⟨hc, by simp [outerBody, hn, hd, hc]⟩
      · cases hi : innerLoop ⟨ch :: rest, [], s.curQuote⟩ with
        | error e => exact .inr (.inl ⟨e, hc, rfl, by simp [outerBody, hn, hd, hc, hi]⟩)
        | ok c => exact .inr (.inr ⟨c, hc, rfl, by simp [outerBody, hn, hd, hc, hi]⟩)

theorem outerBody_decreases : Decreases outerBody (fun s => s.ofs.length) := by
  intro s t h
  show t.ofs.length < s.ofs.length
  rcases outerBody_cases s with ⟨_, he⟩ | ⟨ch, rest, hd, ⟨_, he⟩ | ⟨e, _, _, he⟩ | ⟨c, hc, hi, he⟩⟩
    <;> rw [h] at he <;> cases he
  obtain ⟨hw, hle⟩ := skipped_head hd
  exact (innerLoop_progress hw hc hi).trans_le hle

def outerLoop : Outer → Outcome :=
  run outerBody (fun s => s.ofs.length) outerBody_decreases

def allocStrvecQuotedEscaped (src : CString) : Outcome :=
  outerLoop ⟨src.bytes, none, []⟩

end KeepalivedDevel.StringParser
