import KeepalivedDevel.StringParser.Code

/-!
# The language of words, quotes and escapes

A reference tokenizer for the lines that `alloc_strvec_quoted_escaped` splits,
written without its cursor and its two loops. Escapes mean the same in and
outside quotes, so a line is first turned into symbols in which every escape is
one literal byte; words, quoted sections and comments are then read off one
symbol at a time.
-/

namespace KeepalivedDevel.StringParser
open CLib

/-! ### Symbols -/

inductive Sym where
  /-- a byte that stands for itself -/
  | raw (c : UInt8)
  /-- the byte an escape stands for -/
  | lit (c : UInt8)
  /-- a backslash at the end of the line -/
  | dangling
  deriving Repr, DecidableEq

def digitValue (c : UInt8) : ℕ :=
  if c ≤ 57 then c.toNat - 48 else if c ≤ 70 then c.toNat - 55 else c.toNat - 87

def digitsValue (base : ℕ) (ds : List UInt8) : ℕ :=
  ds.foldl (fun v d => base * v + digitValue d) 0

/- The letters of `\a \b \f \n \r \t \v` with the bytes they stand for. -/
def controlEscapes : List (UInt8 × UInt8) :=
  [(97, 7), (98, 8), (102, 12), (110, 10), (114, 13), (116, 9), (118, 11)]

/-- The escape behind a backslash: the number of bytes it takes and the byte it
stands for. A numeric escape is `x` with all hexadecimal digits that follow, or
up to three octal digits, and is taken modulo 256. -/
def escapeAt : List UInt8 → Option (ℕ × UInt8)
  | [] => none
  | c :: s =>
    if c = 120 ∧ s.takeWhile isxdigit ≠ [] then
      let ds := s.takeWhile isxdigit
      some (1 + ds.length, UInt8.ofNat (digitsValue 16 ds))
    else if isOctal c then
      let ds := ((c :: s).takeWhile isOctal).take 3
      some (ds.length, UInt8.ofNat (digitsValue 8 ds))
    else some (1, (controlEscapes.lookup c).getD c)

/- Symbols of a line, after leaving out its first bytes. -/
def unescape : ℕ → List UInt8 → List Sym
  | _, [] => []
  | skip + 1, _ :: s => unescape skip s
  | 0, c :: s =>
    if c = backslash then
      match escapeAt s with
      | none => [.dangling]
      | some (n, v) => .lit v :: unescape n s
    else .raw c :: unescape 0 s

def syms (s : List UInt8) : List Sym := unescape 0 s

theorem unescape_drop (n : ℕ) (s : List UInt8) : unescape n s = syms (s.drop n) := by
  induction s generalizing n with
  | nil => cases n <;> rfl
  | cons c s ih =>
    cases n with
    | zero => rfl
    | succ n => exact ih n

@[simp] theorem syms_nil : syms [] = [] := rfl

theorem syms_raw {c : UInt8} (hc : c ≠ backslash) (s : List UInt8) :
    syms (c :: s) = .raw c :: syms s := by
  simp only [syms, unescape, hc, ite_false]

theorem syms_lit {s : List UInt8} {n : ℕ} {v : UInt8} (h : escapeAt s = some (n, v)) :
    syms (backslash :: s) = .lit v :: syms (s.drop n) := by
  simp only [syms, unescape, ite_true, h]
  rw [unescape_drop, syms]

theorem syms_dangling : syms [backslash] = [.dangling] := rfl

/-! ### Words -/

inductive Class where
  | blank
  | comment
  | quote (q : Quote)
  | bare
  deriving Repr, DecidableEq

def classify (c : UInt8) : Class :=
  if c = 32 ∨ c = 9 then .blank
  else if c = 35 ∨ c = 33 then .comment
  else if c = 39 then .quote .single
  else if c = 34 then .quote .double
  else .bare

/- Where the reader is: between words, in a word, or in a quoted section of a
word; the bytes are those of the word so far. -/
inductive Mode where
  | gap
  | word (w : List UInt8)
  | quoted (q : Quote) (w : List UInt8)
  deriving Repr, DecidableEq

/-- The words of a line, or `none` for a line in error. -/
def tokens : Mode → List Sym → Option (List (List UInt8))
  | .gap, [] => some []
  | .word w, [] => some [w]
  | .quoted _ _, [] => none
  | _, .dangling :: _ => none
  | .gap, .lit c :: s => tokens (.word [c]) s
  | .word w, .lit c :: s => tokens (.word (w ++ [c])) s
  | .quoted q w, .lit c :: s => tokens (.quoted q (w ++ [c])) s
  | .gap, .raw c :: s =>
    match classify c with
    | .blank => tokens .gap s
    | .comment => some []
    | .quote q => tokens (.quoted q []) s
    | .bare => tokens (.word [c]) s
  | .word w, .raw c :: s =>
    match classify c with
    | .blank => (tokens .gap s).map (w :: ·)
    | .comment => some [w]
    | .quote q => tokens (.quoted q w) s
    | .bare => tokens (.word (w ++ [c])) s
  | .quoted q w, .raw c :: s =>
    if c = q.char then tokens (.word w) s else tokens (.quoted q (w ++ [c])) s

def reference (src : CString) : Option (List (List UInt8)) := tokens .gap (syms src.bytes)

/-- Whether the line ends inside a quoted section, right behind the opening
quote or right behind an escape. The state is the section the reader is in and
whether the symbol just read is that quote or an escape. -/
def endsOpen : Option (Quote × Bool) → List Sym → Bool
  | none, [] => false
  | some (_, behind), [] => behind
  | none, .raw c :: s =>
    match classify c with
    | .comment => false
    | .quote q => endsOpen (some (q, true)) s
    | _ => endsOpen none s
  | none, .lit _ :: s => endsOpen none s
  | none, .dangling :: _ => false
  | some (q, _), .raw c :: s =>
    if c = q.char then endsOpen none s else endsOpen (some (q, false)) s
  | some (q, _), .lit _ :: s => endsOpen (some (q, true)) s
  | some (q, _), .dangling :: s => endsOpen (some (q, false)) s

end KeepalivedDevel.StringParser
