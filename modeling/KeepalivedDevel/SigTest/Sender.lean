import KeepalivedDevel.CLib.While
import KeepalivedDevel.CLib.Buffer

/-!
# Who sent the signal, in `code_test/sigtest.c` and `code_test/sigtest.001.c`

`sig_handler` reads `/proc/PID/cmdline` of the sender into a buffer and turns the
NULs between the arguments into blanks, in place. A NUL is replaced if something
other than a NUL follows it, so an empty argument ends the text early.
-/

namespace KeepalivedDevel.SigTest
open CLib CLib.While

abbrev blank : UInt8 := 32

-- sizeof(buf)
def bufSize : ℕ := 1024

/- The two copies of the function. -/
inductive Version where
  | sigtest
  | sigtest001
  deriving Repr, DecidableEq

def Version.label : Version → String
  | .sigtest => "  program was "
  | .sigtest001 => "Command was "

/- What is logged about the sender. -/
inductive Log where
  | unableToOpen
  | freadEof
  | program (label : String) (text : List UInt8)
  deriving Repr, DecidableEq

/-! ### The loop (`sigtest.c:166-168`, `sigtest.001.c:118-120`) -/

structure Scan where
  i : ℕ
  buf : List UInt8
  deriving Repr, DecidableEq

/- After a replacement `i` is advanced twice. -/
def scanBody (len : ℕ) (s : Scan) : Pass Scan (List UInt8) :=
  if s.i < len - 1 then
    if s.buf.getD s.i 0 = 0 ∧ s.buf.getD (s.i + 1) 0 ≠ 0 then
      .again ⟨s.i + 2, s.buf.set s.i blank⟩
    else .again ⟨s.i + 1, s.buf⟩
  else .leave s.buf

theorem scanBody_decreases (len : ℕ) : Decreases (scanBody len) (fun s => len - s.i) := by
  intro s t h
  show len - t.i < len - s.i
  unfold scanBody at h
  split at h
  · split at h
    · cases h
      show len - (s.i + 2) < len - s.i
      omega
    · cases h
      show len - (s.i + 1) < len - s.i
      omega
  · cases h

def blankOut (len : ℕ) (buf : List UInt8) : List UInt8 :=
  run (scanBody len) (fun s => len - s.i) (scanBody_decreases len) ⟨0, buf⟩

/-- The part of `sig_handler` about the sender. `old` is what the buffer holds, `file`
the contents of the sender's `cmdline` if it can be opened. -/
def logSender (v : Version) (old : List UInt8) (file : Option (List UInt8)) : Log :=
  match file with
  | none => .unableToOpen
  | some bytes =>
    let got := bytes.take bufSize
    let buf := got ++ (old.set (bufSize - 1) 0).drop got.length
    if got.length = 0 then .freadEof
    else .program v.label (cstr (blankOut got.length buf))

/-! ### What the loop does -/

/- Every NUL with another byte than NUL behind it is replaced. -/
def blanked : List UInt8 → List UInt8
  | [] => []
  | [c] => [c]
  | c :: d :: s => (if c = 0 ∧ d ≠ 0 then blank else c) :: blanked (d :: s)

theorem blanked_cons {c : UInt8} (hc : c ≠ 0) (s : List UInt8) :
    blanked (c :: s) = c :: blanked s := by
  cases s with
  | nil => rfl
  | cons d s => simp [blanked, hc]

theorem getD_behind (done : List UInt8) (c : UInt8) (rest : List UInt8) :
    (done ++ c :: rest).getD done.length 0 = c := by
  simp [List.getD_eq_getElem?_getD]

theorem getD_behind_succ (done : List UInt8) (c d : UInt8) (rest : List UInt8) :
    (done ++ c :: d :: rest).getD (done.length + 1) 0 = d := by
  simp [List.getD_eq_getElem?_getD]

theorem scanBody_end {len i : ℕ} (h : len ≤ i + 1) (buf : List UInt8) :
    scanBody len ⟨i, buf⟩ = .leave buf := by
  rw [scanBody, if_neg (by simp only; omega)]

section
variable {len : ℕ} {done : List UInt8} {c d : UInt8} (h : done.length + 1 < len)
include h

theorem scanBody_replace (hr : c = 0 ∧ d ≠ 0) (rest : List UInt8) :
    scanBody len ⟨done.length, done ++ c :: d :: rest⟩ =
      .again ⟨(done ++ [blank, d]).length, done ++ [blank, d] ++ rest⟩ := by
  have hlt : done.length < len - 1 := by omega
  rw [scanBody, if_pos hlt, getD_behind, getD_behind_succ, if_pos hr]
  simp

theorem scanBody_keep (hr : ¬ (c = 0 ∧ d ≠ 0)) (rest : List UInt8) :
    scanBody len ⟨done.length, done ++ c :: d :: rest⟩ =
      .again ⟨(done ++ [c]).length, done ++ [c] ++ d :: rest⟩ := by
  have hlt : done.length < len - 1 := by omega
  rw [scanBody, if_pos hlt, getD_behind, getD_behind_succ, if_neg hr]
  simp

end

/- Before a pass `done` is finished, and `rest` of the bytes read is still to come. -/
theorem run_scan (len : ℕ) (done rest behind : List UInt8) (h : done.length + rest.length = len) :
    run (scanBody len) (fun s => len - s.i) (scanBody_decreases len)
        ⟨done.length, done ++ (rest ++ behind)⟩ =
      done ++ (blanked rest ++ behind) := by
  induction hn : rest.length using Nat.strongRecOn generalizing done rest with
  | _ n ih =>
    match rest with
    | [] =>
      rw [List.length_nil] at h
      exact run_leave _ (scanBody_end (by omega) _)
    | [c] =>
      rw [List.length_singleton] at h
      exact run_leave _ (scanBody_end (by omega) _)
    | c :: d :: s =>
      simp only [List.length_cons] at h hn
      by_cases hr : c = 0 ∧ d ≠ 0
      · have hb := scanBody_replace (show done.length + 1 < len by omega) hr (s ++ behind)
        refine (run_again _ hb).trans ?_
        rw [ih s.length (by omega) (done ++ [blank, d]) s (by simp; omega) rfl]
        simp [blanked, hr, blanked_cons hr.2]
      · have hb := scanBody_keep (show done.length + 1 < len by omega) hr (s ++ behind)
        refine (run_again _ hb).trans ?_
        have hrest := ih (d :: s).length (by simp only [List.length_cons]; omega) (done ++ [c])
          (d :: s) (by simp; omega) rfl
        refine hrest.trans ?_
        simp [blanked, hr]

theorem blankOut_eq (got behind : List UInt8) :
    blankOut got.length (got ++ behind) = blanked got ++ behind :=
  run_scan got.length [] got behind (Nat.zero_add _)

/-! ### Arguments -/

/- The image of a command line in `/proc`. -/
def image (args : List CString) : List UInt8 := args.flatMap fun a => a.bytes ++ [0]

def joined (args : List CString) : List UInt8 := [blank].intercalate (args.map CString.bytes)

/-- Arguments whose image is shorter than the buffer. -/
structure CommandLine where
  args : List CString
  fits : (image args).length < bufSize

theorem blanked_append {a : List UInt8} (ha : 0 ∉ a) (s : List UInt8) :
    blanked (a ++ s) = a ++ blanked s := by
  induction a with
  | nil => rfl
  | cons c a ih =>
    rw [List.mem_cons, not_or] at ha
    rw [List.cons_append, blanked_cons (Ne.symm ha.1), ih ha.2]
    rfl

theorem text_cons (a b : CString) (as : List CString) (behind : List UInt8) :
    cstr (blanked (image (a :: b :: as)) ++ behind) =
      if b.bytes = [] then a.bytes
      else a.bytes ++ blank :: cstr (blanked (image (b :: as)) ++ behind) := by
  have himage : image (a :: b :: as) = a.bytes ++ 0 :: image (b :: as) := by
    simp [image]
  rw [himage, blanked_append a.nulFree, List.append_assoc]
  have hb : image (b :: as) = b.bytes ++ 0 :: image as := by simp [image]
  cases hbytes : b.bytes with
  | nil =>
    rw [hbytes, List.nil_append] at hb
    rw [hb, if_pos rfl]
    simp only [blanked, ne_eq, not_true_eq_false, and_false, ite_false]
    exact cstr_append_nul a.nulFree _
  | cons c s =>
    have hc : c ≠ 0 := by
      rintro rfl
      exact b.nulFree (by simp [hbytes])
    rw [hbytes, List.cons_append] at hb
    rw [hb, if_neg (by simp), cstr_append a.nulFree]
    simp only [blanked, ne_eq, hc, not_false_eq_true, and_self, ite_true, List.cons_append]
    rw [cstr, List.takeWhile_cons_of_pos (by decide)]
    rfl

theorem text_eq_joined_iff (a : CString) (as : List CString) (behind : List UInt8) :
    cstr (blanked (image (a :: as)) ++ behind) = joined (a :: as) ↔ ∀ b ∈ as, b.bytes ≠ [] := by
  induction as generalizing a with
  | nil =>
    have himage : image [a] = a.bytes ++ [0] := by simp [image]
    rw [himage, blanked_append a.nulFree, List.append_assoc]
    simp [blanked, cstr_append_nul a.nulFree, joined]
  | cons b as ih =>
    have hjoin : joined (a :: b :: as) = a.bytes ++ blank :: joined (b :: as) := by
      simp [joined, List.intercalate_cons_cons]
    rw [text_cons, hjoin, List.forall_mem_cons]
    split
    · next hb => simp [hb]
    · next hb =>
      rw [List.append_right_inj, List.cons.injEq, ih b]
      simp [hb]

theorem logSender_joined_iff (v : Version) (old : List UInt8) (c : CommandLine) :
    logSender v old (some (image c.args)) = .program v.label (joined c.args) ↔
      c.args ≠ [] ∧ ∀ a ∈ c.args.tail, a.bytes ≠ [] := by
  have hgot : (image c.args).take bufSize = image c.args :=
    List.take_of_length_le (Nat.le_of_lt c.fits)
  simp only [logSender, hgot, blankOut_eq]
  cases hargs : c.args with
  | nil => simp [image]
  | cons a as =>
    have hne : (image (a :: as)).length ≠ 0 := by simp [image]
    rw [if_neg hne, Log.program.injEq, text_eq_joined_iff]
    simp

theorem nul_not_mem_nil : (0 : UInt8) ∉ ([] : List UInt8) := List.not_mem_nil

/- The command line of `a '' b`. -/
def emptyArg : CommandLine where
  args := [⟨[97], by decide⟩, ⟨[], nul_not_mem_nil⟩, ⟨[98], by decide⟩]
  fits := by decide

theorem logSender_emptyArg :
    logSender .sigtest [] (some (image emptyArg.args)) = .program "  program was " [97] ∧
      logSender .sigtest001 [] (some (image emptyArg.args)) = .program "Command was " [97] ∧
      joined emptyArg.args = [97, 32, 32, 98] := by
  decide

end KeepalivedDevel.SigTest
