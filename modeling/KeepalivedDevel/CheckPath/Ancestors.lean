import KeepalivedDevel.CLib.While
import KeepalivedDevel.CLib.Buffer

/-!
# `code_test/check_path.c`

`main` walks along its argument from slash to slash, cuts the argument off there
to `stat` what is in front, and puts the byte back. A slash at the start is kept
in front of the cut. The argument is modelled with its terminator, pointers into
it by their distance from its start.
-/

namespace KeepalivedDevel.CheckPath
open CLib CLib.While

abbrev slash : UInt8 := 47

structure Stat where
  uid : UInt32
  gid : UInt32
  mode : UInt32
  deriving Repr, DecidableEq

-- S_IRUSR, S_IWUSR, ... S_IXOTH with their letters
def permBits : List (UInt32 × Char) :=
  [(0o400, 'r'), (0o200, 'w'), (0o100, 'x'), (0o40, 'r'), (0o20, 'w'), (0o10, 'x'),
    (0o4, 'r'), (0o2, 'w'), (0o1, 'x')]

def perms (mode : UInt32) : List Char :=
  permBits.map fun p => if mode &&& p.1 ≠ 0 then p.2 else '-'

def sIwgrp : UInt32 := 0o20
def sIwoth : UInt32 := 0o2

def Stat.isUnsafe (buf : Stat) : Bool :=
  buf.uid ≠ 0 || (buf.gid ≠ 0 && buf.mode &&& sIwgrp ≠ 0) || buf.mode &&& sIwoth ≠ 0

inductive Line where
  | stat (uid gid mode : UInt32)
  | unsafePermissions (name : List UInt8) (perms : List Char) (uid gid : UInt32)
  | statReturned
  deriving Repr, DecidableEq

/- The lines about one name. -/
def report (name : List UInt8) (buf : Stat) : List Line :=
  .stat buf.uid buf.gid buf.mode ::
    if buf.isUnsafe then [.unsafePermissions name (perms buf.mode) buf.uid buf.gid] else []

/-! ### The loop (`check_path.c:19-55`) -/

/- `next` is `none` where the pointer is NULL; `names` are those passed to `stat`. -/
structure State where
  next : Option ℕ
  arg : List UInt8
  names : List (List UInt8)
  printed : List Line
  deriving Repr, DecidableEq

inductive Exit where
  | returned
  | failed
  deriving Repr, DecidableEq

structure Result where
  names : List (List UInt8)
  printed : List Line
  exit : Exit
  deriving Repr, DecidableEq

/- The place of the next slash, if there is one. -/
def findSlash (arg : List UInt8) (next : ℕ) : Option ℕ :=
  (strchr slash (cstr (arg.drop next))).map fun f => next + f.text.length

/- Where the argument is cut for a slash: behind it if it is the first byte. -/
def cutAt (place : ℕ) : ℕ := if place = 0 then place + 1 else place

/- `stat`, the output, and what `restore` makes of the argument afterwards. -/
def examine (stat : ℕ → List UInt8 → Option Stat) (s : State) (next : Option ℕ)
    (arg restored : List UInt8) : Pass State Result :=
  match stat s.names.length (cstr arg) with
  | none => .leave ⟨s.names ++ [cstr arg], s.printed ++ [.statReturned], .failed⟩
  | some buf =>
    .again ⟨next, restored, s.names ++ [cstr arg], s.printed ++ report (cstr arg) buf⟩

/-- One pass; `stat k name` is the result of the call number `k`. -/
def mainBody (stat : ℕ → List UInt8 → Option Stat) (s : State) : Pass State Result :=
  match s.next with
  | none => .leave ⟨s.names, s.printed, .returned⟩
  | some next =>
    match findSlash s.arg next with
    | none => examine stat s none s.arg s.arg
    | some place =>
      let cut := s.arg.set (cutAt place) 0
      examine stat s (some (place + 1)) cut (cut.set (cutAt place) (s.arg.getD (cutAt place) 0))

/- How far `next` can still move. -/
def State.ahead (s : State) : ℕ :=
  match s.next with
  | none => 0
  | some next => s.arg.length + 1 - next + 1

theorem findSlash_some {arg : List UInt8} {next place : ℕ} (h : findSlash arg next = some place) :
    next ≤ place ∧ place < arg.length := by
  obtain ⟨f, hf, rfl⟩ := Option.map_eq_some_iff.mp h
  have hlen := congrArg List.length (strchr_some hf).1
  have hle : (cstr (arg.drop next)).length ≤ (arg.drop next).length :=
    (List.takeWhile_sublist _).length_le
  rw [List.length_append, List.length_cons] at hlen
  rw [List.length_drop] at hle
  omega

theorem examine_again {stat : ℕ → List UInt8 → Option Stat} {s t : State} {next : Option ℕ}
    {arg restored : List UInt8} (h : examine stat s next arg restored = .again t) :
    t.next = next ∧ t.arg = restored := by
  unfold examine at h
  split at h
  · cases h
  · cases h
    exact ⟨rfl, rfl⟩

theorem mainBody_decreases (stat : ℕ → List UInt8 → Option Stat) :
    Decreases (mainBody stat) State.ahead := by
  intro s t h
  unfold mainBody at h
  split at h
  · cases h
  · next next hnext =>
    have hs : s.ahead = s.arg.length + 1 - next + 1 := by simp only [State.ahead, hnext]
    split at h
    · have ht := (examine_again h).1
      rw [hs, State.ahead, ht]
      exact Nat.succ_pos _
    · next place hp =>
      obtain ⟨ht, harg⟩ := examine_again h
      obtain ⟨hle, hlt⟩ := findSlash_some hp
      rw [hs, State.ahead, ht]
      simp only [harg, List.length_set]
      omega

def start (path : CString) : State := ⟨some 0, path.bytes ++ [0], [], []⟩

/-- `main`, given an argument. -/
def checkPath (stat : ℕ → List UInt8 → Option Stat) (path : CString) : Result :=
  run (mainBody stat) State.ahead (mainBody_decreases stat) (start path)

/-! ### The argument -/

section
variable (path : CString)

theorem findSlash_path {next : ℕ} (h : next ≤ path.bytes.length) :
    findSlash (path.bytes ++ [0]) next =
      (strchr slash (path.bytes.drop next)).map fun f => next + f.text.length := by
  have hnul : 0 ∉ path.bytes.drop next := fun hc => path.nulFree (List.mem_of_mem_drop hc)
  rw [findSlash, List.drop_append_of_le_length h, cstr_append_nul hnul]

theorem cstr_path : cstr (path.bytes ++ [0]) = path.bytes := cstr_append_nul path.nulFree []

theorem cstr_cut {i : ℕ} (h : i ≤ path.bytes.length) :
    cstr ((path.bytes ++ [0]).set i 0) = path.bytes.take i := by
  have hlt : i < (path.bytes ++ [0]).length := by simpa using Nat.lt_succ_of_le h
  have hnul : 0 ∉ path.bytes.take i := fun hc => path.nulFree (List.mem_of_mem_take hc)
  rw [List.set_eq_take_append_cons_drop, if_pos hlt, List.take_append_of_le_length h,
    cstr_append_nul hnul]

theorem restore_cut (i : ℕ) :
    ((path.bytes ++ [0]).set i 0).set i ((path.bytes ++ [0]).getD i 0) = path.bytes ++ [0] := by
  rw [List.set_set]
  by_cases hlt : i < (path.bytes ++ [0]).length
  · rw [List.getD_eq_getElem?_getD, List.getElem?_eq_getElem hlt, Option.getD_some,
      List.set_getElem_self]
  · exact List.set_eq_of_length_le (Nat.not_lt.mp hlt)

end

/-! ### The names examined -/

/- What is examined for the byte at `i`. -/
def ancestorAt (path : List UInt8) (i : ℕ) : Option (List UInt8) :=
  if path[i]? = some slash then some (if i = 0 then [slash] else path.take i) else none

def ancestors (path : List UInt8) : List (List UInt8) :=
  (List.range path.length).filterMap (ancestorAt path)

/- The ancestors for the slashes from `n` on. -/
def ancestorsFrom (path : List UInt8) (n : ℕ) : List (List UInt8) :=
  (List.range' n (path.length - n)).filterMap (ancestorAt path)

theorem ancestorsFrom_zero (path : List UInt8) : ancestorsFrom path 0 = ancestors path := by
  rw [ancestorsFrom, ancestors, List.range_eq_range', Nat.sub_zero]

/- No name belongs to a stretch of the path without a slash. -/
theorem filterMap_stretch {path text rest : List UInt8} {n : ℕ} (h : path.drop n = text ++ rest)
    (hs : slash ∉ text) : (List.range' n text.length).filterMap (ancestorAt path) = [] := by
  rw [List.filterMap_eq_nil_iff]
  intro i hi
  rw [List.mem_range'_1] at hi
  have hget : path[i]? = text[i - n]? := by
    have hdrop : (path.drop n)[i - n]? = path[n + (i - n)]? := List.getElem?_drop
    rw [h, List.getElem?_append_left (by omega), show n + (i - n) = i by omega] at hdrop
    exact hdrop.symm
  rw [ancestorAt, if_neg]
  rw [hget]
  intro hc
  exact hs (List.mem_of_getElem? hc)

theorem ancestorsFrom_none {path : List UInt8} {n : ℕ} (h : slash ∉ path.drop n) :
    ancestorsFrom path n = [] := by
  have hstretch := filterMap_stretch (List.append_nil (path.drop n)).symm h
  rwa [List.length_drop] at hstretch

theorem ancestorsFrom_some {path text rest : List UInt8} {n : ℕ}
    (h : path.drop n = text ++ slash :: rest) (hs : slash ∉ text) :
    ancestorsFrom path n = path.take (cutAt (n + text.length)) ::
      ancestorsFrom path (n + text.length + 1) := by
  have hlen := congrArg List.length h
  rw [List.length_drop, List.length_append, List.length_cons] at hlen
  have hget : path[n + text.length]? = some slash := by
    have hdrop : (path.drop n)[text.length]? = path[n + text.length]? := List.getElem?_drop
    rw [h, List.getElem?_append_right (Nat.le_refl _), Nat.sub_self] at hdrop
    exact hdrop.symm
  have hhere : ancestorAt path (n + text.length) = some (path.take (cutAt (n + text.length))) := by
    rw [ancestorAt, if_pos hget, cutAt]
    by_cases hzero : n + text.length = 0
    · rw [hzero] at hget
      rw [if_pos hzero, if_pos hzero, hzero, List.take_add_one, hget]
      rfl
    · rw [if_neg hzero, if_neg hzero]
  have hsplit : List.range' n (path.length - n) =
      List.range' n text.length ++ (n + text.length) ::
        List.range' (n + text.length + 1) (path.length - (n + text.length + 1)) := by
    rw [← List.range'_succ, List.range'_append_1]
    congr 1
    omega
  rw [ancestorsFrom, hsplit, List.filterMap_append, filterMap_stretch h hs, List.nil_append,
    List.filterMap_cons_some hhere]
  rfl

/-! ### The run -/

section
variable (st : ℕ → List UInt8 → Stat)

/- The output for names examined from call `k` on. -/
def reports (k : ℕ) (names : List (List UInt8)) : List Line :=
  (names.zipIdx k).flatMap fun e => report e.1 (st e.2 e.1)

theorem reports_cons (k : ℕ) (name : List UInt8) (names : List (List UInt8)) :
    reports st k (name :: names) = report name (st k name) ++ reports st (k + 1) names := by
  simp [reports, List.zipIdx_cons]

/- The calls of `stat` all succeed. -/
def succeeding (k : ℕ) (name : List UInt8) : Option Stat := some (st k name)

variable (path : CString)

theorem mainBody_last {n : ℕ} (hn : n ≤ path.bytes.length) (hs : slash ∉ path.bytes.drop n)
    (names : List (List UInt8)) (printed : List Line) :
    mainBody (succeeding st) ⟨some n, path.bytes ++ [0], names, printed⟩ =
      .again ⟨none, path.bytes ++ [0], names ++ [path.bytes],
        printed ++ report path.bytes (st names.length path.bytes)⟩ := by
  have hnone : findSlash (path.bytes ++ [0]) n = none := by
    rw [findSlash_path path hn, strchr_eq_none hs]
    rfl
  simp only [mainBody, hnone, examine, succeeding, cstr_path]

theorem mainBody_slash {n : ℕ} {text rest : List UInt8} (hn : n ≤ path.bytes.length)
    (h : path.bytes.drop n = text ++ slash :: rest) (hs : slash ∉ text)
    (names : List (List UInt8)) (printed : List Line) :
    mainBody (succeeding st) ⟨some n, path.bytes ++ [0], names, printed⟩ =
      .again ⟨some (n + text.length + 1), path.bytes ++ [0],
        names ++ [path.bytes.take (cutAt (n + text.length))],
        printed ++ report (path.bytes.take (cutAt (n + text.length)))
          (st names.length (path.bytes.take (cutAt (n + text.length))))⟩ := by
  have hsome : findSlash (path.bytes ++ [0]) n = some (n + text.length) := by
    rw [findSlash_path path hn, h, strchr_append rest hs]
    rfl
  have hlen := congrArg List.length h
  rw [List.length_drop, List.length_append, List.length_cons] at hlen
  have hcut : cutAt (n + text.length) ≤ path.bytes.length := by
    unfold cutAt
    split <;> omega
  simp only [mainBody, hsome, examine, succeeding, cstr_cut path hcut, restore_cut]

theorem run_from {n : ℕ} (hn : n ≤ path.bytes.length) (names : List (List UInt8))
    (printed : List Line) :
    run (mainBody (succeeding st)) State.ahead (mainBody_decreases _)
        ⟨some n, path.bytes ++ [0], names, printed⟩ =
      ⟨names ++ (ancestorsFrom path.bytes n ++ [path.bytes]),
        printed ++ reports st names.length (ancestorsFrom path.bytes n ++ [path.bytes]),
        .returned⟩ := by
  induction hm : path.bytes.length - n using Nat.strongRecOn generalizing n names printed with
  | _ m ih =>
    cases hf : strchr slash (path.bytes.drop n) with
    | none =>
      have hs := strchr_none hf
      have hleave : mainBody (succeeding st) ⟨none, path.bytes ++ [0], names ++ [path.bytes],
          printed ++ report path.bytes (st names.length path.bytes)⟩ = .leave ⟨_, _, .returned⟩ := rfl
      rw [run_again _ (mainBody_last st path hn hs names printed), run_leave _ hleave,
        ancestorsFrom_none hs, List.nil_append, reports_cons]
      simp [reports]
    | some f =>
      obtain ⟨hdrop, hs⟩ := strchr_some hf
      have hlen := congrArg List.length hdrop
      rw [List.length_drop, List.length_append, List.length_cons] at hlen
      rw [run_again _ (mainBody_slash st path hn hdrop hs names printed),
        ih (path.bytes.length - (n + f.text.length + 1)) (by omega) (by omega) _ _ rfl,
        ancestorsFrom_some hdrop hs, List.cons_append, reports_cons]
      simp

end

theorem reaches_arg {stat : ℕ → List UInt8 → Option Stat} {path : CString} {s : State}
    (h : Reaches (mainBody stat) (start path) s) : s.arg = path.bytes ++ [0] := by
  induction h with
  | enter => rfl
  | pass _ hb ih =>
    unfold mainBody at hb
    split at hb
    · cases hb
    · split at hb
      · rw [(examine_again hb).2]
        exact ih
      · rw [(examine_again hb).2, ih, restore_cut]

/- The names on the `Unsafe permissions` lines. -/
def Line.unsafeName : Line → Option (List UInt8)
  | .unsafePermissions name _ _ _ => some name
  | _ => none

theorem filterMap_reports (st : ℕ → List UInt8 → Stat) (k : ℕ) (names : List (List UInt8)) :
    (reports st k names).filterMap Line.unsafeName =
      ((names.zipIdx k).filter fun e => (st e.2 e.1).isUnsafe).map Prod.fst := by
  induction names generalizing k with
  | nil => rfl
  | cons name names ih =>
    rw [reports_cons, List.filterMap_append, ih, List.zipIdx_cons, List.filter_cons, report]
    cases hu : (st k name).isUnsafe with
    | false => rfl
    | true => rfl

theorem isUnsafe_iff (buf : Stat) :
    buf.isUnsafe = true ↔
      buf.uid ≠ 0 ∨ (buf.mode &&& sIwgrp ≠ 0 ∧ buf.gid ≠ 0) ∨ buf.mode &&& sIwoth ≠ 0 := by
  simp only [Stat.isUnsafe, Bool.or_eq_true, Bool.and_eq_true, decide_eq_true_eq, or_assoc]
  rw [and_comm (a := buf.gid ≠ 0)]

theorem checkPath_examines (path : CString) (st : ℕ → List UInt8 → Stat) :
    (checkPath (succeeding st) path).exit = .returned ∧
    (checkPath (succeeding st) path).names = ancestors path.bytes ++ [path.bytes] ∧
    (checkPath (succeeding st) path).printed.filterMap Line.unsafeName =
      (((ancestors path.bytes ++ [path.bytes]).zipIdx 0).filter fun e =>
        (st e.2 e.1).uid ≠ 0 ∨ ((st e.2 e.1).mode &&& sIwgrp ≠ 0 ∧ (st e.2 e.1).gid ≠ 0) ∨
          (st e.2 e.1).mode &&& sIwoth ≠ 0).map Prod.fst ∧
    ∀ s, Reaches (mainBody (succeeding st)) (start path) s → s.arg = path.bytes ++ [0] := by
  have hrun : checkPath (succeeding st) path =
      ⟨ancestors path.bytes ++ [path.bytes], reports st 0 (ancestors path.bytes ++ [path.bytes]),
        .returned⟩ := by
    rw [checkPath, start, run_from st path (Nat.zero_le _), ancestorsFrom_zero]
    rfl
  rw [hrun]
  refine ⟨rfl, rfl, ?_, fun s hs => reaches_arg hs⟩
  rw [filterMap_reports]
  congr 1
  apply List.filter_congr
  intro e _
  rw [Bool.eq_iff_iff, isUnsafe_iff, decide_eq_true_iff]

end KeepalivedDevel.CheckPath
