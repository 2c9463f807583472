import KeepalivedDevel.CLib.While
import KeepalivedDevel.CLib.CString
import Mathlib.Data.Option.Basic

/-!
# `find_path` of `code_test/find_path.c`

The search of `execvp` without the execution: every component of PATH in turn is
joined with the file name and looked up. `struct stat buf` is a local variable
of the loop body that nothing initialises, so after a failed `stat` its mode is
whatever was there before.
-/

namespace KeepalivedDevel.FindPath
open CLib CLib.While

abbrev slash : UInt8 := 47
abbrev colon : UInt8 := 58

def nameMax : ℕ := 255
def pathMax : ℕ := 4096

/-! ### Error numbers and modes -/

def enoent : ℤ := 2
def enoexec : ℤ := 8
def eacces : ℤ := 13
def enodev : ℤ := 19
def enotdir : ℤ := 20
def enametoolong : ℤ := 36
def etimedout : ℤ := 110
def estale : ℤ := 116

def sIsreg (mode : UInt32) : Bool := mode &&& 0o170000 = 0o100000

-- S_IXUSR | S_IXGRP | S_IXOTH
def sIxany : UInt32 := 0o111

def executable (mode : UInt32) : Bool := sIsreg mode && mode &&& sIxany ≠ 0

/-- What `stat` says of each name: the mode of a file, or `none` where it fails. It
fails on names that do not fit into PATH_MAX bytes. -/
structure FileSystem where
  stat : List UInt8 → Option UInt32
  tooLong : ∀ name, pathMax ≤ name.length → stat name = none

/- `leftover k` is the mode in `buf` before the `k`-th call of `stat`. -/
structure Env where
  fs : FileSystem
  path : Option CString
  csPath : CString
  leftover : ℕ → UInt32

/-! ### The search loop (`find_path.c:87-158`) -/

structure Result where
  ret : ℤ
  resolvedName : Option (List UInt8)
  deriving Repr, DecidableEq

/- `p` is the rest of PATH, `probed` the names given to `stat` so far. -/
structure Search where
  p : List UInt8
  gotEacces : Bool
  probed : List (List UInt8)
  deriving Repr, DecidableEq

/- After the loop (`find_path.c:160-166`). -/
def Search.exhausted (s : Search) : Result :=
  if s.gotEacces then ⟨eacces, none⟩ else ⟨enoent, none⟩

def candidate (file dir : List UInt8) : List UInt8 :=
  if dir = [] then file else dir ++ slash :: file

/-- The return value of `stat`, as the test of the file's type leaves it
(`find_path.c:110-119`). The test is made when `stat` has failed. -/
def probe (env : Env) (k : ℕ) (buffer : List UInt8) : ℤ :=
  match env.fs.stat buffer with
  | some _ => 0
  | none =>
    if !sIsreg (env.leftover k) then eacces
    else if env.leftover k &&& sIxany = 0 then eacces
    else -1

inductive Switch where
  | denied
  | missing
  | other
  deriving Repr, DecidableEq

/- The `switch` (`find_path.c:128-154`). -/
def switch (ret : ℤ) : Switch :=
  if ret = enoexec ∨ ret = eacces then .denied
  else if ret = enoent ∨ ret = estale ∨ ret = enotdir ∨ ret = enodev ∨ ret = etimedout then .missing
  else .other

/- The component at `p`: `strchrnul` finds the colon behind it or the end. -/
def Search.dir (s : Search) : List UInt8 := ((strchr colon s.p).map Found.text).getD s.p

def Search.next (s : Search) (gotEacces : Bool) (buffer : List UInt8) : Pass Search Result :=
  match strchr colon s.p with
  | none => .leave (Search.exhausted { s with gotEacces := gotEacces })
  | some subp => .again ⟨subp.rest, gotEacces, s.probed ++ [buffer]⟩

def Search.afterProbe (s : Search) (buffer : List UInt8) (ret : ℤ) : Pass Search Result :=
  if ret = 0 then .leave ⟨0, some buffer⟩
  else match switch ret with
    | .denied => s.next true buffer
    | .missing => s.next s.gotEacces buffer
    | .other => .leave ⟨-1, none⟩

/-- One pass, with `ret k name` for what `stat` and the tests behind it make of `name`,
the `k`-th name looked up: `find_path` has `probe` there. A component that is too long is
skipped with `p` left at its colon, which the next pass takes for an empty component. -/
def searchBody (ret : ℕ → List UInt8 → ℤ) (file : List UInt8) (pathLen : ℕ) (s : Search) :
    Pass Search Result :=
  if pathLen ≤ s.dir.length then
    match strchr colon s.p with
    | none => .leave s.exhausted
    | some subp => .again { s with p := colon :: subp.rest }
  else s.afterProbe (candidate file s.dir) (ret s.probed.length (candidate file s.dir))

theorem probe_cases (env : Env) (k : ℕ) (buffer : List UInt8) :
    ((env.fs.stat buffer).isSome ∧ probe env k buffer = 0) ∨
    (env.fs.stat buffer = none ∧ executable (env.leftover k) = false ∧
      probe env k buffer = eacces) ∨
    (env.fs.stat buffer = none ∧ executable (env.leftover k) = true ∧ probe env k buffer = -1) := by
  unfold probe executable
  cases hs : env.fs.stat buffer with
  | some mode => exact .inl ⟨rfl, rfl⟩
  | none =>
    by_cases hr : sIsreg (env.leftover k) = true
    · by_cases hx : env.leftover k &&& sIxany = 0
      · exact .inr (.inl ⟨rfl, by simp [hr, hx], by simp [hr, hx]⟩)
      · exact .inr (.inr ⟨rfl, by simp [hr, hx], by simp [hr, hx]⟩)
    · exact .inr (.inl ⟨rfl, by simp [hr], by simp [hr]⟩)

section
variable {env : Env} {file : List UInt8} {pathLen : ℕ} {s : Search}

theorem searchBody_found (hd : s.dir.length < pathLen)
    (hs : (env.fs.stat (candidate file s.dir)).isSome) :
    searchBody (probe env) file pathLen s = .leave ⟨0, some (candidate file s.dir)⟩ := by
  rcases probe_cases env s.probed.length (candidate file s.dir) with ⟨_, hp⟩ | ⟨h, _⟩ | ⟨h, _⟩
  · rw [searchBody, if_neg (Nat.not_le.mpr hd), hp]
    rfl
  · simp [h] at hs
  · simp [h] at hs

theorem searchBody_stop (hd : s.dir.length < pathLen)
    (hs : env.fs.stat (candidate file s.dir) = none)
    (hx : executable (env.leftover s.probed.length) = true) :
    searchBody (probe env) file pathLen s = .leave ⟨-1, none⟩ := by
  rcases probe_cases env s.probed.length (candidate file s.dir) with
    ⟨h, _⟩ | ⟨_, h, _⟩ | ⟨_, _, hp⟩
  · simp [hs] at h
  · simp [hx] at h
  · rw [searchBody, if_neg (Nat.not_le.mpr hd), hp]
    rfl

theorem searchBody_denied (hd : s.dir.length < pathLen)
    (hs : env.fs.stat (candidate file s.dir) = none)
    (hx : executable (env.leftover s.probed.length) = false) :
    searchBody (probe env) file pathLen s = s.next true (candidate file s.dir) := by
  rcases probe_cases env s.probed.length (candidate file s.dir) with
    ⟨h, _⟩ | ⟨_, _, hp⟩ | ⟨_, h, _⟩
  · simp [hs] at h
  · rw [searchBody, if_neg (Nat.not_le.mpr hd), hp]
    rfl
  · simp [hx] at h

/- Everything a pass can do with a component that is short enough. -/
theorem searchBody_short (env : Env) (file : List UInt8) (hd : s.dir.length < pathLen) :
    ((env.fs.stat (candidate file s.dir)).isSome ∧
      searchBody (probe env) file pathLen s = .leave ⟨0, some (candidate file s.dir)⟩) ∨
    (env.fs.stat (candidate file s.dir) = none ∧
      executable (env.leftover s.probed.length) = true ∧
      searchBody (probe env) file pathLen s = .leave ⟨-1, none⟩) ∨
    (env.fs.stat (candidate file s.dir) = none ∧
      executable (env.leftover s.probed.length) = false ∧
      searchBody (probe env) file pathLen s = s.next true (candidate file s.dir)) := by
  cases hs : env.fs.stat (candidate file s.dir) with
  | some mode => exact .inl ⟨rfl, searchBody_found hd (by rw [hs]; rfl)⟩
  | none =>
    cases hx : executable (env.leftover s.probed.length) with
    | true => exact .inr (.inl ⟨rfl, rfl, searchBody_stop hd hs hx⟩)
    | false => exact .inr (.inr ⟨rfl, rfl, searchBody_denied hd hs hx⟩)

theorem dir_length {subp : Found} (h : strchr colon s.p = some subp) :
    s.dir = subp.text ∧ s.p.length = subp.text.length + subp.rest.length + 1 := by
  have hlen := congrArg List.length (strchr_some h).1
  rw [List.length_append, List.length_cons] at hlen
  exact ⟨by simp [Search.dir, h], by omega⟩

theorem dir_before_colon {dir : List UInt8} (hc : colon ∉ dir) (rest : List UInt8) (got : Bool)
    (probed : List (List UInt8)) : Search.dir ⟨dir ++ colon :: rest, got, probed⟩ = dir := by
  simp [Search.dir, strchr_append rest hc]

theorem dir_last {dir : List UInt8} (hc : colon ∉ dir) (got : Bool) (probed : List (List UInt8)) :
    Search.dir ⟨dir, got, probed⟩ = dir := by
  simp [Search.dir, strchr_eq_none hc]

end

/-! ### Any answer to the lookups -/

theorem afterProbe_again {s t : Search} {buffer : List UInt8} {ret : ℤ}
    (h : s.afterProbe buffer ret = .again t) :
    ∃ subp, strchr colon s.p = some subp ∧ t.p = subp.rest := by
  unfold Search.afterProbe Search.next at h
  cases hp : strchr colon s.p with
  | none =>
    simp only [hp] at h
    split at h
    · cases h
    · split at h <;> cases h
  | some subp =>
    simp only [hp] at h
    refine ⟨subp, rfl, ?_⟩
    split at h
    · cases h
    · split at h <;> cases h <;> rfl

/- What a further pass starts with: the rest of PATH behind the component, or
with the colon where the component is too long. -/
theorem searchBody_again {ret : ℕ → List UInt8 → ℤ} {file : List UInt8} {pathLen : ℕ}
    {s t : Search} (h : searchBody ret file pathLen s = .again t) :
    ∃ subp, strchr colon s.p = some subp ∧
      (t.p = subp.rest ∨ pathLen ≤ subp.text.length ∧ t.p = colon :: subp.rest) := by
  by_cases hd : pathLen ≤ s.dir.length
  · rw [searchBody, if_pos hd] at h
    cases hp : strchr colon s.p with
    | none =>
      rw [hp] at h
      cases h
    | some subp =>
      rw [hp] at h
      cases h
      rw [(dir_length hp).1] at hd
      exact ⟨subp, rfl, .inr ⟨hd, rfl⟩⟩
  · rw [searchBody, if_neg hd] at h
    obtain ⟨subp, hp, ht⟩ := afterProbe_again h
    exact ⟨subp, hp, .inl ht⟩

section
variable (ret : ℕ → List UInt8 → ℤ) (file : List UInt8) {pathLen : ℕ} {dir : List UInt8}

theorem searchBody_long (hc : colon ∉ dir) (hd : pathLen ≤ dir.length) (rest : List UInt8)
    (got : Bool) (probed : List (List UInt8)) :
    searchBody ret file pathLen ⟨dir ++ colon :: rest, got, probed⟩ =
      .again ⟨colon :: rest, got, probed⟩ := by
  rw [searchBody, dir_before_colon hc, if_pos hd]
  simp only [strchr_append rest hc]

theorem searchBody_long_last (hc : colon ∉ dir) (hd : pathLen ≤ dir.length) (got : Bool)
    (probed : List (List UInt8)) :
    searchBody ret file pathLen ⟨dir, got, probed⟩ =
      .leave (Search.exhausted ⟨dir, got, probed⟩) := by
  rw [searchBody, dir_last hc, if_pos hd]
  simp only [strchr_eq_none hc]

end

theorem searchBody_decreases (ret : ℕ → List UInt8 → ℤ) (file : List UInt8) {pathLen : ℕ}
    (hpos : 0 < pathLen) : Decreases (searchBody ret file pathLen) (fun s => s.p.length) := by
  intro s t h
  show t.p.length < s.p.length
  obtain ⟨subp, hp, ht⟩ := searchBody_again h
  have hlen := (dir_length hp).2
  rcases ht with ht | ⟨hlong, ht⟩
  · rw [ht]
    omega
  · rw [ht, List.length_cons]
    omega

/-! ### The function (`find_path.c:41-167`) -/

def Env.pathValue (env : Env) : List UInt8 := (env.path.getD env.csPath).bytes

-- strnlen (path, PATH_MAX - 1) + 1
def Env.pathLen (env : Env) : ℕ := min env.pathValue.length (pathMax - 1) + 1

def searchLoop (env : Env) (file : List UInt8) (s : Search) : Result :=
  run (searchBody (probe env) file env.pathLen) (fun s => s.p.length)
    (searchBody_decreases (probe env) file (Nat.succ_pos _)) s

def findPath (env : Env) (file : CString) : Result :=
  if file.bytes = [] then ⟨enoent, none⟩
  else if pathMax ≤ file.bytes.length then ⟨enametoolong, none⟩
  else if (strchr slash file.bytes).isSome then ⟨0, some file.bytes⟩
  else if nameMax < min file.bytes.length (nameMax + 1) then ⟨enametoolong, none⟩
  else searchLoop env file.bytes ⟨env.pathValue, false, []⟩

theorem length_checks {n : ℕ} (h : n ≤ nameMax) :
    ¬ pathMax ≤ n ∧ ¬ nameMax < min n (nameMax + 1) := by
  unfold nameMax at h ⊢
  unfold pathMax
  omega

end KeepalivedDevel.FindPath
