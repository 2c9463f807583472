import KeepalivedDevel.FindPath.Resolve

/-!
# `__execvpe` of `code_test/execvpe.c`

The function that `find_path` was made from: the same search, which executes the
names instead of looking them up. A file the kernel does not know how to execute
is given to the shell, with an argument vector that `maybe_script_execute` puts
together in an array on its stack.
-/

namespace KeepalivedDevel.Execvpe
open CLib CLib.While FindPath

def e2big : ℤ := 7

def intMax : ℕ := 2147483647

-- _PATH_BSHELL
def shell : List UInt8 := [47, 98, 105, 110, 47, 115, 104]

/-- What `execve` does with a name and an argument vector: none if the program is
executed, or an error number. -/
abbrev Kernel := List UInt8 → List (List UInt8) → Option ℤ

/-- How a call ends: a program is executed, it returns with an error number, or it
has read or written outside of an array. -/
inductive Outcome where
  | executed (name : List UInt8) (argv : List (List UInt8))
  | failed (errno : ℤ)
  | overrun
  deriving Repr, DecidableEq

/-! ### `maybe_script_execute` (`execvpe.c:38-62`) -/

/-- An array of pointers to strings. -/
abbrev Pointers := List (Option (List UInt8))

def Pointers.read (array : Pointers) (ofs n : ℕ) : Option Pointers :=
  if ofs + n ≤ array.length then some ((array.drop ofs).take n) else none

def Pointers.write (array : Pointers) (ofs : ℕ) (src : Pointers) : Option Pointers :=
  if ofs + src.length ≤ array.length then
    some (array.take ofs ++ src ++ array.drop (ofs + src.length))
  else none

/- The arguments up to the null pointer. -/
def Pointers.strings (array : Pointers) : List (List UInt8) :=
  (array.takeWhile Option.isSome).reduceOption

/-- The array `new_argv`. `argc` counts the null pointer, and `behind` are the pointers in
memory behind that. -/
def newArgv (file : List UInt8) (argv : List (List UInt8)) (behind : Pointers) :
    Option Pointers := do
  let argc := argv.length + 1
  let array ← Pointers.write (List.replicate (argc + 1) none) 0 [some shell]
  let array ← array.write 1 [some file]
  if argc > 1 then
    let copied ← Pointers.read (argv.map some ++ none :: behind) 1 argc
    array.write 2 copied
  else array.write 2 [none]

def maybeScriptExecute (kernel : Kernel) (file : List UInt8) (argv : List (List UInt8))
    (behind : Pointers) : Outcome :=
  if intMax - 1 ≤ argv.length then .failed e2big
  else
    match newArgv file argv behind with
    | none => .overrun
    | some array =>
      match kernel shell array.strings with
      | none => .executed shell array.strings
      | some errno => .failed errno

/- `__execve`, and the shell if that does not know the format of the file. -/
def attempt (kernel : Kernel) (name : List UInt8) (argv : List (List UInt8)) (behind : Pointers) :
    Outcome :=
  match kernel name argv with
  | none => .executed name argv
  | some errno =>
    if errno = enoexec then maybeScriptExecute kernel name argv behind else .failed errno

theorem Pointers.write_some {array new src : Pointers} {ofs : ℕ} (h : array.write ofs src = some new) :
    ofs + src.length ≤ array.length ∧ new.length = array.length := by
  obtain ⟨hfit, heq⟩ := Option.ite_none_right_eq_some.mp h
  obtain rfl := Option.some.inj heq
  refine ⟨hfit, ?_⟩
  simp only [List.length_append, List.length_take, List.length_drop]
  omega

theorem Pointers.length_read {array copied : Pointers} {ofs n : ℕ}
    (h : array.read ofs n = some copied) : copied.length = n := by
  obtain ⟨hfit, heq⟩ := Option.ite_none_right_eq_some.mp h
  obtain rfl := Option.some.inj heq
  rw [List.length_take, List.length_drop]
  omega

/-- Whatever the arguments are, one pointer is written behind the end of the array. -/
theorem newArgv_eq_none (file : List UInt8) (argv : List (List UInt8)) (behind : Pointers) :
    newArgv file argv behind = none := by
  by_contra hne
  obtain ⟨new, h⟩ := Option.ne_none_iff_exists'.mp hne
  simp only [newArgv, Option.bind_eq_bind, Option.bind_eq_some_iff] at h
  obtain ⟨array, hshell, array', hfile, h⟩ := h
  have hlength : array'.length = argv.length + 2 := by
    rw [(Pointers.write_some hfile).2, (Pointers.write_some hshell).2, List.length_replicate]
  split at h
  · obtain ⟨copied, hread, hcopy⟩ := Option.bind_eq_some_iff.mp h
    have hfit := (Pointers.write_some hcopy).1
    rw [Pointers.length_read hread] at hfit
    omega
  · have hfit := (Pointers.write_some h).1
    simp only [List.length_singleton] at hfit
    omega

/-! ### The search (`execvpe.c:104-174`) -/

/- The state of the search of `find_path`, and the error number. -/
structure State extends Search where
  errno : ℤ

/- The `switch` (`execvpe.c:137-162`). A file of an unknown format is no reason to go on. -/
def switch (errno : ℤ) : Switch :=
  if errno = eacces then .denied
  else if errno = enoent ∨ errno = estale ∨ errno = enotdir ∨ errno = enodev ∨ errno = etimedout then
    .missing
  else .other

def State.exhausted (s : State) : Outcome := .failed (if s.gotEacces then eacces else s.errno)

def State.next (s : State) (gotEacces : Bool) (buffer : List UInt8) (errno : ℤ) :
    Pass State Outcome :=
  match strchr colon s.p with
  | none => .leave (State.exhausted ⟨{ s.toSearch with gotEacces := gotEacces }, errno⟩)
  | some subp => .again ⟨⟨subp.rest, gotEacces, s.probed ++ [buffer]⟩, errno⟩

def State.afterAttempt (s : State) (buffer : List UInt8) : Outcome → Pass State Outcome
  | .failed errno =>
    match switch errno with
    | .denied => s.next true buffer errno
    | .missing => s.next s.gotEacces buffer errno
    | .other => .leave (.failed errno)
  | outcome => .leave outcome

def searchBody (kernel : Kernel) (argv : List (List UInt8)) (behind : Pointers)
    (file : List UInt8) (pathLen : ℕ) (s : State) : Pass State Outcome :=
  if pathLen ≤ s.dir.length then
    match strchr colon s.p with
    | none => .leave s.exhausted
    | some subp => .again ⟨{ s.toSearch with p := colon :: subp.rest }, s.errno⟩
  else
    s.afterAttempt (candidate file s.dir) (attempt kernel (candidate file s.dir) argv behind)

theorem State.next_again {s t : State} {gotEacces : Bool} {buffer : List UInt8} {errno : ℤ}
    (h : s.next gotEacces buffer errno = .again t) :
    ∃ subp, strchr colon s.p = some subp ∧ t.p = subp.rest := by
  unfold State.next at h
  split at h
  · cases h
  · rename_i subp hp
    cases h
    exact ⟨subp, hp, rfl⟩

theorem State.afterAttempt_again {s t : State} {buffer : List UInt8} {outcome : Outcome}
    (h : s.afterAttempt buffer outcome = .again t) :
    ∃ subp, strchr colon s.p = some subp ∧ t.p = subp.rest := by
  cases outcome with
  | executed name argv => cases h
  | overrun => cases h
  | failed errno =>
    simp only [State.afterAttempt] at h
    split at h
    · exact State.next_again h
    · exact State.next_again h
    · cases h

theorem searchBody_decreases (kernel : Kernel) (argv : List (List UInt8)) (behind : Pointers)
    (file : List UInt8) {pathLen : ℕ} (hpos : 0 < pathLen) :
    Decreases (searchBody kernel argv behind file pathLen) (fun s => s.p.length) := by
  intro s t h
  show t.p.length < s.p.length
  unfold searchBody at h
  split at h
  · rename_i hlong
    split at h
    · cases h
    · rename_i subp hp
      cases h
      have hdir := dir_length hp
      rw [hdir.1] at hlong
      rw [hdir.2, List.length_cons]
      omega
  · obtain ⟨subp, hp, ht⟩ := State.afterAttempt_again h
    rw [ht, (dir_length hp).2]
    omega

/-! ### The function (`execvpe.c:67-175`) -/

def searchLoop (env : Env) (kernel : Kernel) (argv : List (List UInt8)) (behind : Pointers)
    (file : List UInt8) (s : State) : Outcome :=
  run (searchBody kernel argv behind file env.pathLen) (fun s => s.p.length)
    (searchBody_decreases kernel argv behind file (Nat.succ_pos _)) s

/- The names and PATH are short enough for `alloca` whenever the length of the file name is. -/
def execvpe (env : Env) (kernel : Kernel) (errno : ℤ) (file : CString) (argv : List (List UInt8))
    (behind : Pointers) : Outcome :=
  if file.bytes = [] then .failed enoent
  else if (strchr slash file.bytes).isSome then attempt kernel file.bytes argv behind
  else if nameMax < min file.bytes.length (nameMax + 1) then .failed enametoolong
  else searchLoop env kernel argv behind file.bytes ⟨⟨env.pathValue, false, []⟩, errno⟩

end KeepalivedDevel.Execvpe
