import KeepalivedDevel.CLib.Buffer

/-!
# `rename_process` of `code_test/set_cmdline.c`

The name of a process is written to four places: the `comm` of the kernel, the two
strings `program_invocation_name` and `argv[0]`, each within the length it has, and a
mapping of its own that the kernel is told to take for the arguments. The mapping is
kept between calls and replaced by a larger one when a name does not fit.
-/

namespace KeepalivedDevel.SetCmdline
open CLib

/-! ### Strings in memory -/

/- The bytes written by `strncpy(dst, src, n)`. -/
def strncpy (src : List UInt8) (n : ℕ) : List UInt8 := src.take n ++ List.replicate (n - src.length) 0

theorem length_strncpy (src : List UInt8) (n : ℕ) : (strncpy src n).length = n := by
  rw [strncpy, List.length_append, List.length_take, List.length_replicate]
  omega

/-- The memory of a string, with the NUL that ends it. -/
structure Text where
  bytes : List UInt8
  terminated : 0 ∈ bytes

def Text.str (t : Text) : List UInt8 := cstr t.bytes

theorem Text.drop_length_str (t : Text) : ∃ rest, t.bytes.drop t.str.length = 0 :: rest := by
  obtain ⟨s, rest, hbytes, hs⟩ := List.eq_append_cons_of_mem t.terminated
  have hstr : t.str = s := by rw [Text.str, hbytes, cstr_append_nul hs]
  exact ⟨rest, by rw [hstr, hbytes, List.drop_left]⟩

/-- `strncpy(t, name, strlen(t))`. -/
def Text.overwrite (t : Text) (name : List UInt8) : Text where
  bytes := strncpy name t.str.length ++ t.bytes.drop t.str.length
  terminated := by
    obtain ⟨rest, hrest⟩ := t.drop_length_str
    simp [hrest]

/- `memzero(t, strlen(t))` writes what a copy of the empty string would. -/
def Text.memzero (t : Text) : Text := t.overwrite []

theorem Text.str_overwrite (t : Text) {name : List UInt8} (hname : 0 ∉ name) :
    (t.overwrite name).str = name.take t.str.length := by
  obtain ⟨rest, hrest⟩ := t.drop_length_str
  have htake : 0 ∉ name.take t.str.length := fun h => hname (List.mem_of_mem_take h)
  show cstr (strncpy name t.str.length ++ t.bytes.drop t.str.length) = _
  rw [hrest, strncpy, List.append_assoc, cstr_append htake]
  cases t.str.length - name.length with
  | zero => simp [cstr]
  | succ n => simp [List.replicate_succ, cstr]

/-! ### The process -/

def taskCommLen : ℕ := 16
def einval : ℤ := 22
def eperm : ℤ := 1

/-- `PAGE_ALIGN`, which the file takes from elsewhere: a size is rounded up. -/
structure PageAlign where
  align : ℕ → ℕ
  le_align : ∀ n, n ≤ align n

structure Mapping where
  addr : ℕ
  bytes : List UInt8
  deriving DecidableEq

/-- The strings of the process, the mapping `mm`, what the kernel takes for the memory of the
arguments, and the mappings the function has made and not removed. -/
structure Process where
  comm : List UInt8
  programInvocationName : Option Text
  savedArgv : List (Option Text)
  mm : Option Mapping
  argStart : ℕ
  argEnd : ℕ
  mapped : List (ℕ × ℕ)

/- `saved_argv[0]`, if there is one. -/
def Process.argv0 (s : Process) : Option Text := s.savedArgv.head?.join

def Process.mmSize (s : Process) : ℕ := s.mm.elim 0 fun m => m.bytes.length

/-- Who calls, whether the kernel lets it change the memory of its arguments, and the address
`mmap` has for it. -/
structure Caller where
  mainThread : Bool
  root : Bool
  allowed : Bool
  mmap : Option ℕ

/- `prctl(PR_SET_MM, ...)`: the start of the arguments may not be behind their end. -/
def Process.setArgStart (s : Process) (c : Caller) (addr : ℕ) : Option Process :=
  if c.allowed ∧ addr ≤ s.argEnd then some { s with argStart := addr } else none

def Process.setArgEnd (s : Process) (c : Caller) (addr : ℕ) : Option Process :=
  if c.allowed ∧ s.argStart ≤ addr then some { s with argEnd := addr } else none

/- `munmap(mm, mm_size)`, `mm = nn` and `mm_size = nn_size`. -/
def Process.adopt (s : Process) (nn : Mapping) : Process :=
  { s with
    mapped := s.mm.elim s.mapped fun m => s.mapped.erase (m.addr, m.bytes.length)
    mm := some nn }

/- The third step (`set_cmdline.c:57-113`). -/
def Process.replaceArguments (page : PageAlign) (s : Process) (c : Caller) (name : List UInt8) :
    Process :=
  if !c.root then s
  else if s.mmSize < name.length + 1 then
    match c.mmap with
    | none => s
    | some addr =>
      let nn : Mapping := ⟨addr, strncpy name (page.align (name.length + 1))⟩
      let s := { s with mapped := (addr, nn.bytes.length) :: s.mapped }
      match s.setArgStart c addr with
      | some s => ((s.setArgEnd c (addr + name.length + 1)).getD s).adopt nn
      | none =>
        match s.setArgEnd c (addr + name.length + 1) with
        | none => { s with mapped := s.mapped.erase (addr, nn.bytes.length) }
        | some s =>
          match s.setArgStart c addr with
          | none => s
          | some s => s.adopt nn
  else
    match s.mm with
    | none => s
    | some m =>
      let s := { s with mm := some ⟨m.addr, strncpy name m.bytes.length⟩ }
      (s.setArgEnd c (m.addr + name.length + 1)).getD s

def truncates (name : List UInt8) (t : Text) : Bool := t.str.length < name.length

/- The fourth step (`set_cmdline.c:119-137`); the loop ends at a null pointer. -/
def replaceArgv (name : List UInt8) : List (Option Text) → List (Option Text)
  | [] => []
  | first :: others =>
    first.map (·.overwrite name) ::
      ((others.takeWhile Option.isSome).map (·.map Text.memzero) ++
        others.dropWhile Option.isSome)

def renameProcess (page : PageAlign) (c : Caller) (name : CString) (s : Process) : Process × ℤ :=
  if name.bytes = [] then (s, -einval)
  else if !c.mainThread then (s, -eperm)
  else
    let truncated := taskCommLen ≤ name.bytes.length ∨
      s.programInvocationName.any (truncates name.bytes) ∨
      s.argv0.any (truncates name.bytes)
    let t := s.replaceArguments page c name.bytes
    ({ t with
        comm := name.bytes.take (taskCommLen - 1)
        programInvocationName := s.programInvocationName.map (·.overwrite name.bytes)
        savedArgv := replaceArgv name.bytes s.savedArgv },
      if truncated then 0 else 1)

end KeepalivedDevel.SetCmdline
