import KeepalivedDevel.SetCmdline.Code

/-!
# Renaming a process again and again

The mapping for the kernel is exchanged in an order in which the start of the
arguments is never behind their end, so a privileged caller always gets the name it
asks for, and one mapping at most is left. The strings of the process itself keep
the length of the shortest name they have been given.
-/

namespace KeepalivedDevel.SetCmdline
open CLib

variable (page : PageAlign)

def Process.calls (s : Process) (calls : List (Caller × CString)) : Process :=
  calls.foldl (fun s call => (renameProcess page call.1 call.2 s).1) s

/-! ### The memory of the arguments -/

/-- What the kernel shows as the arguments, if that lies in the mapping. -/
def Process.cmdline (s : Process) : Option (List UInt8) :=
  s.mm.bind fun m =>
    if m.addr ≤ s.argStart ∧ s.argEnd ≤ m.addr + m.bytes.length then
      some ((m.bytes.drop (s.argStart - m.addr)).take (s.argEnd - s.argStart))
    else none

structure Consistent (s : Process) : Prop where
  order : s.argStart ≤ s.argEnd
  mapped : s.mapped = (s.mm.map fun m => (m.addr, m.bytes.length)).toList
  start : ∀ m, s.mm = some m → s.argStart = m.addr

theorem adopt_mapped {s : Process} (h : s.mapped = (s.mm.map fun m => (m.addr, m.bytes.length)).toList)
    (entry : ℕ × ℕ) :
    (s.mm.elim (entry :: s.mapped) fun m => (entry :: s.mapped).erase (m.addr, m.bytes.length)) =
      [entry] := by
  rw [h]
  cases s.mm with
  | none => rfl
  | some m =>
    show [entry, (m.addr, m.bytes.length)].erase (m.addr, m.bytes.length) = [entry]
    by_cases heq : entry = (m.addr, m.bytes.length)
    · rw [heq, List.erase_cons_head]
    · rw [List.erase_cons_tail (by simpa using heq), List.erase_cons_head]

section
variable {s : Process} {c : Caller} (name : List UInt8)

/-- In whichever direction the arguments move, the new mapping takes the place of the old one. -/
theorem replaceArguments_new (h : Consistent s) (hroot : c.root = true) (hallowed : c.allowed = true)
    (hsize : s.mmSize < name.length + 1) {addr : ℕ} (haddr : c.mmap = some addr) :
    s.replaceArguments page c name =
      { s with
        mm := some ⟨addr, strncpy name (page.align (name.length + 1))⟩
        argStart := addr
        argEnd := addr + name.length + 1
        mapped := [(addr, page.align (name.length + 1))] } := by
  have hadopt := adopt_mapped h.mapped (addr, page.align (name.length + 1))
  have horder := h.order
  rw [Process.replaceArguments]
  by_cases hbehind : addr ≤ s.argEnd
  · have hend : addr ≤ addr + name.length + 1 := by omega
    simp [hroot, hsize, haddr, Process.setArgStart, Process.setArgEnd, hallowed, hbehind, hend,
      Process.adopt, hadopt, length_strncpy]
  · have hend : s.argStart ≤ addr + name.length + 1 := by omega
    have hstart : addr ≤ addr + name.length + 1 := by omega
    simp [hroot, hsize, haddr, Process.setArgStart, Process.setArgEnd, hallowed, hbehind, hend,
      hstart, Process.adopt, hadopt, length_strncpy]

/- A kernel that does not allow it leaves the old mapping, and the new one is removed. -/
theorem replaceArguments_refused (hallowed : c.allowed = false) (hsize : s.mmSize < name.length + 1) :
    s.replaceArguments page c name = s := by
  rw [Process.replaceArguments]
  cases hroot : c.root with
  | false => rfl
  | true =>
    cases hmmap : c.mmap with
    | none => simp [hsize]
    | some addr => simp [hsize, Process.setArgStart, Process.setArgEnd, hallowed]

theorem replaceArguments_again (hroot : c.root = true) (hsize : ¬ s.mmSize < name.length + 1)
    {m : Mapping} (hm : s.mm = some m) (hstart : s.argStart = m.addr) :
    s.replaceArguments page c name =
      { s with
        mm := some ⟨m.addr, strncpy name m.bytes.length⟩
        argEnd := if c.allowed then m.addr + name.length + 1 else s.argEnd } := by
  have hend : m.addr ≤ m.addr + name.length + 1 := by omega
  rw [Process.replaceArguments]
  cases hallowed : c.allowed with
  | false => simp [hroot, hsize, hm, Process.setArgEnd, hallowed]
  | true => simp [hroot, hsize, hm, Process.setArgEnd, hallowed, hstart, hend]

theorem Consistent.replaceArguments (h : Consistent s) : Consistent (s.replaceArguments page c name) := by
  cases hroot : c.root with
  | false =>
    rw [Process.replaceArguments, hroot]
    exact h
  | true =>
    by_cases hsize : s.mmSize < name.length + 1
    · cases hallowed : c.allowed with
      | false =>
        rw [replaceArguments_refused page name hallowed hsize]
        exact h
      | true =>
        cases haddr : c.mmap with
        | none =>
          have hsame : s.replaceArguments page c name = s := by
            simp [Process.replaceArguments, hroot, hsize, haddr]
          rw [hsame]
          exact h
        | some addr =>
          rw [replaceArguments_new page name h hroot hallowed hsize haddr]
          exact ⟨by simp only; omega, by simp [length_strncpy], by simp⟩
    · cases hm : s.mm with
      | none => simp [Process.mmSize, hm] at hsize
      | some m =>
        have hstart := h.start m hm
        have horder := h.order
        rw [replaceArguments_again page name hroot hsize hm hstart]
        refine ⟨?_, ?_, by simp [hstart]⟩
        · show s.argStart ≤ if c.allowed then m.addr + name.length + 1 else s.argEnd
          split <;> omega
        · simpa [hm, length_strncpy] using h.mapped

end

theorem Consistent.renameProcess {s : Process} (h : Consistent s) (c : Caller) (name : CString) :
    Consistent (renameProcess page c name s).1 := by
  rw [SetCmdline.renameProcess]
  split
  · exact h
  · split
    · exact h
    · obtain ⟨horder, hmapped, hstart⟩ := h.replaceArguments page (c := c) name.bytes
      exact ⟨horder, hmapped, hstart⟩

theorem Consistent.calls {s : Process} (h : Consistent s) (calls : List (Caller × CString)) :
    Consistent (s.calls page calls) := by
  induction calls generalizing s with
  | nil => exact h
  | cons call calls ih => exact ih (h.renameProcess page call.1 call.2)

theorem take_strncpy {name : List UInt8} {n : ℕ} (h : name.length + 1 ≤ n) :
    (strncpy name n).take (name.length + 1) = name ++ [0] := by
  obtain ⟨k, hk⟩ : ∃ k, n - name.length = k + 1 := ⟨n - name.length - 1, by omega⟩
  rw [strncpy, List.take_of_length_le (by omega : name.length ≤ n), hk, List.replicate_succ,
    List.take_length_add_append]
  rfl

/- The kernel's arguments are the first bytes of a mapping that holds the name. -/
theorem cmdline_of_name {s : Process} {name : List UInt8} {addr n : ℕ} (h : name.length + 1 ≤ n)
    (hmm : s.mm = some ⟨addr, strncpy name n⟩) (hstart : s.argStart = addr)
    (hend : s.argEnd = addr + name.length + 1) : s.cmdline = some (name ++ [0]) := by
  have hfits : s.argEnd ≤ addr + (strncpy name n).length := by
    rw [hend, length_strncpy]
    omega
  have hlength : s.argEnd - s.argStart = name.length + 1 := by omega
  rw [Process.cmdline, hmm, Option.bind_some, if_pos ⟨hstart.ge, hfits⟩, hlength, hstart,
    Nat.sub_self, List.drop_zero, take_strncpy h]

theorem Consistent.cmdline {s : Process} (h : Consistent s) {c : Caller} (hroot : c.root = true)
    (hallowed : c.allowed = true) {addr : ℕ} (haddr : c.mmap = some addr) (name : List UInt8) :
    (s.replaceArguments page c name).cmdline = some (name ++ [0]) ∧
      (s.replaceArguments page c name).mapped.length = 1 := by
  have hafter : Consistent (s.replaceArguments page c name) := h.replaceArguments page name
  by_cases hsize : s.mmSize < name.length + 1
  · rw [replaceArguments_new page name h hroot hallowed hsize haddr]
    exact ⟨cmdline_of_name (page.le_align _) rfl rfl rfl, rfl⟩
  · cases hm : s.mm with
    | none => simp [Process.mmSize, hm] at hsize
    | some m =>
      have hmSize : s.mmSize = m.bytes.length := by simp [Process.mmSize, hm]
      rw [hafter.mapped, replaceArguments_again page name hroot hsize hm (h.start m hm)]
      refine ⟨cmdline_of_name (by omega) rfl (h.start m hm) ?_, rfl⟩
      simp [hallowed]

/-- Whatever calls have been made before, by whom and with whichever result, a caller that
the kernel allows to change the memory of its arguments gets it to show exactly its name, and
there is one mapping then. -/
theorem cmdline_is_name (s : Process) (horder : s.argStart ≤ s.argEnd) (hmm : s.mm = none)
    (hmapped : s.mapped = []) (calls : List (Caller × CString)) (c : Caller)
    (hmain : c.mainThread = true) (hroot : c.root = true) (hallowed : c.allowed = true) (addr : ℕ)
    (haddr : c.mmap = some addr) (name : CString) (hname : name.bytes ≠ []) :
    let after := (renameProcess page c name (s.calls page calls)).1
    after.cmdline = some (name.bytes ++ [0]) ∧ after.mapped.length = 1 := by
  have hstart : Consistent s := ⟨horder, by simp [hmm, hmapped], by simp [hmm]⟩
  obtain ⟨hcmdline, hlength⟩ := (hstart.calls page calls).cmdline page hroot hallowed haddr name.bytes
  simp only [renameProcess, if_neg hname, hmain, Bool.not_true, Bool.false_eq_true, if_false]
  exact ⟨hcmdline, hlength⟩

/- A process that was started as "abc" with an argument "d". -/
def started : Process where
  comm := [97, 98, 99]
  programInvocationName := some ⟨[97, 98, 99, 0], by decide⟩
  savedArgv := [some ⟨[97, 98, 99, 0], by decide⟩, some ⟨[100, 0], by decide⟩]
  mm := none
  argStart := 100
  argEnd := 106
  mapped := []

def superuser (addr : ℕ) : Caller := ⟨true, true, true, some addr⟩

def pages : PageAlign where
  align := fun n => (n + 4095) / 4096 * 4096
  le_align := by
    intro n
    omega

theorem cmdline_is_name_started :
    let after := (renameProcess pages (superuser 4096) ⟨[120, 121, 122, 119], by decide⟩
      (started.calls pages [(superuser 8192, ⟨[117], by decide⟩)])).1
    after.cmdline = some [120, 121, 122, 119, 0] ∧ after.mapped.length = 1 :=
  cmdline_is_name pages started (by decide) rfl rfl [(superuser 8192, ⟨[117], by decide⟩)]
    (superuser 4096) rfl rfl rfl 4096 rfl ⟨[120, 121, 122, 119], by decide⟩ (by decide)

/-! ### The strings of the process -/

/-- A call with a name, from the main thread. The others return an error at once. -/
def sets (call : Caller × CString) : Bool := call.1.mainThread && !call.2.bytes.isEmpty

theorem renameProcess_refused {call : Caller × CString} (h : sets call = false) (s : Process) :
    renameProcess page call.1 call.2 s = (s, if call.2.bytes = [] then -einval else -eperm) := by
  rw [renameProcess]
  split
  · rfl
  · next hname =>
    have hmain : call.1.mainThread = false := by simpa [sets, hname] using h
    simp [hmain]

theorem renameProcess_sets {call : Caller × CString} (h : sets call = true) (s : Process) :
    renameProcess page call.1 call.2 s =
      ({ s.replaceArguments page call.1 call.2.bytes with
          comm := call.2.bytes.take (taskCommLen - 1)
          programInvocationName := s.programInvocationName.map (·.overwrite call.2.bytes)
          savedArgv := replaceArgv call.2.bytes s.savedArgv },
        if taskCommLen ≤ call.2.bytes.length ∨
          s.programInvocationName.any (truncates call.2.bytes) ∨
          s.argv0.any (truncates call.2.bytes) then 0 else 1) := by
  obtain ⟨hmain, hname⟩ : call.1.mainThread = true ∧ call.2.bytes ≠ [] := by simpa [sets] using h
  simp [renameProcess, hname, hmain]

/-- The length that a string of length `k` has after some calls. -/
def shortest (k : ℕ) (calls : List (Caller × CString)) : ℕ :=
  calls.foldl (fun k call => if sets call then min k call.2.bytes.length else k) k

theorem le_shortest_iff (n k : ℕ) (calls : List (Caller × CString)) :
    n ≤ shortest k calls ↔
      n ≤ k ∧ ∀ call ∈ calls, sets call = true → n ≤ call.2.bytes.length := by
  induction calls generalizing k with
  | nil => simp [shortest]
  | cons call calls ih =>
    have hcons : shortest k (call :: calls) =
      shortest (if sets call then min k call.2.bytes.length else k) calls := rfl
    rw [hcons, ih, List.forall_mem_cons]
    cases hsets : sets call with
    | true => rw [if_pos rfl, Nat.le_min, and_assoc, forall_prop_of_true rfl]
    | false => simp

theorem length_overwrite (t : Text) (name : CString) :
    (t.overwrite name.bytes).str.length = min t.str.length name.bytes.length := by
  rw [t.str_overwrite name.nulFree, List.length_take]

/-- A string of the process that is overwritten by every call that sets a name. -/
def Slot (get : Process → Option Text) : Prop :=
  ∀ s call, sets call = true →
    get (renameProcess page call.1 call.2 s).1 = (get s).map (·.overwrite call.2.bytes)

theorem slot_programInvocationName : Slot page Process.programInvocationName := by
  intro s call hsets
  rw [renameProcess_sets page hsets]

theorem slot_argv0 : Slot page Process.argv0 := by
  intro s call hsets
  rw [renameProcess_sets page hsets, Process.argv0, Process.argv0]
  show (replaceArgv call.2.bytes s.savedArgv).head?.join = _
  cases s.savedArgv with
  | nil => rfl
  | cons first others => rfl

section
variable {page} {get : Process → Option Text} (hget : Slot page get)
include hget

/- A step makes the string as short as the name, and a run as the shortest of the names. -/
theorem Slot.length_calls (s : Process) (calls : List (Caller × CString)) :
    (get (s.calls page calls)).map (·.str.length) =
      (get s).map fun t => shortest t.str.length calls := by
  induction calls generalizing s with
  | nil => rfl
  | cons call calls ih =>
    have hcons : s.calls page (call :: calls) = (renameProcess page call.1 call.2 s).1.calls page calls :=
      rfl
    rw [hcons, ih]
    cases hsets : sets call with
    | true =>
      rw [hget s call hsets, Option.map_map]
      congr 1
      funext t
      simp [shortest, hsets, length_overwrite]
    | false =>
      rw [renameProcess_refused page hsets]
      congr 1
      funext t
      simp [shortest, hsets]

theorem Slot.fits_iff (s : Process) (calls : List (Caller × CString)) (n : ℕ) :
    (∀ t ∈ get (s.calls page calls), n ≤ t.str.length) ↔
      ∀ t ∈ get s, n ≤ t.str.length ∧ ∀ call ∈ calls, sets call = true → n ≤ call.2.bytes.length := by
  have hlength := hget.length_calls s calls
  simp only [← le_shortest_iff]
  cases hs : get s with
  | none =>
    rw [hs, Option.map_none, Option.map_eq_none_iff] at hlength
    simp [hlength]
  | some t =>
    rw [hs, Option.map_some] at hlength
    obtain ⟨u, hu, hshort⟩ := Option.map_eq_some_iff.mp hlength
    simp [hu, hshort]

/- The next call leaves as much of its name as the shortest of the names before it. -/
theorem Slot.str_calls (s : Process) (calls : List (Caller × CString)) {call : Caller × CString}
    (hsets : sets call = true) :
    (get (renameProcess page call.1 call.2 (s.calls page calls)).1).map Text.str =
      (get s).map fun t => call.2.bytes.take (shortest t.str.length calls) := by
  have hstr : (fun t : Text => (t.overwrite call.2.bytes).str) =
      (fun n => call.2.bytes.take n) ∘ fun t => t.str.length :=
    funext fun t => t.str_overwrite call.2.nulFree
  rw [hget _ call hsets, Option.map_map, Function.comp_def, hstr, ← Option.map_map,
    hget.length_calls, Option.map_map]
  rfl

end

theorem not_any_truncates_iff (name : List UInt8) (o : Option Text) :
    ¬ o.any (truncates name) = true ↔ ∀ t ∈ o, name.length ≤ t.str.length := by
  cases o <;> simp [truncates]

/-- After any calls, a call from another thread or without a name changes nothing and returns
an error. Another says that it has set the whole name exactly if the name fits `comm` and is
not longer than the two strings, those that there are, have been at the start or than any name
that was set before it: the length lost to a short name does not come back. -/
theorem renamed_within_shortest (s : Process) (calls : List (Caller × CString))
    (call : Caller × CString) :
    let before := s.calls page calls
    let result := renameProcess page call.1 call.2 before
    (sets call = false → result = (before, if call.2.bytes = [] then -22 else -1)) ∧
      (sets call = true →
        (result.2 = 0 ∨ result.2 = 1) ∧
        (result.2 = 1 ↔ call.2.bytes.length < 16 ∧
          ∀ t, s.programInvocationName = some t ∨ s.argv0 = some t →
            call.2.bytes.length ≤ t.str.length ∧
            ∀ other ∈ calls, sets other = true → call.2.bytes.length ≤ other.2.bytes.length) ∧
        result.1.argv0.map Text.str =
          s.argv0.map fun t => call.2.bytes.take (shortest t.str.length calls)) := by
  intro before result
  refine ⟨fun hsets => renameProcess_refused page hsets before, fun hsets => ?_⟩
  have hreturns : result.2 = if taskCommLen ≤ call.2.bytes.length ∨
      before.programInvocationName.any (truncates call.2.bytes) ∨
      before.argv0.any (truncates call.2.bytes) then 0 else 1 := by
    simp only [result, renameProcess_sets page hsets]
  refine ⟨?_, ?_, (slot_argv0 page).str_calls s calls hsets⟩
  · rw [hreturns]
    split <;> simp
  · have hone : ∀ P : Prop, [Decidable P] → ((if P then (0 : ℤ) else 1) = 1 ↔ ¬ P) := by simp
    rw [hreturns, hone, not_or, not_or, not_any_truncates_iff, not_any_truncates_iff,
      (slot_programInvocationName page).fits_iff, (slot_argv0 page).fits_iff, Nat.not_le, taskCommLen]
    refine and_congr_right fun _ => ⟨?_, ?_⟩
    · rintro ⟨hname, hargv⟩ t (ht | ht)
      · exact hname t ht
      · exact hargv t ht
    · intro h
      exact ⟨fun t ht => h t (.inl ht), fun t ht => h t (.inr ht)⟩

/- A name of one byte, and then one of two; a call from another thread does not count. -/
theorem renamed_within_shortest_started :
    (renameProcess pages (superuser 4096) ⟨[120, 121], by decide⟩
      (started.calls pages [(superuser 8192, ⟨[118], by decide⟩),
        (⟨false, true, true, none⟩, ⟨[119], by decide⟩)])).2 = 0 := by
  obtain ⟨hcases, hone, -⟩ := (renamed_within_shortest pages started
    [(superuser 8192, ⟨[118], by decide⟩), (⟨false, true, true, none⟩, ⟨[119], by decide⟩)]
    (superuser 4096, ⟨[120, 121], by decide⟩)).2 rfl
  refine hcases.resolve_right fun h => ?_
  have hshort := ((hone.mp h).2 _ (.inl rfl)).2 _ List.mem_cons_self rfl
  exact absurd hshort (by decide)

end KeepalivedDevel.SetCmdline
