import KeepalivedDevel.TrackProcess.Code

/-!
# What `read_procs` finds in `/proc`

The scan takes the first process directory whose command line starts with the
name, except that its test of the first character leaves out the identifiers
that start with '9'. The filter of the version that is compiled out lets them
through.
-/

namespace KeepalivedDevel.TrackProcess
open CLib

/- The directories of `/proc` named by a number, with the test of `scandir_filter`
(`track_process.c:264-273`). -/
def DirEnt.isProcess (ent : DirEnt) : Bool :=
  ent.isDir && !(ent.dName.at 0 ≤ 48 || 57 < ent.dName.at 0)

/-- A listing of `/proc`. Process directories have their identifier as name. What
else there is are files, links, and directories with other names or without a
`cmdline` below them. -/
structure Listing where
  entries : List DirEnt
  named : ∀ ent ∈ entries, ent.isProcess = true → ent.file ≠ .noOpen →
    ∃ pid, 0 < pid ∧ ent.dName.bytes = decimal pid
  readable : ∀ ent ∈ entries, ent.file ≠ .noRead

def Listing.first (l : Listing) (name : CString) : Option DirEnt :=
  l.entries.find? fun ent => ent.isProcess && ent.matches name

/- The identifier of the first process of the name, or 0. -/
def Listing.firstPid (l : Listing) (name : CString) : ℤ :=
  match l.first name with
  | none => 0
  | some ent => digitsValue ent.dName.bytes

theorem scanned_eq (ent : DirEnt) :
    ent.scanned = (ent.isProcess && ent.dName.at 0 ≠ 57) := by
  unfold DirEnt.scanned DirEnt.isProcess
  cases ent.isDir with
  | false => rfl
  | true =>
    rw [Bool.eq_iff_iff]
    simp only [Bool.true_and, Bool.and_eq_true, Bool.not_eq_true', Bool.or_eq_false_iff,
      decide_eq_false_iff_not, decide_eq_true_eq, ne_eq, ← UInt8.toNat_inj,
      UInt8.le_iff_toNat_le, UInt8.lt_iff_toNat_lt, UInt8.reduceToNat]
    omega

theorem find_and_of_find {α : Type} {p q : α → Bool} {l : List α} {a : α}
    (h : l.find? p = some a) (hq : q a = true) : l.find? (fun x => p x && q x) = some a := by
  obtain ⟨hp, before, behind, rfl, hb⟩ := List.find?_eq_some_iff_append.mp h
  refine List.find?_eq_some_iff_append.mpr ⟨by simp [hp, hq], before, behind, rfl, ?_⟩
  intro x hx
  have hnot := hb x hx
  simp only [Bool.not_eq_true'] at hnot
  simp [hnot]

theorem DirEnt.file_of_matches {name : CString} {ent : DirEnt} (h : ent.matches name = true) :
    ent.file ≠ .noOpen := by
  intro hf
  rw [DirEnt.matches, hf] at h
  cases h

theorem Listing.pid_of_process (l : Listing) {name : CString} {ent : DirEnt}
    (he : ent ∈ l.entries) (hp : ent.isProcess = true) (hm : ent.matches name = true) :
    0 < digitsValue ent.dName.bytes ∧ decimal (digitsValue ent.dName.bytes) = ent.dName.bytes ∧
      atoi ent.dName.bytes = digitsValue ent.dName.bytes := by
  obtain ⟨pid, hpos, hn⟩ := l.named ent he hp (DirEnt.file_of_matches hm)
  rw [hn, digitsValue_decimal]
  exact ⟨hpos, rfl, atoi_decimal hpos⟩

/- The process the scan ends with: the first one not left out. -/
def Listing.found (l : Listing) (name : CString) : Option DirEnt :=
  l.entries.find? fun ent => (ent.isProcess && ent.matches name) && ent.dName.at 0 ≠ 57

theorem Listing.readProcs_eq (l : Listing) (name : CString) :
    (readProcs name l.entries).map Prod.fst =
      .ok (match l.found name with
        | none => 0
        | some ent => (digitsValue ent.dName.bytes : ℤ)) := by
  have htest : (fun ent : DirEnt => ent.scanned && ent.matches name) =
      fun ent => (ent.isProcess && ent.matches name) && ent.dName.at 0 ≠ 57 := by
    funext ent
    rw [scanned_eq, Bool.and_right_comm]
  rw [readProcs_eq_find name fun ent he _ => l.readable ent he, htest]
  unfold Listing.found
  cases hf : l.entries.find? fun ent => (ent.isProcess && ent.matches name) &&
      ent.dName.at 0 ≠ 57 with
  | none => rfl
  | some ent =>
    have hent := List.find?_some hf
    simp only [Bool.and_eq_true] at hent
    have hatoi := (l.pid_of_process (List.mem_of_find?_eq_some hf) hent.1.1 hent.1.2).2.2
    simp only [Except.map, hatoi]

section
variable {l : Listing} {name : CString} {ent : DirEnt}

theorem Listing.found_none (h : l.first name = none) : l.found name = none := by
  rw [Listing.found, List.find?_eq_none]
  intro ent he
  have hnot := List.find?_eq_none.mp h ent he
  simp only [Bool.not_eq_true] at hnot
  simp [hnot]

/- Two names of one number start alike. -/
theorem Listing.found_ne {other : DirEnt} (h : l.first name = some ent) (hnine : ent.dName.at 0 = 57)
    (hfound : l.found name = some other) :
    digitsValue other.dName.bytes ≠ digitsValue ent.dName.bytes := by
  have hent := List.find?_some h
  have hother := List.find?_some hfound
  simp only [Bool.and_eq_true, decide_eq_true_eq] at hent hother
  obtain ⟨-, hname, -⟩ := l.pid_of_process (List.mem_of_find?_eq_some h) hent.1 hent.2
  obtain ⟨-, hname', -⟩ :=
    l.pid_of_process (List.mem_of_find?_eq_some hfound) hother.1.1 hother.1.2
  intro hvalue
  apply hother.2
  rw [hvalue, hname] at hname'
  rw [CString.at, ← hname']
  exact hnine

theorem Listing.pid_pos (h : l.first name = some ent) : 0 < digitsValue ent.dName.bytes := by
  have hent := List.find?_some h
  rw [Bool.and_eq_true] at hent
  exact (l.pid_of_process (List.mem_of_find?_eq_some h) hent.1 hent.2).1

end

theorem readProcs_first_iff (l : Listing) (name : CString) :
    (readProcs name l.entries).map Prod.fst = .ok (l.firstPid name) ↔
      ∀ ent, l.first name = some ent → ent.dName.at 0 ≠ 57 := by
  rw [l.readProcs_eq name, Except.ok.injEq, Listing.firstPid]
  cases hfirst : l.first name with
  | none => simp [Listing.found_none hfirst]
  | some ent =>
    constructor
    · intro h ent' he'
      cases he'
      intro hnine
      cases hfound : l.found name with
      | none =>
        have hpos := Listing.pid_pos hfirst
        simp only [hfound] at h
        omega
      | some other =>
        simp only [hfound, Nat.cast_inj] at h
        exact Listing.found_ne hfirst hnine hfound h
    · intro h
      have hfound : l.found name = some ent :=
        find_and_of_find hfirst (by simpa using h ent rfl)
      rw [hfound]

/- One process, 9, running "bash". -/
def nine : Listing where
  entries := [⟨true, ⟨[57], by decide⟩, .contents [98, 97, 115, 104, 0]⟩]
  named := by
    intro ent he _ _
    rw [List.mem_singleton.mp he]
    exact ⟨9, by decide, by decide⟩
  readable := by
    intro ent he
    rw [List.mem_singleton.mp he]
    decide

theorem readProcs_nine :
    (readProcs bash nine.entries).map Prod.fst = .ok 0 ∧ nine.firstPid bash = 9 := by
  decide

/-! ### The truncated comparison -/

/- The bytes before the first NUL, or all of them. -/
def firstArgument (cmdline : List UInt8) : List UInt8 := (cmdline.splitOn 0).headD []

theorem splitOnP_headD (p : UInt8 → Bool) (xs : List UInt8) :
    (xs.splitOnP p).headD [] = xs.takeWhile fun x => !p x := by
  induction xs with
  | nil => rfl
  | cons x xs ih =>
    rw [List.splitOnP_cons_eq_if_modifyHead]
    by_cases hx : p x = true
    · simp [hx]
    · obtain ⟨y, ys, hys⟩ := List.exists_cons_of_ne_nil (List.splitOnP_ne_nil p xs)
      rw [hys] at ih
      simpa [hx, hys] using ih

theorem firstArgument_eq (cmdline : List UInt8) : firstArgument cmdline = cstr cmdline := by
  have h := splitOnP_headD (· == 0) cmdline
  rw [firstArgument, List.splitOn, h, cstr]
  congr 1
  funext x
  by_cases hx : x = 0 <;> simp [hx]

def Tracker.matched (g : Tracker) (name : CString) (pid : ℤ) : Tracker :=
  { g with
    compared := g.compared ++ [some name]
    printed := g.printed ++ [.found name pid]
    procPid := pid }

def Tracker.unmatched (g : Tracker) (name : CString) : Tracker :=
  { g with compared := g.compared ++ [some name] }

theorem comparison_exact (name : CString) (cmdline : List UInt8) (g : Tracker)
    (hname : g.procName = some name) (hlen : g.procNameLen = name.bytes.length) (pid : ℤ)
    (dName : CString) (hscanned : DirEnt.scanned ⟨true, dName, .contents cmdline⟩ = true)
    (ents : List DirEnt) :
    checkProcess g pid (.contents cmdline) =
      (if firstArgument cmdline = name.bytes then g.matched name pid else g.unmatched name, none) ∧
    readProcs name (⟨true, dName, .contents cmdline⟩ :: ents) =
      if firstArgument cmdline = name.bytes then .ok (atoi dName.bytes, [.foundEntry name dName])
      else readProcs name ents := by
  have hmatch := readMatches_iff name cmdline
  obtain ⟨procPid, procName, procNameLen, printed, compared, pids⟩ := g
  subst hname hlen
  simp only [checkProcess, readProcs, hscanned, hmatch, firstArgument_eq]
  by_cases h : cstr cmdline = name.bytes
  · simp only [h, ite_true]
    exact ⟨rfl, rfl⟩
  · simp only [h, ite_false]
    exact ⟨rfl, rfl⟩

/- A name, and a command line whose first argument only starts with it. -/
theorem comparison_exact_longer :
    checkProcess ⟨0, some bash, 4, [], [], []⟩ 7 (.contents [98, 97, 115, 104, 50, 0]) =
      (⟨0, some bash, 4, [], [some bash], []⟩, none) ∧
    readProcs bash [⟨true, ⟨[55], by decide⟩, .contents [98, 97, 115, 104, 50, 0]⟩] = .ok (0, []) :=
  comparison_exact bash [98, 97, 115, 104, 50, 0] ⟨0, some bash, 4, [], [], []⟩ rfl rfl 7
    ⟨[55], by decide⟩ (by decide) []

end KeepalivedDevel.TrackProcess
