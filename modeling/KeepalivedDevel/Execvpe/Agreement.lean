import KeepalivedDevel.Execvpe.Code

/-!
# What `__execvpe` executes

It goes through the same names as `find_path`, up to the first that is executed or
that fails for a reason other than being absent or not permitted. `find_path` stops
at the first name that exists, so the two agree if that can be executed.
-/

namespace KeepalivedDevel.Execvpe
open CLib CLib.While FindPath

/-! ### The search through a list of names -/

/-- The result of the search through some names. -/
def outcome (attempt : List UInt8 → Outcome) (gotEacces : Bool) (errno : ℤ) :
    List (List UInt8) → Outcome
  | [] => .failed (if gotEacces then eacces else errno)
  | name :: names =>
    match attempt name with
    | .failed errno =>
      match switch errno with
      | .denied => outcome attempt true errno names
      | .missing => outcome attempt gotEacces errno names
      | .other => .failed errno
    | result => result

/- An attempt that ends the search. -/
def Outcome.Final (result : Outcome) : Prop := ∀ errno, result = .failed errno → switch errno = .other

theorem Outcome.final_or (result : Outcome) :
    result.Final ∨ ∃ errno, result = .failed errno ∧ switch errno ≠ .other := by
  by_cases h : result.Final
  · exact .inl h
  · unfold Outcome.Final at h
    push Not at h
    exact .inr h

theorem switch_denied_iff (errno : ℤ) : switch errno = .denied ↔ errno = eacces := by
  unfold switch
  split
  · simp_all
  · split <;> simp_all

theorem afterAttempt_final (s : State) (buffer : List UInt8) {result : Outcome} (h : result.Final) :
    s.afterAttempt buffer result = .leave result := by
  cases result with
  | executed program argv => rfl
  | overrun => rfl
  | failed errno => simp only [State.afterAttempt, h errno rfl]

theorem afterAttempt_skip (s : State) (buffer : List UInt8) {errno : ℤ} (h : switch errno ≠ .other) :
    s.afterAttempt buffer (.failed errno) =
      s.next (s.gotEacces || decide (errno = eacces)) buffer errno := by
  rw [State.afterAttempt]
  cases hs : switch errno with
  | denied => simp [(switch_denied_iff errno).mp hs]
  | missing =>
    have hne : errno ≠ eacces := fun he => by simp [(switch_denied_iff errno).mpr he] at hs
    simp [hne]
  | other => exact absurd hs h

section
variable {attempt : List UInt8 → Outcome} {name : List UInt8} (got : Bool) (errno : ℤ)
  (names : List (List UInt8))

theorem outcome_final (h : (attempt name).Final) :
    outcome attempt got errno (name :: names) = attempt name := by
  rw [outcome]
  cases hattempt : attempt name with
  | executed program argv => rfl
  | overrun => rfl
  | failed e => simp only [h e hattempt]

theorem outcome_skip {e : ℤ} (hattempt : attempt name = .failed e) (h : switch e ≠ .other) :
    outcome attempt got errno (name :: names) =
      outcome attempt (got || decide (e = eacces)) e names := by
  rw [outcome]
  simp only [hattempt]
  cases hs : switch e with
  | denied => simp [(switch_denied_iff e).mp hs]
  | missing =>
    have hne : e ≠ eacces := fun he => by simp [(switch_denied_iff e).mpr he] at hs
    simp [hne]
  | other => exact absurd hs h

end

/-! ### The loop -/

section
variable (env : Env) (kernel : Kernel) (argv : List (List UInt8)) (behind : Pointers)
  (file : List UInt8) {dir : List UInt8}

theorem searchBody_short {s : State} (hd : s.dir.length < env.pathLen) :
    searchBody kernel argv behind file env.pathLen s =
      s.afterAttempt (candidate file s.dir) (attempt kernel (candidate file s.dir) argv behind) := by
  rw [searchBody, if_neg (Nat.not_le.mpr hd)]

/- A component in front of others, for whose names the rest of the search stands. -/
theorem searchLoop_short (hc : colon ∉ dir) (hd : dir.length < env.pathLen) {rest : List UInt8}
    {names : List (List UInt8)}
    (hrest : ∀ got probed errno,
      searchLoop env kernel argv behind file ⟨⟨rest, got, probed⟩, errno⟩ =
        outcome (attempt kernel · argv behind) got errno names)
    (got : Bool) (probed : List (List UInt8)) (errno : ℤ) :
    searchLoop env kernel argv behind file ⟨⟨dir ++ colon :: rest, got, probed⟩, errno⟩ =
      outcome (attempt kernel · argv behind) got errno (candidate file dir :: names) := by
  have hdir := dir_before_colon hc rest got probed
  have hbody := searchBody_short env kernel argv behind file
    (s := ⟨⟨dir ++ colon :: rest, got, probed⟩, errno⟩) (hdir.symm ▸ hd)
  simp only [hdir] at hbody
  rcases Outcome.final_or (attempt kernel (candidate file dir) argv behind) with h | ⟨e, he, h⟩
  · rw [afterAttempt_final _ _ h] at hbody
    rw [outcome_final _ _ _ h]
    exact run_leave _ hbody
  · rw [he, afterAttempt_skip _ _ h, State.next] at hbody
    simp only [strchr_append rest hc] at hbody
    rw [outcome_skip _ _ _ he h]
    exact (run_again _ hbody).trans (hrest _ _ _)

theorem searchLoop_last (hc : colon ∉ dir) (hd : dir.length < env.pathLen) (got : Bool)
    (probed : List (List UInt8)) (errno : ℤ) :
    searchLoop env kernel argv behind file ⟨⟨dir, got, probed⟩, errno⟩ =
      outcome (attempt kernel · argv behind) got errno [candidate file dir] := by
  have hdir := dir_last hc got probed
  have hbody := searchBody_short env kernel argv behind file
    (s := ⟨⟨dir, got, probed⟩, errno⟩) (hdir.symm ▸ hd)
  simp only [hdir] at hbody
  rcases Outcome.final_or (attempt kernel (candidate file dir) argv behind) with h | ⟨e, he, h⟩
  · rw [afterAttempt_final _ _ h] at hbody
    rw [outcome_final _ _ _ h]
    exact run_leave _ hbody
  · rw [he, afterAttempt_skip _ _ h, State.next] at hbody
    simp only [strchr_eq_none hc] at hbody
    rw [outcome_skip _ _ _ he h]
    exact run_leave _ hbody

theorem searchLoop_long (hc : colon ∉ dir) (hd : env.pathLen ≤ dir.length) (rest : List UInt8)
    (got : Bool) (probed : List (List UInt8)) (errno : ℤ) :
    searchLoop env kernel argv behind file ⟨⟨dir ++ colon :: rest, got, probed⟩, errno⟩ =
      searchLoop env kernel argv behind file ⟨⟨colon :: rest, got, probed⟩, errno⟩ := by
  have hbody : searchBody kernel argv behind file env.pathLen
      ⟨⟨dir ++ colon :: rest, got, probed⟩, errno⟩ = .again ⟨⟨colon :: rest, got, probed⟩, errno⟩ := by
    rw [searchBody, dir_before_colon hc, if_pos hd]
    simp only [strchr_append rest hc]
  exact run_again _ hbody

theorem searchLoop_long_last (hc : colon ∉ dir) (hd : env.pathLen ≤ dir.length) (got : Bool)
    (probed : List (List UInt8)) (errno : ℤ) :
    searchLoop env kernel argv behind file ⟨⟨dir, got, probed⟩, errno⟩ =
      outcome (attempt kernel · argv behind) got errno [] := by
  have hbody : searchBody kernel argv behind file env.pathLen ⟨⟨dir, got, probed⟩, errno⟩ =
      .leave (State.exhausted ⟨⟨dir, got, probed⟩, errno⟩) := by
    rw [searchBody, dir_last hc, if_pos hd]
    simp only [strchr_eq_none hc]
  exact run_leave _ hbody

theorem searchLoop_eq (dirs : List (List UInt8)) (hne : dirs ≠ []) (hc : ∀ dir ∈ dirs, colon ∉ dir)
    (got : Bool) (probed : List (List UInt8)) (errno : ℤ) :
    searchLoop env kernel argv behind file ⟨⟨[colon].intercalate dirs, got, probed⟩, errno⟩ =
      outcome (attempt kernel · argv behind) got errno (probes file env.pathLen dirs) := by
  induction dirs generalizing got probed errno with
  | nil => exact absurd rfl hne
  | cons dir dirs ih =>
    have hdir := hc dir List.mem_cons_self
    cases dirs with
    | nil =>
      rw [List.intercalate_singleton, probes]
      by_cases hd : env.pathLen ≤ dir.length
      · rw [if_pos hd]
        exact searchLoop_long_last env kernel argv behind file hdir hd got probed errno
      · rw [if_neg hd]
        exact searchLoop_last env kernel argv behind file hdir (Nat.not_le.mp hd) got probed errno
    | cons next dirs =>
      have hrest := ih (List.cons_ne_nil _ _) fun d hd => hc d (List.mem_cons_of_mem _ hd)
      rw [List.intercalate_cons_cons, List.append_assoc, List.singleton_append, probes, tried]
      by_cases hd : env.pathLen ≤ dir.length
      · -- The colon left behind a component that is too long is an empty component.
        rw [searchLoop_long env kernel argv behind file hdir hd, if_pos hd]
        have hempty : colon ∉ ([] : List UInt8) := List.not_mem_nil
        exact searchLoop_short env kernel argv behind file hempty (Nat.succ_pos _) hrest got probed
          errno
      · rw [if_neg hd]
        exact searchLoop_short env kernel argv behind file hdir (Nat.not_le.mp hd) hrest got probed
          errno

end

theorem execvpe_eq_outcome (env : Env) (kernel : Kernel) (errno : ℤ) (file : FileName)
    (argv : List (List UInt8)) (behind : Pointers) :
    execvpe env kernel errno file.toCString argv behind =
      outcome (attempt kernel · argv behind) false errno
        (probes file.bytes env.pathLen env.components) := by
  have hname := (length_checks file.short).2
  have hloop := searchLoop_eq env kernel argv behind file.bytes env.components
    (List.splitOn_ne_nil _ _) (fun dir hdir => not_mem_of_mem_splitOn hdir) false [] errno
  rw [Env.components, List.intercalate_splitOn] at hloop
  rw [execvpe, if_neg file.nonempty, strchr_eq_none file.noSlash, if_neg (by simp), if_neg hname,
    hloop]
  rfl

/-! ### Any kernel -/

section
variable {kernel : Kernel} {argv : List (List UInt8)} (behind : Pointers)

theorem attempt_noexec (hargs : argv.length < intMax - 1) {name : List UInt8}
    (h : kernel name argv = some enoexec) : attempt kernel name argv behind = .overrun := by
  simp only [attempt, h, if_true]
  rw [maybeScriptExecute, if_neg (Nat.not_le.mpr hargs), newArgv_eq_none]

theorem attempt_failed {name : List UInt8} {e : ℤ} (h : kernel name argv = some e)
    (hne : e ≠ enoexec) : attempt kernel name argv behind = .failed e := by
  simp only [attempt, h, if_neg hne]

theorem switch_noexec : switch enoexec = .other := by decide

/- The last error number, that of the last name if there is one. -/
theorem getD_getLast_cons {name : List UInt8} {names : List (List UInt8)} {e : ℤ}
    (hname : kernel name argv = some e) (hall : ∀ m ∈ names, ∃ e, kernel m argv = some e)
    (errno : ℤ) :
    ((name :: names).getLast?.bind (kernel · argv)).getD errno =
      (names.getLast?.bind (kernel · argv)).getD e := by
  rw [List.getLast?_cons]
  cases hlast : names.getLast? with
  | none => simp [hname]
  | some m =>
    obtain ⟨e', hm⟩ := hall m (List.mem_of_getLast? hlast)
    simp [hm]

/-- How the search through some names ends: at the first that is not skipped, or after all. -/
theorem outcome_cases (hargs : argv.length < intMax - 1) (got : Bool) (errno : ℤ)
    (names : List (List UInt8)) :
    let result := outcome (attempt kernel · argv behind) got errno names
    (∃ pre name post, names = pre ++ name :: post ∧
      (∀ m ∈ pre, ∃ e, kernel m argv = some e ∧ switch e ≠ .other) ∧
      ((kernel name argv = none ∧ result = .executed name argv) ∨
        (kernel name argv = some enoexec ∧ result = .overrun) ∨
        ∃ e, kernel name argv = some e ∧ e ≠ enoexec ∧ switch e = .other ∧ result = .failed e)) ∨
    ((∀ m ∈ names, ∃ e, kernel m argv = some e ∧ switch e ≠ .other) ∧
      result = .failed (if got || names.any fun m => kernel m argv = some eacces then eacces
        else (names.getLast?.bind (kernel · argv)).getD errno)) := by
  induction names generalizing got errno with
  | nil => exact .inr ⟨nofun, by simp [outcome]⟩
  | cons name names ih =>
    intro result
    cases hkernel : kernel name argv with
    | none =>
      have hattempt : attempt kernel name argv behind = .executed name argv := by
        simp only [attempt, hkernel]
      refine .inl ⟨[], name, names, rfl, nofun, .inl ⟨hkernel, ?_⟩⟩
      exact (outcome_final got errno names (by simp [hattempt, Outcome.Final])).trans hattempt
    | some e =>
      by_cases hnoexec : e = enoexec
      · subst hnoexec
        have hattempt := attempt_noexec behind hargs hkernel
        refine .inl ⟨[], name, names, rfl, nofun, .inr (.inl ⟨hkernel, ?_⟩)⟩
        exact (outcome_final got errno names (by simp [hattempt, Outcome.Final])).trans hattempt
      have hattempt := attempt_failed behind hkernel hnoexec
      by_cases hswitch : switch e = .other
      · refine .inl ⟨[], name, names, rfl, nofun, .inr (.inr ⟨e, hkernel, hnoexec, hswitch, ?_⟩)⟩
        exact (outcome_final got errno names (by simp [hattempt, Outcome.Final, hswitch])).trans
          hattempt
      have hresult : result =
          outcome (attempt kernel · argv behind) (got || decide (e = eacces)) e names :=
        outcome_skip got errno names hattempt hswitch
      rw [hresult]
      rcases ih (got || decide (e = eacces)) e with ⟨pre, m, post, rfl, hpre, hm⟩ | ⟨hall, hlast⟩
      · refine .inl ⟨name :: pre, m, post, rfl, ?_, hm⟩
        exact List.forall_mem_cons.mpr ⟨⟨e, hkernel, hswitch⟩, hpre⟩
      · refine .inr ⟨List.forall_mem_cons.mpr ⟨⟨e, hkernel, hswitch⟩, hall⟩, ?_⟩
        have hlasts := getD_getLast_cons hkernel (fun m hm => (hall m hm).imp fun _ h => h.1) errno
        rw [hlast, hlasts, List.any_cons, hkernel, Bool.or_assoc]
        simp

end

/-- The names of `find_path` are executed in their order. Those that are missing or not
permitted are skipped; the first other one is executed, or has a format that is not known,
and then the array for the shell's arguments overflows, or its error is returned. If all
are skipped the error is EACCES if it was for one of them, or else the last one. -/
theorem execvpe_executes_first (env : Env) (kernel : Kernel) (errno : ℤ) (file : FileName)
    (argv : List (List UInt8)) (hargs : argv.length < intMax - 1) (behind : Pointers) :
    let names := probes file.bytes env.pathLen env.components
    let result := execvpe env kernel errno file.toCString argv behind
    (∃ pre name post, names = pre ++ name :: post ∧
      (∀ m ∈ pre, ∃ e, kernel m argv = some e ∧ switch e ≠ .other) ∧
      ((kernel name argv = none ∧ result = .executed name argv) ∨
        (kernel name argv = some enoexec ∧ result = .overrun) ∨
        ∃ e, kernel name argv = some e ∧ e ≠ enoexec ∧ switch e = .other ∧ result = .failed e)) ∨
    ((∀ m ∈ names, ∃ e, kernel m argv = some e ∧ switch e ≠ .other) ∧
      result = .failed (if names.any fun m => kernel m argv = some eacces then eacces
        else (names.getLast?.bind (kernel · argv)).getD errno)) := by
  intro names result
  have hresult : result = outcome (attempt kernel · argv behind) false errno names :=
    execvpe_eq_outcome env kernel errno file argv behind
  rw [hresult]
  exact outcome_cases behind hargs false errno names

/- PATH is "a:b", where "a/x" may not be executed and "b/x" may. -/
def twoFiles : Env where
  fs :=
    { stat := fun name =>
        if name = [97, 47, 120] then some 0o100644
        else if name = [98, 47, 120] then some 0o100755 else none
      tooLong := by
        intro name hlen
        rw [if_neg, if_neg]
        · intro hname
          rw [hname] at hlen
          exact absurd hlen (by decide)
        · intro hname
          rw [hname] at hlen
          exact absurd hlen (by decide) }
  path := some ⟨[97, 58, 98], by decide⟩
  csPath := ⟨[47], by decide⟩
  leftover := fun _ => 0

def fileX : FileName := ⟨⟨[120], by decide⟩, by decide, by decide, by decide⟩

theorem probes_twoFiles :
    probes fileX.bytes twoFiles.pathLen twoFiles.components = [[97, 47, 120], [98, 47, 120]] := by
  decide

/- The kernel does not know the format of any file. -/
theorem execvpe_executes_first_script :
    execvpe twoFiles (fun _ _ => some enoexec) 0 fileX.toCString [[120]] [none] = .overrun := by
  have hfirst := execvpe_executes_first twoFiles (fun _ _ => some enoexec) 0 fileX [[120]] (by decide)
    [none]
  rcases hfirst with ⟨pre, name, post, -, -, h | h | ⟨e, he, hne, -⟩⟩ | ⟨hall, -⟩
  · exact absurd h.1 (by simp)
  · exact h.2
  · exact absurd (Option.some.inj he).symm hne
  · obtain ⟨e, he, hswitch⟩ := hall [97, 47, 120] (by simp [probes_twoFiles])
    exact absurd (Option.some.inj he ▸ switch_noexec) hswitch

/-! ### A kernel that goes by the modes of files -/

/-- The kernel executes what is an executable file, denies what exists and is not, and
does not find the rest. -/
structure ByMode (fs : FileSystem) (argv : List (List UInt8)) (kernel : Kernel) : Prop where
  missing : ∀ name, fs.stat name = none → kernel name argv = some enoent
  denied : ∀ name, (fs.stat name).isSome → fs.runs name = false → kernel name argv = some eacces
  executed : ∀ name, fs.runs name = true → kernel name argv = none

section
variable {fs : FileSystem} {argv : List (List UInt8)} {kernel : Kernel}

theorem ByMode.skips (h : ByMode fs argv kernel) {name : List UInt8} (hname : fs.runs name = false) :
    ∃ e, kernel name argv = some e ∧ e ≠ enoexec ∧ switch e ≠ .other := by
  cases hstat : fs.stat name with
  | none => exact ⟨enoent, h.missing name hstat, by decide, by decide⟩
  | some mode => exact ⟨eacces, h.denied name (by simp [hstat]) hname, by decide, by decide⟩

theorem ByMode.outcome (h : ByMode fs argv kernel) (behind : Pointers) (got : Bool) (errno : ℤ)
    (names : List (List UInt8)) (name : List UInt8) :
    Execvpe.outcome (attempt kernel · argv behind) got errno names = .executed name argv ↔
      names.find? fs.runs = some name := by
  induction names generalizing got errno with
  | nil => simp [Execvpe.outcome]
  | cons m names ih =>
    cases hm : fs.runs m with
    | true =>
      have hattempt : attempt kernel m argv behind = .executed m argv := by
        simp only [attempt, h.executed m hm]
      rw [outcome_final got errno names (by simp [hattempt, Outcome.Final]), hattempt,
        List.find?_cons_of_pos hm]
      simp
    | false =>
      obtain ⟨e, hkernel, hnoexec, hswitch⟩ := h.skips hm
      rw [outcome_skip got errno names (attempt_failed behind hkernel hnoexec) hswitch, ih,
        List.find?_cons_of_neg (by simp [hm])]

end

/- With nothing in `buf` that looks like an executable file, `find_path` takes the first name
that exists. -/
theorem findPath_outcome_iff {env : Env} (hleft : ∀ k, executable (env.leftover k) = false)
    (k : ℕ) (got : Bool) (names : List (List UInt8)) (name : List UInt8) :
    FindPath.outcome env k got names = ⟨0, some name⟩ ↔
      names.find? (fun m => (env.fs.stat m).isSome) = some name := by
  induction names generalizing k got with
  | nil => cases got <;> simp [FindPath.outcome]
  | cons m names ih =>
    rw [FindPath.outcome]
    by_cases hm : (env.fs.stat m).isSome
    · simp [hm]
    · rw [if_neg hm, hleft k, if_neg (by simp), ih]
      simp [hm]

/-- Both go through the same names, but `find_path` resolves to the first that exists and
`__execvpe` executes the first that is an executable file. So what `find_path` says is what
would be executed exactly if the first name that exists is an executable file. -/
theorem resolved_is_executed_iff (env : Env) (hleft : ∀ k, executable (env.leftover k) = false)
    (kernel : Kernel) (argv : List (List UInt8)) (hkernel : ByMode env.fs argv kernel) (errno : ℤ)
    (file : FileName) (behind : Pointers) :
    let names := probes file.bytes env.pathLen env.components
    (∀ name, findPath env file.toCString = ⟨0, some name⟩ ↔
      names.find? (fun m => (env.fs.stat m).isSome) = some name) ∧
    (∀ name, execvpe env kernel errno file.toCString argv behind = .executed name argv ↔
      names.find? env.fs.runs = some name) ∧
    ((∃ name, findPath env file.toCString = ⟨0, some name⟩ ∧
        execvpe env kernel errno file.toCString argv behind = .executed name argv) ↔
      ∃ name, names.find? (fun m => (env.fs.stat m).isSome) = some name ∧ env.fs.runs name) := by
  intro names
  have hfind : ∀ name, findPath env file.toCString = ⟨0, some name⟩ ↔
      names.find? (fun m => (env.fs.stat m).isSome) = some name := by
    intro name
    rw [findPath_eq_outcome, findPath_outcome_iff hleft]
  have hexec : ∀ name, execvpe env kernel errno file.toCString argv behind = .executed name argv ↔
      names.find? env.fs.runs = some name := by
    intro name
    rw [execvpe_eq_outcome, hkernel.outcome]
  refine ⟨hfind, hexec, ?_, ?_⟩
  · intro ⟨name, hname, hrun⟩
    exact ⟨name, (hfind name).mp hname, List.find?_some ((hexec name).mp hrun)⟩
  · intro ⟨name, hname, hrun⟩
    refine ⟨name, (hfind name).mpr hname, (hexec name).mpr ?_⟩
    obtain ⟨-, pre, post, hnames, hpre⟩ := List.find?_eq_some_iff_append.mp hname
    refine List.find?_eq_some_iff_append.mpr ⟨hrun, pre, post, hnames, fun m hm => ?_⟩
    have hstat : env.fs.stat m = none := by simpa using hpre m hm
    simp [not_runs_of_stat hstat]

def modeKernel (fs : FileSystem) : Kernel := fun name _ =>
  if fs.runs name then none else if (fs.stat name).isSome then some eacces else some enoent

theorem byMode_modeKernel (fs : FileSystem) (argv : List (List UInt8)) :
    ByMode fs argv (modeKernel fs) where
  missing := by
    intro name h
    simp [modeKernel, FileSystem.runs, h]
  denied := by
    intro name hsome hruns
    simp [modeKernel, hruns, hsome]
  executed := by
    intro name h
    simp [modeKernel, h]

theorem resolved_is_not_executed_twoFiles :
    findPath twoFiles fileX.toCString = ⟨0, some [97, 47, 120]⟩ ∧
      execvpe twoFiles (modeKernel twoFiles.fs) 0 fileX.toCString [[120]] [none] =
        .executed [98, 47, 120] [[120]] := by
  obtain ⟨hfind, hexec, -⟩ := resolved_is_executed_iff twoFiles
    (fun _ => show executable 0 = false by decide)
    (modeKernel twoFiles.fs) [[120]] (byMode_modeKernel _ _) 0 fileX [none]
  rw [hfind, hexec, probes_twoFiles]
  decide

end KeepalivedDevel.Execvpe
