import KeepalivedDevel.FindPath.Code

/-!
# What `find_path` resolves to

The loop is reduced to the list of names it gives to `stat`, and its result is
compared with that of a shell: the first candidate that is an executable file,
or else the reason why there is none.
-/

namespace KeepalivedDevel.FindPath
open CLib CLib.While

/-! ### The names tried -/

def Env.components (env : Env) : List (List UInt8) := env.pathValue.splitOn colon

/- For a component that is too long the bare file name is tried. -/
def tried (file : List UInt8) (pathLen : ℕ) (dir : List UInt8) : List UInt8 :=
  if pathLen ≤ dir.length then file else candidate file dir

def probes (file : List UInt8) (pathLen : ℕ) : List (List UInt8) → List (List UInt8)
  | [] => []
  | [dir] => if pathLen ≤ dir.length then [] else [candidate file dir]
  | dir :: next :: dirs => tried file pathLen dir :: probes file pathLen (next :: dirs)

/-- The result of a search through some names, of which `k` have been tried
before. -/
def outcome (env : Env) (k : ℕ) (gotEacces : Bool) : List (List UInt8) → Result
  | [] => if gotEacces then ⟨eacces, none⟩ else ⟨enoent, none⟩
  | name :: names =>
    if (env.fs.stat name).isSome then ⟨0, some name⟩
    else if executable (env.leftover k) then ⟨-1, none⟩
    else outcome env (k + 1) true names

section
variable (env : Env) (file : List UInt8) {dir : List UInt8}

theorem searchLoop_short (hc : colon ∉ dir) (hd : dir.length < env.pathLen) (rest : List UInt8)
    (got : Bool) (probed : List (List UInt8)) :
    searchLoop env file ⟨dir ++ colon :: rest, got, probed⟩ =
      if (env.fs.stat (candidate file dir)).isSome then ⟨0, some (candidate file dir)⟩
      else if executable (env.leftover probed.length) then ⟨-1, none⟩
      else searchLoop env file ⟨rest, true, probed ++ [candidate file dir]⟩ := by
  have hdir := dir_before_colon hc rest got probed
  have hbody := searchBody_short env file (hdir.symm ▸ hd)
  rw [hdir] at hbody
  rcases hbody with ⟨hs, he⟩ | ⟨hs, hx, he⟩ | ⟨hs, hx, he⟩
  · rw [searchLoop, run_leave _ he, if_pos hs]
  · rw [searchLoop, run_leave _ he, if_neg (by simp [hs]), if_pos hx]
  · simp only [Search.next, strchr_append rest hc] at he
    rw [searchLoop, run_again _ he, if_neg (by simp [hs]), if_neg (by simp [hx])]
    rfl

theorem searchLoop_last (hc : colon ∉ dir) (hd : dir.length < env.pathLen) (got : Bool)
    (probed : List (List UInt8)) :
    searchLoop env file ⟨dir, got, probed⟩ =
      outcome env probed.length got [candidate file dir] := by
  have hdir := dir_last hc got probed
  have hbody := searchBody_short env file (hdir.symm ▸ hd)
  rw [hdir] at hbody
  rcases hbody with ⟨hs, he⟩ | ⟨hs, hx, he⟩ | ⟨hs, hx, he⟩
  · rw [searchLoop, run_leave _ he]
    simp [outcome, hs]
  · rw [searchLoop, run_leave _ he]
    simp [outcome, hs, hx]
  · simp only [Search.next, strchr_eq_none hc] at he
    rw [searchLoop, run_leave _ he]
    simp [outcome, hs, hx, Search.exhausted]

theorem searchLoop_long (hc : colon ∉ dir) (hd : env.pathLen ≤ dir.length) (rest : List UInt8)
    (got : Bool) (probed : List (List UInt8)) :
    searchLoop env file ⟨dir ++ colon :: rest, got, probed⟩ =
      searchLoop env file ⟨colon :: rest, got, probed⟩ := by
  have he := searchBody_long (probe env) file hc hd rest got probed
  rw [searchLoop, run_again _ he]
  rfl

theorem searchLoop_long_last (hc : colon ∉ dir) (hd : env.pathLen ≤ dir.length) (got : Bool)
    (probed : List (List UInt8)) :
    searchLoop env file ⟨dir, got, probed⟩ = outcome env probed.length got [] := by
  have he := searchBody_long_last (probe env) file hc hd got probed
  rw [searchLoop, run_leave _ he]
  rfl

end

theorem searchLoop_eq (env : Env) (file : List UInt8) (dirs : List (List UInt8)) (hne : dirs ≠ [])
    (hc : ∀ dir ∈ dirs, colon ∉ dir) (got : Bool) (probed : List (List UInt8)) :
    searchLoop env file ⟨[colon].intercalate dirs, got, probed⟩ =
      outcome env probed.length got (probes file env.pathLen dirs) := by
  induction dirs generalizing got probed with
  | nil => exact absurd rfl hne
  | cons dir dirs ih =>
    have hdir := hc dir (List.mem_cons_self ..)
    cases dirs with
    | nil =>
      rw [List.intercalate_singleton, probes]
      by_cases hd : env.pathLen ≤ dir.length
      · rw [if_pos hd]
        exact searchLoop_long_last env file hdir hd got probed
      · rw [if_neg hd]
        exact searchLoop_last env file hdir (Nat.not_le.mp hd) got probed
    | cons next dirs =>
      have hrest := ih (by simp) fun d hd => hc d (List.mem_cons_of_mem _ hd)
      rw [List.intercalate_cons_cons, List.append_assoc, List.singleton_append, probes, outcome,
        tried]
      by_cases hd : env.pathLen ≤ dir.length
      · -- the pass behind the skipped component tries the bare name
        have hempty := searchLoop_short env file List.not_mem_nil (Nat.succ_pos _)
          ([colon].intercalate (next :: dirs)) got probed
        rw [List.nil_append] at hempty
        rw [searchLoop_long env file hdir hd, hempty, if_pos hd, hrest, candidate, if_pos rfl,
          List.length_append]
        rfl
      · rw [searchLoop_short env file hdir (Nat.not_le.mp hd), if_neg hd, hrest, List.length_append]
        rfl

/-! ### The names tried and the components -/

section
variable {file : List UInt8} {pathLen : ℕ}

theorem probes_cons (dir : List UInt8) {dirs : List (List UInt8)} (h : dirs ≠ []) :
    probes file pathLen (dir :: dirs) = tried file pathLen dir :: probes file pathLen dirs := by
  cases dirs with
  | nil => exact absurd rfl h
  | cons next dirs => rfl

theorem probes_append (file : List UInt8) (pre : List (List UInt8)) {dir : List UInt8}
    (post : List (List UInt8)) (h : pathLen ≤ dir.length → post ≠ []) :
    ∃ rest, probes file pathLen (pre ++ dir :: post) =
      pre.map (tried file pathLen) ++ tried file pathLen dir :: rest := by
  induction pre with
  | nil =>
    cases post with
    | nil =>
      have hd : ¬ pathLen ≤ dir.length := fun hd => h hd rfl
      exact ⟨[], by simp [probes, tried, hd]⟩
    | cons next post => exact ⟨_, rfl⟩
  | cons d pre ih =>
    obtain ⟨rest, hrest⟩ := ih
    refine ⟨rest, ?_⟩
    rw [List.cons_append, probes_cons d (by simp), hrest]
    rfl

theorem probes_split {dirs names rest : List (List UInt8)} {name : List UInt8}
    (h : probes file pathLen dirs = names ++ name :: rest) :
    ∃ pre dir post, dirs = pre ++ dir :: post ∧ names = pre.map (tried file pathLen) ∧
      name = tried file pathLen dir := by
  induction dirs generalizing names with
  | nil =>
    rw [probes] at h
    exact absurd h (by simp)
  | cons d dirs ih =>
    by_cases hne : dirs = []
    · subst hne
      rw [probes] at h
      by_cases hd : pathLen ≤ d.length
      · simp [hd] at h
      · rw [if_neg hd] at h
        obtain ⟨hn, hlast⟩ := List.singleton_eq_append_iff.mp h |>.elim id fun hc => absurd hc.2 (by simp)
        cases hlast
        exact ⟨[], d, [], rfl, hn, by simp [tried, hd]⟩
    · rw [probes_cons d hne] at h
      cases names with
      | nil =>
        cases h
        exact ⟨[], d, dirs, rfl, rfl, rfl⟩
      | cons n names =>
        obtain ⟨rfl, htail⟩ := List.cons.inj h
        obtain ⟨pre, dir, post, rfl, rfl, rfl⟩ := ih htail
        exact ⟨d :: pre, dir, post, rfl, rfl, rfl⟩

theorem candidate_mem_probes {dirs : List (List UInt8)} {dir : List UInt8} (hm : dir ∈ dirs)
    (hd : dir.length < pathLen) : candidate file dir ∈ probes file pathLen dirs := by
  obtain ⟨pre, post, rfl⟩ := List.append_of_mem hm
  have hshort : ¬ pathLen ≤ dir.length := Nat.not_le.mpr hd
  obtain ⟨rest, hrest⟩ := probes_append file pre post fun h => absurd h hshort
  rw [hrest]
  simp [tried, hshort]

end

theorem outcome_found {env : Env} {k : ℕ} (got : Bool) {names : List (List UInt8)} {name : List UInt8}
    (rest : List (List UInt8)) (hnames : ∀ n ∈ names, env.fs.stat n = none)
    (hleft : ∀ i, i < names.length → executable (env.leftover (k + i)) = false)
    (hs : (env.fs.stat name).isSome) :
    outcome env k got (names ++ name :: rest) = ⟨0, some name⟩ := by
  induction names generalizing k got with
  | nil => simp [outcome, hs]
  | cons n names ih =>
    have hn := hnames n (List.mem_cons_self ..)
    have hx := hleft 0 (Nat.succ_pos _)
    rw [Nat.add_zero] at hx
    rw [List.cons_append, outcome, if_neg (by simp [hn]), if_neg (by simp [hx])]
    refine ih true (fun m hm => hnames m (List.mem_cons_of_mem _ hm)) fun i hi => ?_
    have hi' := hleft (i + 1) (Nat.succ_lt_succ hi)
    rwa [show k + 1 + i = k + (i + 1) by omega]

theorem outcome_cases (env : Env) (k : ℕ) (got : Bool) (names : List (List UInt8)) :
    (∃ pre name post, names = pre ++ name :: post ∧ (∀ n ∈ pre, env.fs.stat n = none) ∧
      (∀ i, i < pre.length → executable (env.leftover (k + i)) = false) ∧
      outcome env k got names = ⟨0, some name⟩) ∨
    outcome env k got names = ⟨-1, none⟩ ∨
    ((∀ n ∈ names, env.fs.stat n = none) ∧
      outcome env k got names = if got ∨ names ≠ [] then ⟨eacces, none⟩ else ⟨enoent, none⟩) := by
  induction names generalizing k got with
  | nil => exact .inr (.inr ⟨by simp, by cases got <;> rfl⟩)
  | cons n names ih =>
    rw [outcome]
    cases hs : env.fs.stat n with
    | some mode => exact .inl ⟨[], n, names, rfl, by simp, by simp, rfl⟩
    | none =>
      cases hx : executable (env.leftover k) with
      | true => exact .inr (.inl (by simp))
      | false =>
        simp only [Option.isSome_none, Bool.false_eq_true, ite_false]
        rcases ih (k + 1) true with ⟨pre, name, post, rfl, hpre, hleft, he⟩ | he | ⟨hall, he⟩
        · refine .inl ⟨n :: pre, name, post, rfl, ?_, ?_, he⟩
          · intro m hm
            rcases List.mem_cons.mp hm with rfl | hm
            · exact hs
            · exact hpre m hm
          · intro i hi
            cases i with
            | zero => exact hx
            | succ i =>
              rw [show k + (i + 1) = k + 1 + i by omega]
              exact hleft i (Nat.lt_of_succ_lt_succ hi)
        · exact .inr (.inl he)
        · refine .inr (.inr ⟨?_, by simpa using he⟩)
          intro m hm
          rcases List.mem_cons.mp hm with rfl | hm
          · exact hs
          · exact hall m hm

/-! ### The search of a shell -/

/- A file name as the search takes it. -/
structure FileName extends CString where
  nonempty : bytes ≠ []
  noSlash : slash ∉ bytes
  short : bytes.length ≤ nameMax

def FileSystem.runs (fs : FileSystem) (name : List UInt8) : Bool :=
  (fs.stat name).any executable

/-- The first name that is an executable file, or else whether any of them exists. -/
def expected (fs : FileSystem) (names : List (List UInt8)) : Result :=
  match names.find? fs.runs with
  | some name => ⟨0, some name⟩
  | none => if names.any fun name => (fs.stat name).isSome then ⟨eacces, none⟩ else ⟨enoent, none⟩

/-- The first name tried that exists is an executable file, nothing left over in
`buf` looks like one before, and if the name was tried for a component that is
too long, the first executable file behind it is that of an empty component. -/
structure FoundFirst (env : Env) (file : List UInt8) (pre : List (List UInt8)) (dir : List UInt8)
    (post : List (List UInt8)) : Prop where
  missing : ∀ d ∈ pre, env.fs.stat (tried file env.pathLen d) = none
  leftover : ∀ k, k < pre.length → executable (env.leftover k) = false
  runs : env.fs.runs (tried file env.pathLen dir) = true
  overlong : env.pathLen ≤ dir.length →
    post.find? (fun d => env.fs.runs (candidate file d)) = some []

/- The only component of PATH is too long, or the search gets to the right name. -/
def Resolvable (env : Env) (file : List UInt8) : Prop :=
  (∃ dir, env.components = [dir] ∧ env.pathLen ≤ dir.length) ∨
    ∃ pre dir post, env.components = pre ++ dir :: post ∧ FoundFirst env file pre dir post

theorem findPath_eq_outcome (env : Env) (file : FileName) :
    findPath env file.toCString =
      outcome env 0 false (probes file.bytes env.pathLen env.components) := by
  obtain ⟨hpath, hname⟩ := length_checks file.short
  have hloop := searchLoop_eq env file.bytes env.components (List.splitOn_ne_nil _ _)
    (fun dir hdir => not_mem_of_mem_splitOn hdir) false []
  rw [Env.components, List.intercalate_splitOn] at hloop
  rw [findPath, if_neg file.nonempty, if_neg hpath, strchr_eq_none file.noSlash, if_neg (by simp),
    if_neg hname, hloop]
  rfl

section
variable {env : Env} {file : List UInt8}

theorem runs_isSome {name : List UInt8} (h : env.fs.runs name = true) :
    (env.fs.stat name).isSome := by
  unfold FileSystem.runs at h
  cases hs : env.fs.stat name with
  | none => simp [hs] at h
  | some mode => rfl

/- The full name of a component that is too long exceeds PATH_MAX. -/
theorem stat_overlong (file : List UInt8) {dir : List UInt8} (hm : dir ∈ env.components)
    (hd : env.pathLen ≤ dir.length) : env.fs.stat (candidate file dir) = none := by
  have hle := length_le_of_mem_splitOn hm
  unfold Env.pathLen at hd
  have hpos : dir ≠ [] := by
    rintro rfl
    simp at hd
  apply env.fs.tooLong
  rw [candidate, if_neg hpos, List.length_append]
  unfold pathMax at hd ⊢
  omega

theorem stat_candidate {dir : List UInt8} (hm : dir ∈ env.components)
    (h : env.fs.stat (tried file env.pathLen dir) = none) :
    env.fs.stat (candidate file dir) = none := by
  by_cases hd : env.pathLen ≤ dir.length
  · exact stat_overlong file hm hd
  · rwa [tried, if_neg hd] at h

theorem not_runs_of_stat {name : List UInt8} (h : env.fs.stat name = none) :
    env.fs.runs name = false := by
  simp [FileSystem.runs, h]

theorem candidate_eq_file {dir : List UInt8} (h : candidate file dir = file) : dir = [] := by
  by_contra hne
  rw [candidate, if_neg hne] at h
  have hlen := congrArg List.length h
  rw [List.length_append, List.length_cons] at hlen
  omega

/- Up to the component found nothing runs, so the rest decides. -/
theorem find_candidates {pre post : List (List UInt8)} {dir : List UInt8}
    (hc : env.components = pre ++ dir :: post)
    (hpre : ∀ d ∈ pre, env.fs.stat (tried file env.pathLen d) = none) :
    (env.components.map (candidate file)).find? env.fs.runs =
      if env.fs.runs (candidate file dir) then some (candidate file dir)
      else (post.map (candidate file)).find? env.fs.runs := by
  have hnone : (pre.map (candidate file)).find? env.fs.runs = none := by
    rw [List.find?_eq_none]
    intro name hname
    obtain ⟨d, hd, rfl⟩ := List.mem_map.mp hname
    have hs := stat_candidate (by rw [hc]; exact List.mem_append_left _ hd) (hpre d hd)
    simp [not_runs_of_stat hs]
  rw [hc, List.map_append, List.find?_append, hnone, List.map_cons, List.find?_cons]
  cases env.fs.runs (candidate file dir) <;> rfl

theorem find_overlong {pre post : List (List UInt8)} {dir : List UInt8}
    (hc : env.components = pre ++ dir :: post)
    (hpre : ∀ d ∈ pre, env.fs.stat (tried file env.pathLen d) = none)
    (hd : env.pathLen ≤ dir.length) :
    (env.components.map (candidate file)).find? env.fs.runs = some file ↔
      post.find? (fun d => env.fs.runs (candidate file d)) = some [] := by
  have hm : dir ∈ env.components := by simp [hc]
  have hs := stat_overlong file hm hd
  rw [find_candidates hc hpre, not_runs_of_stat hs, if_neg (by simp), List.find?_map,
    Option.map_eq_some_iff]
  constructor
  · rintro ⟨d, hfind, hfile⟩
    rw [candidate_eq_file hfile] at hfind
    exact hfind
  · intro hfind
    exact ⟨[], hfind, rfl⟩

theorem expected_cases (fs : FileSystem) (names : List (List UInt8)) :
    (∃ name, names.find? fs.runs = some name ∧ expected fs names = ⟨0, some name⟩) ∨
    (names.find? fs.runs = none ∧ (∃ name ∈ names, (fs.stat name).isSome) ∧
      expected fs names = ⟨eacces, none⟩) ∨
    (names.find? fs.runs = none ∧ (∀ name ∈ names, fs.stat name = none) ∧
      expected fs names = ⟨enoent, none⟩) := by
  unfold expected
  cases hf : names.find? fs.runs with
  | some name => exact .inl ⟨name, rfl, rfl⟩
  | none =>
    by_cases hany : ∃ name ∈ names, (fs.stat name).isSome
    · exact .inr (.inl ⟨rfl, hany, if_pos (List.any_eq_true.mpr hany)⟩)
    · refine .inr (.inr ⟨rfl, ?_, if_neg fun h => hany (List.any_eq_true.mp h)⟩)
      simpa using hany

theorem expected_found_iff (fs : FileSystem) (names : List (List UInt8)) (name : List UInt8) :
    (⟨0, some name⟩ : Result) = expected fs names ↔ names.find? fs.runs = some name := by
  rcases expected_cases fs names with ⟨n, hf, he⟩ | ⟨hf, _, he⟩ | ⟨hf, _, he⟩ <;> rw [he, hf]
  · simp [eq_comm]
  · simp
  · simp

theorem probes_eq_nil {dirs : List (List UInt8)} {pathLen : ℕ} (hne : dirs ≠ [])
    (h : probes file pathLen dirs = []) : ∃ dir, dirs = [dir] ∧ pathLen ≤ dir.length := by
  cases dirs with
  | nil => exact absurd rfl hne
  | cons dir dirs =>
    by_cases hd : dirs = []
    · subst hd
      rw [probes] at h
      split at h
      · next hlong => exact ⟨dir, rfl, hlong⟩
      · cases h
    · rw [probes_cons dir hd] at h
      cases h

theorem resolvable_of_found {names rest : List (List UInt8)} {name : List UInt8}
    (hp : probes file env.pathLen env.components = names ++ name :: rest)
    (hnames : ∀ n ∈ names, env.fs.stat n = none)
    (hleft : ∀ i, i < names.length → executable (env.leftover i) = false)
    (hfind : (env.components.map (candidate file)).find? env.fs.runs = some name) :
    Resolvable env file := by
  obtain ⟨pre, dir, post, hc, rfl, rfl⟩ := probes_split hp
  have hpre : ∀ d ∈ pre, env.fs.stat (tried file env.pathLen d) = none :=
    fun d hd => hnames _ (List.mem_map_of_mem hd)
  rw [List.length_map] at hleft
  refine .inr ⟨pre, dir, post, hc, hpre, hleft, List.find?_some hfind, fun hd => ?_⟩
  rw [tried, if_pos hd] at hfind
  exact (find_overlong hc hpre hd).mp hfind

theorem outcome_of_foundFirst {pre post : List (List UInt8)} {dir : List UInt8}
    (hc : env.components = pre ++ dir :: post) (h : FoundFirst env file pre dir post) :
    outcome env 0 false (probes file env.pathLen env.components) =
      expected env.fs (env.components.map (candidate file)) := by
  have hlast : env.pathLen ≤ dir.length → post ≠ [] := by
    rintro hd rfl
    exact absurd (h.overlong hd) (by simp)
  obtain ⟨rest, hrest⟩ := probes_append file pre post hlast
  have hnames : ∀ n ∈ pre.map (tried file env.pathLen), env.fs.stat n = none := by
    intro n hn
    obtain ⟨d, hd, rfl⟩ := List.mem_map.mp hn
    exact h.missing d hd
  have hfound := outcome_found (k := 0) false rest hnames
    (fun i hi => by rw [Nat.zero_add]; exact h.leftover i (by simpa using hi)) (runs_isSome h.runs)
  rw [hc, hrest, hfound, ← hc, expected_found_iff]
  by_cases hd : env.pathLen ≤ dir.length
  · rw [tried, if_pos hd]
    exact (find_overlong hc h.missing hd).mpr (h.overlong hd)
  · have hruns := h.runs
    rw [tried, if_neg hd] at hruns ⊢
    rw [find_candidates hc h.missing, if_pos hruns]

end

theorem findPath_resolves_iff (env : Env) (file : FileName) :
    findPath env file.toCString =
        expected env.fs (env.components.map (candidate file.bytes)) ↔
      Resolvable env file.bytes := by
  rw [findPath_eq_outcome]
  have hne : env.components ≠ [] := List.splitOn_ne_nil _ _
  constructor
  · intro h
    rcases outcome_cases env 0 false (probes file.bytes env.pathLen env.components) with
      ⟨names, name, rest, hp, hnames, hleft, he⟩ | he | ⟨hall, he⟩
    · rw [he, expected_found_iff] at h
      exact resolvable_of_found hp hnames (by simpa using hleft) h
    · rw [he] at h
      rcases expected_cases env.fs (env.components.map (candidate file.bytes)) with
        ⟨n, _, hx⟩ | ⟨_, _, hx⟩ | ⟨_, _, hx⟩ <;> rw [hx] at h <;> cases h
    · -- with nothing found EACCES is returned, although no candidate exists
      by_cases hnil : probes file.bytes env.pathLen env.components = []
      · exact .inl (probes_eq_nil hne hnil)
      · rw [he, if_pos (.inr hnil)] at h
        rcases expected_cases env.fs (env.components.map (candidate file.bytes)) with
          ⟨n, _, hx⟩ | ⟨_, ⟨name, hname, hs⟩, hx⟩ | ⟨_, _, hx⟩
        · rw [hx] at h
          cases h
        · obtain ⟨dir, hdir, rfl⟩ := List.mem_map.mp hname
          by_cases hd : env.pathLen ≤ dir.length
          · rw [stat_overlong file.bytes hdir hd] at hs
            cases hs
          · rw [hall _ (candidate_mem_probes hdir (Nat.not_le.mp hd))] at hs
            cases hs
        · rw [hx] at h
          cases h
  · rintro (⟨dir, hc, hd⟩ | ⟨pre, dir, post, hc, hfound⟩)
    · have hm : dir ∈ env.components := by simp [hc]
      have hs := stat_overlong file.bytes hm hd
      rw [hc, probes, if_pos hd]
      simp [outcome, expected, not_runs_of_stat hs, hs]
    · exact outcome_of_foundFirst hc hfound

/- PATH is "/a", and the only file there is is "/a/x", which nobody may execute. -/
def plainFile : Env where
  fs :=
    { stat := fun name => if name = [47, 97, 47, 120] then some 0o100644 else none
      tooLong := by
        intro name hlen
        rw [if_neg]
        rintro rfl
        exact absurd hlen (by decide) }
  path := some ⟨[47, 97], by decide⟩
  csPath := ⟨[], by decide⟩
  leftover := fun _ => 0

theorem not_resolves_plainFile :
    findPath plainFile ⟨[120], by decide⟩ ≠
      expected plainFile.fs (plainFile.components.map (candidate [120])) := by
  have hpath : plainFile.components = [[47, 97]] := List.splitOn_eq_singleton (by decide)
  have hfound : findPath plainFile ⟨[120], by decide⟩ = ⟨0, some [47, 97, 47, 120]⟩ := by decide
  rw [hpath, hfound]
  decide

end KeepalivedDevel.FindPath
