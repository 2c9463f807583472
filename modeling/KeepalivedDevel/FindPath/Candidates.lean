import KeepalivedDevel.FindPath.Resolve
import KeepalivedDevel.CLib.Buffer

/-!
# The names `find_path` looks up

The sequence of names given to `stat` and the buffer they are put together in,
whatever the lookups say: `searchBody` takes any answers. As long as they send
the search on, it looks up the names `probes` lists, which are those of the
components only if no component that is too long stands before the last one.
-/

namespace KeepalivedDevel.FindPath
open CLib CLib.While

/-! ### The sequence of names -/

/- What a pass looks up. -/
def Search.lookedUp (file : List UInt8) (pathLen : ℕ) (s : Search) : List (List UInt8) :=
  if pathLen ≤ s.dir.length then [] else [candidate file s.dir]

def loopNames (ret : ℕ → List UInt8 → ℤ) (file : List UInt8) (pathLen : ℕ) (s : Search) :
    List (List UInt8) :=
  (visits (searchBody ret file pathLen) (fun s => s.p.length) s).flatMap
    (Search.lookedUp file pathLen)

/-- The names `find_path` gives to `stat`, with the tests it makes before the loop. -/
def namesProbed (env : Env) (ret : ℕ → List UInt8 → ℤ) (file : CString) : List (List UInt8) :=
  if file.bytes = [] then []
  else if pathMax ≤ file.bytes.length then []
  else if (strchr slash file.bytes).isSome then []
  else if nameMax < min file.bytes.length (nameMax + 1) then []
  else loopNames ret file.bytes env.pathLen ⟨env.pathValue, false, []⟩

/-- Answers none of which ends the search. -/
structure TryNext where
  ret : ℕ → List UInt8 → ℤ
  notFound : ∀ k name, ret k name ≠ 0
  notOther : ∀ k name, switch (ret k name) ≠ .other

section
variable (answers : TryNext) (file : List UInt8) {pathLen : ℕ} {dir : List UInt8}

theorem afterProbe_tryNext (s : Search) (buffer : List UInt8) (k : ℕ) :
    ∃ got, s.afterProbe buffer (answers.ret k buffer) = s.next got buffer := by
  rw [Search.afterProbe, if_neg (answers.notFound k buffer)]
  cases hs : switch (answers.ret k buffer) with
  | denied => exact ⟨true, rfl⟩
  | missing => exact ⟨s.gotEacces, rfl⟩
  | other => exact absurd hs (answers.notOther k buffer)

theorem loopNames_short (hc : colon ∉ dir) (hd : dir.length < pathLen) (rest : List UInt8)
    (got : Bool) (probed : List (List UInt8)) :
    ∃ got' probed', loopNames answers.ret file pathLen ⟨dir ++ colon :: rest, got, probed⟩ =
      candidate file dir :: loopNames answers.ret file pathLen ⟨rest, got', probed'⟩ := by
  have hdir := dir_before_colon hc rest got probed
  obtain ⟨got', hnext⟩ := afterProbe_tryNext answers ⟨dir ++ colon :: rest, got, probed⟩
    (candidate file dir) probed.length
  have hbody : searchBody answers.ret file pathLen ⟨dir ++ colon :: rest, got, probed⟩ =
      .again ⟨rest, got', probed ++ [candidate file dir]⟩ := by
    rw [searchBody, hdir, if_neg (Nat.not_le.mpr hd), hnext, Search.next, strchr_append rest hc]
  refine ⟨got', probed ++ [candidate file dir], ?_⟩
  rw [loopNames, visits_again (searchBody_decreases _ _ (by omega)) hbody, List.flatMap_cons,
    Search.lookedUp, hdir, if_neg (Nat.not_le.mpr hd)]
  rfl

theorem loopNames_last (hc : colon ∉ dir) (hd : dir.length < pathLen) (got : Bool)
    (probed : List (List UInt8)) :
    loopNames answers.ret file pathLen ⟨dir, got, probed⟩ = [candidate file dir] := by
  have hdir := dir_last hc got probed
  obtain ⟨got', hnext⟩ := afterProbe_tryNext answers ⟨dir, got, probed⟩
    (candidate file dir) probed.length
  have hbody : searchBody answers.ret file pathLen ⟨dir, got, probed⟩ =
      .leave (Search.exhausted ⟨dir, got', probed⟩) := by
    rw [searchBody, hdir, if_neg (Nat.not_le.mpr hd), hnext, Search.next, strchr_eq_none hc]
  rw [loopNames, visits_leave _ hbody, List.flatMap_singleton, Search.lookedUp, hdir,
    if_neg (Nat.not_le.mpr hd)]

theorem loopNames_long (ret : ℕ → List UInt8 → ℤ) (hpos : 0 < pathLen) (hc : colon ∉ dir)
    (hd : pathLen ≤ dir.length) (rest : List UInt8) (got : Bool) (probed : List (List UInt8)) :
    loopNames ret file pathLen ⟨dir ++ colon :: rest, got, probed⟩ =
      loopNames ret file pathLen ⟨colon :: rest, got, probed⟩ := by
  have hbody := searchBody_long ret file hc hd rest got probed
  rw [loopNames, visits_again (searchBody_decreases _ _ hpos) hbody, List.flatMap_cons,
    Search.lookedUp, dir_before_colon hc, if_pos hd]
  rfl

theorem loopNames_long_last (ret : ℕ → List UInt8 → ℤ) (hc : colon ∉ dir)
    (hd : pathLen ≤ dir.length) (got : Bool) (probed : List (List UInt8)) :
    loopNames ret file pathLen ⟨dir, got, probed⟩ = [] := by
  have hbody := searchBody_long_last ret file hc hd got probed
  rw [loopNames, visits_leave _ hbody, List.flatMap_singleton, Search.lookedUp, dir_last hc,
    if_pos hd]

theorem loopNames_eq_probes (hpos : 0 < pathLen) (dirs : List (List UInt8)) (hne : dirs ≠ [])
    (hc : ∀ dir ∈ dirs, colon ∉ dir) (got : Bool) (probed : List (List UInt8)) :
    loopNames answers.ret file pathLen ⟨[colon].intercalate dirs, got, probed⟩ =
      probes file pathLen dirs := by
  induction dirs generalizing got probed with
  | nil => exact absurd rfl hne
  | cons dir dirs ih =>
    have hdir := hc dir (List.mem_cons_self ..)
    cases dirs with
    | nil =>
      rw [List.intercalate_singleton, probes]
      by_cases hd : pathLen ≤ dir.length
      · rw [if_pos hd]
        exact loopNames_long_last file answers.ret hdir hd got probed
      · rw [if_neg hd]
        exact loopNames_last answers file hdir (Nat.not_le.mp hd) got probed
    | cons next dirs =>
      have hrest := ih (by simp) fun d hd => hc d (List.mem_cons_of_mem _ hd)
      rw [List.intercalate_cons_cons, List.append_assoc, List.singleton_append, probes, tried]
      by_cases hd : pathLen ≤ dir.length
      · rw [loopNames_long file answers.ret hpos hdir hd, if_pos hd]
        obtain ⟨got', probed', he⟩ := loopNames_short answers file List.not_mem_nil hpos
          ([colon].intercalate (next :: dirs)) got probed
        rw [List.nil_append] at he
        rw [he, hrest, candidate, if_pos rfl]
      · rw [if_neg hd]
        obtain ⟨got', probed', he⟩ := loopNames_short answers file hdir (Nat.not_le.mp hd)
          ([colon].intercalate (next :: dirs)) got probed
        rw [he, hrest]

end

/-! ### One name for each component -/

/- A file name of at most NAME_MAX bytes without a slash, the empty one included. -/
structure BareName extends CString where
  noSlash : slash ∉ bytes
  short : bytes.length ≤ nameMax

/- The components that fit into the buffer. -/
def Env.usable (env : Env) : List (List UInt8) :=
  env.components.filter fun dir => dir.length < env.pathLen

theorem namesProbed_eq_probes (env : Env) (answers : TryNext) (file : BareName)
    (hne : file.bytes ≠ []) :
    namesProbed env answers.ret file.toCString =
      probes file.bytes env.pathLen env.components := by
  obtain ⟨hpath, hname⟩ := length_checks file.short
  have hpos : 0 < env.pathLen := Nat.succ_pos _
  have hloop := loopNames_eq_probes answers file.bytes hpos env.components
    (List.splitOn_ne_nil _ _) (fun dir hdir => not_mem_of_mem_splitOn hdir) false []
  rw [Env.components, List.intercalate_splitOn] at hloop
  rw [namesProbed, if_neg hne, if_neg hpath, strchr_eq_none file.noSlash, if_neg (by simp),
    if_neg hname]
  exact hloop

theorem probes_singleton (file : List UInt8) (pathLen : ℕ) (dir : List UInt8) :
    probes file pathLen [dir] =
      ([dir].filter fun dir => dir.length < pathLen).map (candidate file) := by
  by_cases hd : pathLen ≤ dir.length
  · simp [probes, hd]
  · simp [probes, hd, Nat.not_le.mp hd]

theorem length_usable_le_probes (file : List UInt8) (pathLen : ℕ) (dirs : List (List UInt8)) :
    (dirs.filter fun dir => dir.length < pathLen).length ≤ (probes file pathLen dirs).length := by
  induction dirs with
  | nil => exact Nat.le_refl 0
  | cons dir dirs ih =>
    by_cases hnil : dirs = []
    · rw [hnil, probes_singleton, List.length_map]
    · rw [probes_cons dir hnil, List.length_cons, List.filter_cons]
      split
      · rw [List.length_cons]
        omega
      · omega

theorem probes_eq_usable_iff (file : List UInt8) (pathLen : ℕ) {dirs : List (List UInt8)}
    (hne : dirs ≠ []) :
    probes file pathLen dirs =
        (dirs.filter fun dir => dir.length < pathLen).map (candidate file) ↔
      ∀ dir ∈ dirs.dropLast, dir.length < pathLen := by
  induction dirs with
  | nil => exact absurd rfl hne
  | cons dir dirs ih =>
    by_cases hnil : dirs = []
    · simp [hnil, probes_singleton]
    · rw [probes_cons dir hnil, List.dropLast_cons_of_ne_nil hnil, List.forall_mem_cons,
        List.filter_cons]
      by_cases hd : dir.length < pathLen
      · have htried : tried file pathLen dir = candidate file dir := if_neg (Nat.not_le.mpr hd)
        simp only [hd, decide_true, ite_true, List.map_cons, htried, List.cons.injEq, true_and]
        exact ih hnil
      · -- the bare name is one name too many
        simp only [hd, decide_false, Bool.false_eq_true, ite_false, false_and, iff_false]
        intro h
        have hlen := congrArg List.length h
        have hle := length_usable_le_probes file pathLen dirs
        rw [List.length_cons, List.length_map] at hlen
        omega

theorem namesProbed_eq_usable_iff (env : Env) (answers : TryNext) (file : BareName) :
    namesProbed env answers.ret file.toCString = env.usable.map (candidate file.bytes) ↔
      if file.bytes = [] then ∀ dir ∈ env.components, env.pathLen ≤ dir.length
      else ∀ dir ∈ env.components.dropLast, dir.length < env.pathLen := by
  by_cases hfile : file.bytes = []
  · rw [namesProbed, if_pos hfile, if_pos hfile, eq_comm, List.map_eq_nil_iff, Env.usable,
      List.filter_eq_nil_iff]
    simp
  · rw [namesProbed_eq_probes env answers file hfile, if_neg hfile]
    exact probes_eq_usable_iff file.bytes env.pathLen (List.splitOn_ne_nil _ _)

def longDir : List UInt8 := List.replicate 4096 97

theorem longDir_length : longDir.length = 4096 := List.length_replicate

theorem mem_longDir {c : UInt8} (h : c ∈ longDir) : c = 97 := List.eq_of_mem_replicate h

/- PATH is a component of PATH_MAX bytes and "b"; nothing exists. -/
def longFirst : Env where
  fs := ⟨fun _ => none, fun _ _ => rfl⟩
  path := some ⟨longDir ++ [58, 98], fun h => by
    rcases List.mem_append.mp h with h | h
    · exact absurd (mem_longDir h) (by decide)
    · exact absurd h (by decide)⟩
  csPath := ⟨[47, 98], by decide⟩
  leftover := fun _ => 0

def denied : TryNext where
  ret := fun _ _ => eacces
  notFound := fun _ _ => by decide
  notOther := fun _ _ => by decide

theorem longFirst_components : longFirst.components = [longDir, [98]] := by
  have hcolon : ∀ dir ∈ [longDir, [98]], colon ∉ dir := by
    intro dir hdir hc
    rcases List.mem_cons.mp hdir with rfl | hdir
    · exact absurd (mem_longDir hc) (by decide)
    · rw [List.mem_singleton.mp hdir] at hc
      exact absurd hc (by decide)
  have hsplit := List.splitOn_intercalate colon hcolon (List.cons_ne_nil _ _)
  rwa [List.intercalate_cons_cons, List.intercalate_singleton, List.append_assoc] at hsplit

theorem longFirst_pathLen : longFirst.pathLen = 4096 := by
  have hlen : longFirst.pathValue.length = 4098 := by
    show (longDir ++ [58, 98]).length = 4098
    rw [List.length_append, longDir_length]
    rfl
  rw [Env.pathLen, hlen]
  rfl

theorem namesProbed_longFirst :
    namesProbed longFirst denied.ret ⟨[120], by decide⟩ = [[120], [98, 47, 120]] ∧
      longFirst.usable.map (candidate [120]) = [[98, 47, 120]] := by
  constructor
  · have hprobes := namesProbed_eq_probes longFirst denied
      ⟨⟨[120], by decide⟩, by decide, by decide⟩ (by decide)
    rw [longFirst_components, longFirst_pathLen] at hprobes
    rw [hprobes]
    simp [probes, tried, candidate, longDir_length]
  · rw [Env.usable, longFirst_components, longFirst_pathLen]
    simp [candidate, longDir_length]

/-! ### The buffer -/

-- strnlen (file, NAME_MAX + 1)
def fileLen (file : List UInt8) : ℕ := min file.length (nameMax + 1)

/-- The candidate name put together in `buffer` (`find_path.c:104-106`). The slash
behind an empty component is overwritten by the file name. -/
def fill (buffer dir file : List UInt8) : Option (List UInt8) := do
  let buffer ← store buffer 0 dir
  let buffer ← store buffer dir.length [slash]
  store buffer (dir.length + if dir = [] then 0 else 1) ((file ++ [0]).take (fileLen file + 1))

/- A file name that gets through the length checks. -/
structure CheckedName extends CString where
  fitsPath : ¬ pathMax ≤ bytes.length
  fitsName : ¬ nameMax < fileLen bytes

theorem CheckedName.fileLen_eq (file : CheckedName) : fileLen file.bytes = file.bytes.length := by
  have h := file.fitsName
  unfold fileLen at h ⊢
  omega

/- The slash of a component of `pathLen - 1` bytes and the NUL behind the name take
the last bytes of the buffer. -/
theorem fill_eq (file : CheckedName) {dir buffer : List UInt8} {pathLen : ℕ}
    (hd : dir.length < pathLen) (hb : buffer.length = pathLen + fileLen file.bytes + 1) :
    ∃ rest, fill buffer dir file.bytes = some (candidate file.bytes dir ++ 0 :: rest) ∧
      (candidate file.bytes dir ++ 0 :: rest).length = buffer.length := by
  have hcopy : (file.bytes ++ [0]).take (fileLen file.bytes + 1) = file.bytes ++ [0] := by
    apply List.take_of_length_le
    rw [file.fileLen_eq, List.length_append]
    exact Nat.le_refl _
  rw [file.fileLen_eq] at hb
  have hlen : (file.bytes ++ [0]).length = file.bytes.length + 1 := List.length_append
  have hdir := store_behind [] buffer dir (by omega)
  rw [List.nil_append, List.nil_append, List.length_nil] at hdir
  have hslash := store_behind dir (buffer.drop dir.length) [slash]
    (by rw [List.length_drop]; simp only [List.length_singleton]; omega)
  have hstart : fill buffer dir file.bytes =
      store (dir ++ [slash] ++ (buffer.drop dir.length).drop 1)
        (dir.length + if dir = [] then 0 else 1) (file.bytes ++ [0]) := by
    rw [fill, hcopy]
    simp [hdir, hslash]
  by_cases hempty : dir = []
  · subst hempty
    have hfile := store_behind [] ([slash] ++ (buffer.drop 0).drop 1) (file.bytes ++ [0])
      (by simp only [List.length_append, List.length_singleton, List.length_drop]; omega)
    rw [hstart, if_pos rfl, candidate, if_pos rfl]
    refine ⟨([slash] ++ (buffer.drop 0).drop 1).drop (file.bytes ++ [0]).length, ?_, ?_⟩
    · simpa using hfile
    · simp only [List.length_append, List.length_cons, List.length_drop, List.length_nil]
      omega
  · have hfile := store_behind (dir ++ [slash]) ((buffer.drop dir.length).drop 1) (file.bytes ++ [0])
      (by rw [hlen, List.length_drop, List.length_drop]; omega)
    rw [List.length_append, List.length_singleton] at hfile
    rw [hstart, if_neg hempty, hfile, candidate, if_neg hempty]
    refine ⟨((buffer.drop dir.length).drop 1).drop (file.bytes ++ [0]).length, by simp, ?_⟩
    simp only [List.length_append, List.length_cons, List.length_drop, List.length_nil]
    omega

theorem mem_of_mem_dir {s : Search} {c : UInt8} (h : c ∈ s.dir) : c ∈ s.p := by
  unfold Search.dir at h
  cases hp : strchr colon s.p with
  | none => simpa [hp] using h
  | some subp =>
    rw [(strchr_some hp).1]
    simp only [hp, Option.map_some, Option.getD_some] at h
    exact List.mem_append_left _ h

/- The rest of PATH never has bytes that PATH does not have. -/
theorem reaches_subset {ret : ℕ → List UInt8 → ℤ} {file : List UInt8} {pathLen : ℕ} {s t : Search}
    (h : Reaches (searchBody ret file pathLen) s t) : t.p ⊆ s.p := by
  induction h with
  | enter => exact List.Subset.refl _
  | @pass t u _ hb ih =>
    obtain ⟨subp, hp, hu⟩ := searchBody_again hb
    have hsub : u.p ⊆ t.p := by
      rw [(strchr_some hp).1]
      rcases hu with hu | ⟨_, hu⟩ <;> rw [hu]
      · exact fun c hc => List.mem_append_right _ (List.mem_cons_of_mem _ hc)
      · exact List.subset_append_right _ _
    exact List.Subset.trans hsub ih

theorem candidate_nulFree {file dir : List UInt8} (hf : 0 ∉ file) (hd : 0 ∉ dir) :
    0 ∉ candidate file dir := by
  unfold candidate
  split
  · exact hf
  · simp only [List.mem_append, List.mem_cons, hf, hd, or_false, false_or]
    decide

theorem search_terminates_and_fits (env : Env) (ret : ℕ → List UInt8 → ℤ) (file : CheckedName) :
    (∃ r, Ends (searchBody ret file.bytes env.pathLen) ⟨env.pathValue, false, []⟩ r) ∧
      ∀ s, Reaches (searchBody ret file.bytes env.pathLen) ⟨env.pathValue, false, []⟩ s →
        s.dir.length < env.pathLen →
        ∀ buffer : List UInt8, buffer.length = env.pathLen + fileLen file.bytes + 1 →
          ∃ filled, fill buffer s.dir file.bytes = some filled ∧
            filled.length = buffer.length ∧ (candidate file.bytes s.dir).length < buffer.length ∧
            cstr filled = candidate file.bytes s.dir := by
  have hdec := searchBody_decreases ret file.bytes (Nat.succ_pos _ : 0 < env.pathLen)
  constructor
  · exact ⟨_, ends_run hdec _⟩
  · intro s hs hd buffer hb
    obtain ⟨rest, hfill, hlen⟩ := fill_eq file hd hb
    have hnul : 0 ∉ s.dir := fun h =>
      (env.path.getD env.csPath).nulFree (reaches_subset hs (mem_of_mem_dir h))
    refine ⟨_, hfill, hlen, ?_, cstr_append_nul (candidate_nulFree file.nulFree hnul) rest⟩
    rw [← hlen, List.length_append, List.length_cons]
    omega

end KeepalivedDevel.FindPath
