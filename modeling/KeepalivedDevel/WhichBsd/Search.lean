import KeepalivedDevel.WhichBsd.Code
import KeepalivedDevel.Execvpe.Agreement
import KeepalivedDevel.FindPath.Candidates
import Mathlib.Data.List.Forall2
import Mathlib.Data.List.GetD

/-!
# What `which` prints

The search goes through the components in their order as long as they fit into
`filename`, and ends without success at the first that does not, also if it has
printed something before. Where PATH is tidy it finds what `__execvpe` executes.
-/

namespace KeepalivedDevel.WhichBsd
open CLib FindPath

/-! ### One component -/

/- The directory a component stands for. -/
def dirOf (p : List UInt8) : List UInt8 :=
  if p = [] then [46] else p.rdropWhile (· == slash)

def filename (prog p : List UInt8) : List UInt8 := dirOf p ++ slash :: prog

def fits (prog p : List UInt8) : Bool := (dirOf p).length + 1 + prog.length < pathMax

/-- A component of slashes only. -/
def Slashes (p : List UInt8) : Prop := p ≠ [] ∧ ∀ b ∈ p, b = slash

theorem strip_eq (first : Bool) (p : List UInt8) {n : ℕ} (hn : n ≤ p.length) :
    strip first p n =
      if first = true ∧ (p.take n).rdropWhile (· == slash) = [] then none
      else some ((p.take n).rdropWhile (· == slash)).length := by
  induction n with
  | zero => cases first <;> simp [strip]
  | succ n ih =>
    have hlt : n < p.length := hn
    rw [strip, List.take_add_one, List.getElem?_eq_getElem hlt, Option.toList_some,
      List.rdropWhile_concat, List.getD_eq_getElem p 0 hlt]
    by_cases hslash : p[n] = slash
    · simp only [hslash, if_true, ih (Nat.le_of_lt hlt), beq_self_eq_true]
    · have hne : ¬ (p[n] == slash) = true := by simpa using hslash
      have hnil : p.take n ++ [p[n]] ≠ [] := List.append_ne_nil_of_right_ne_nil _ (by simp)
      rw [if_neg hslash, if_neg hne, if_neg fun h => hnil h.2, List.length_append,
        List.length_take, Nat.min_eq_left (Nat.le_of_lt hlt), List.length_singleton]

theorem component_eq (first : Bool) (p : List UInt8) :
    (first = true ∧ Slashes p ∧ component first p = none) ∨
      (¬ (first = true ∧ Slashes p) ∧ component first p = some (dirOf p)) := by
  by_cases hp : p = []
  · exact .inr ⟨fun h => h.2.1 hp, by simp [component, dirOf, hp]⟩
  · have hstrip := strip_eq first p (Nat.le_refl p.length)
    rw [List.take_length] at hstrip
    have hslashes : p.rdropWhile (· == slash) = [] ↔ Slashes p := by
      simp [List.rdropWhile_eq_nil_iff, Slashes, hp]
    have htake : p.take (p.rdropWhile (· == slash)).length = p.rdropWhile (· == slash) :=
      (List.prefix_iff_eq_take.mp (List.rdropWhile_prefix _ _)).symm
    rw [component, dirOf, if_neg hp, if_neg hp, hstrip]
    by_cases h : first = true ∧ p.rdropWhile (· == slash) = []
    · rw [if_pos h]
      exact .inl ⟨h.1, hslashes.mp h.2, rfl⟩
    · rw [if_neg h, Option.map_some, htake]
      exact .inr ⟨fun h' => h ⟨h'.1, hslashes.mpr h'.2⟩, rfl⟩

/-! ### The search -/

section
variable (files : Files) (prog : List UInt8) (mode : Mode) (allmatches : Bool)

/-- The names found in the components up to the first that is too long. -/
def hits (ps : List (List UInt8)) : List (List UInt8) :=
  ((ps.takeWhile (fits prog)).map (filename prog)).filter files.found

/- What the search returns, with what it has printed before. -/
structure Searched (s : Search) (ps : List (List UInt8)) (r : Result) : Prop where
  printed : r.printed =
    s.printed ++ if allmatches then hits files prog ps else (hits files prog ps).take 1
  rval : r.rval = true ↔
    if ps.all (fits prog) then s.rval = true ∨ hits files prog ps ≠ []
    else allmatches = false ∧ hits files prog ps ≠ []

theorem hits_cons_fits {p : List UInt8} (hp : fits prog p = true) (ps : List (List UInt8)) :
    hits files prog (p :: ps) =
      (if files.found (filename prog p) then [filename prog p] else []) ++ hits files prog ps := by
  rw [hits, List.takeWhile_cons_of_pos hp, List.map_cons, List.filter_cons]
  split <;> rfl

theorem hits_cons_long {p : List UInt8} (hp : fits prog p = false) (ps : List (List UInt8)) :
    hits files prog (p :: ps) = [] := by
  rw [hits, List.takeWhile_cons_of_neg (by simp [hp])]
  rfl

variable {files prog mode allmatches}

theorem search_cons {first : Bool} {p : List UInt8} (hp : ¬ (first = true ∧ Slashes p)) (s : Search)
    (ps : List (List UInt8)) :
    search files prog mode allmatches first s (p :: ps) =
      if !fits prog p then some ⟨s.printed, some (.nameTooLong (dirOf p)), false⟩
      else if files.found (filename prog p) then
        if !allmatches then some ⟨s.printed ++ [filename prog p], none, true⟩
        else search files prog mode allmatches false ⟨s.printed ++ [filename prog p], true⟩ ps
      else search files prog mode allmatches false s ps := by
  obtain ⟨-, hcomponent⟩ := (component_eq first p).resolve_left fun h => hp ⟨h.1, h.2.1⟩
  simp only [search, hcomponent, fits, filename, Bool.not_eq_true', decide_eq_false_iff_not,
    ge_iff_le, Nat.not_lt]

theorem search_searched (ps : List (List UInt8)) {first : Bool}
    (hfirst : first = true → ∀ p ∈ ps.head?, ¬ Slashes p) (s : Search) :
    ∃ r, search files prog mode allmatches first s ps = some r ∧
      Searched files prog allmatches s ps r := by
  induction ps generalizing first s with
  | nil => exact ⟨_, rfl, by simp [hits, Search.done], by simp [hits, Search.done]⟩
  | cons p ps ih =>
    have hp : ¬ (first = true ∧ Slashes p) := fun h => hfirst h.1 p rfl h.2
    rw [search_cons hp]
    have hrest : false = true → ∀ q ∈ ps.head?, ¬ Slashes q := fun h => by cases h
    cases hfits : fits prog p with
    | false =>
      have hhits := hits_cons_long files prog hfits ps
      exact ⟨_, rfl, by simp [hhits], by simp [hhits, hfits]⟩
    | true =>
      have hhits := hits_cons_fits files prog hfits ps
      cases hfound : files.found (filename prog p) with
      | false =>
        obtain ⟨r, hr, hsearched⟩ := ih hrest s
        refine ⟨r, hr, ?_, ?_⟩
        · rw [hsearched.printed, hhits, hfound]
          rfl
        · rw [hsearched.rval, hhits, hfound]
          simp [hfits]
      | true =>
        cases allmatches with
        | false => exact ⟨_, rfl, by simp [hhits, hfound], by simp [hhits, hfound]⟩
        | true =>
          obtain ⟨r, hr, hsearched⟩ := ih hrest ⟨s.printed ++ [filename prog p], true⟩
          refine ⟨r, hr, ?_, ?_⟩
          · rw [hsearched.printed, hhits, hfound]
            simp
          · rw [hsearched.rval, hhits, hfound]
            simp [hfits]

end

section
variable (files : Files) {prog : List UInt8} (hprog : slash ∉ prog) {path : List UInt8} (mode : Mode)
  (allmatches : Bool)
include hprog

theorem findprog_slashes (hfirst : ∃ p ∈ (path.splitOn colon).head?, Slashes p) :
    findprog files prog path mode allmatches = none := by
  obtain ⟨p, hp, hslash⟩ := hfirst
  rw [findprog, if_neg hprog]
  cases hps : path.splitOn colon with
  | nil => exact absurd hps (List.splitOn_ne_nil _ _)
  | cons q ps =>
    rw [hps] at hp
    obtain rfl : q = p := by simpa using hp
    obtain ⟨-, -, hcomponent⟩ := (component_eq true q).resolve_right fun h => h.1 ⟨rfl, hslash⟩
    simp only [search, hcomponent]

theorem findprog_searched (hfirst : ¬ ∃ p ∈ (path.splitOn colon).head?, Slashes p) :
    ∃ r, findprog files prog path mode allmatches = some r ∧
      r.printed = (if allmatches then hits files prog (path.splitOn colon)
        else (hits files prog (path.splitOn colon)).take 1) ∧
      (r.rval = true ↔ hits files prog (path.splitOn colon) ≠ [] ∧
        (allmatches = true → ∀ p ∈ path.splitOn colon, fits prog p = true)) := by
  obtain ⟨r, hr, hsearched⟩ := search_searched (path.splitOn colon)
    (fun _ p hp h => hfirst ⟨p, hp, h⟩) ⟨[], false⟩
  rw [findprog, if_neg hprog]
  refine ⟨r, hr, by simpa using hsearched.printed, ?_⟩
  rw [hsearched.rval]
  by_cases hall : (path.splitOn colon).all (fits prog) = true
  · rw [if_pos hall]
    have hfits := List.all_eq_true.mp hall
    exact ⟨fun h => ⟨h.resolve_left (by simp), fun _ => hfits⟩, fun h => .inr h.1⟩
  · rw [if_neg hall]
    have hfits : ¬ ∀ p ∈ path.splitOn colon, fits prog p = true :=
      fun h => hall (List.all_eq_true.mpr h)
    cases allmatches <;> simp [hfits]

end

/-- A first component of slashes only makes `findprog` read in front of its copy of PATH.
Otherwise it prints what it finds in the components up to the first that is too long, the
first name or all. It returns 0 if it has found nothing, but with `-a` also if it has come
to a component that is too long. -/
theorem findprog_prints (files : Files) (prog : List UInt8) (hprog : slash ∉ prog)
    (path : List UInt8) (mode : Mode) (allmatches : Bool) :
    let found := hits files prog (path.splitOn colon)
    (findprog files prog path mode allmatches = none ↔
      ∃ p ∈ (path.splitOn colon).head?, Slashes p) ∧
    ∀ r, findprog files prog path mode allmatches = some r →
      r.printed = (if allmatches then found else found.take 1) ∧
      (r.rval = true ↔
        found ≠ [] ∧ (allmatches = true → ∀ p ∈ path.splitOn colon, fits prog p = true)) := by
  intro found
  by_cases hfirst : ∃ p ∈ (path.splitOn colon).head?, Slashes p
  · have hnone := findprog_slashes files hprog mode allmatches hfirst
    refine ⟨iff_of_true hnone hfirst, fun r hr => ?_⟩
    cases hnone.symm.trans hr
  · obtain ⟨r, hr, hprinted, hrval⟩ := findprog_searched files hprog mode allmatches hfirst
    refine ⟨iff_of_false (fun h => ?_) hfirst, fun r' hr' => ?_⟩
    · cases hr.symm.trans h
    · obtain rfl := Option.some.inj (hr.symm.trans hr')
      exact ⟨hprinted, hrval⟩

/- PATH is "/", or "a" where "a/x" may be executed. -/
def oneFile : Files where
  stat := fun name => if name = [97, 47, 120] then some 0o100755 else none
  tooLong := by
    intro name hlen
    rw [if_neg]
    intro hname
    rw [hname] at hlen
    exact absurd hlen (by decide)
  access := fun _ => true

theorem findprog_prints_slash :
    findprog oneFile [120] [47] .which false = none ∧
      ∀ r, findprog oneFile [120] [97] .which true = some r → r.printed = [[97, 47, 120]] := by
  have hsplit : ([47] : List UInt8).splitOn colon = [[47]] := by decide
  refine ⟨(findprog_prints oneFile [120] (by decide) [47] .which false).1.mpr ?_, fun r hr => ?_⟩
  · exact ⟨[47], by rw [hsplit]; rfl, by decide, List.forall_mem_singleton.mpr rfl⟩
  · rw [((findprog_prints oneFile [120] (by decide) [97] .which true).2 r hr).1]
    decide

/-! ### The exit status -/

section
variable (files : Files) (path : List UInt8) (allmatches : Bool) (prog : List UInt8)

/-- The names that are printed for a program. -/
def shown : List (List UInt8) :=
  if slash ∈ prog then if files.found prog then [prog] else []
  else if allmatches then hits files prog (path.splitOn colon)
  else (hits files prog (path.splitOn colon)).take 1

/-- Whether a program is taken for found: with `-a` it is not if some component is too long
for it, although names may have been printed. -/
def Counted : Prop :=
  shown files path allmatches prog ≠ [] ∧
    (allmatches = true → slash ∉ prog → ∀ p ∈ path.splitOn colon, fits prog p = true)

end

section
variable (files : Files) (path : List UInt8) (mode : Mode) (allmatches : Bool) (prog : List UInt8)

theorem findprog_eq_none_iff :
    findprog files prog path mode allmatches = none ↔
      slash ∉ prog ∧ ∃ p ∈ (path.splitOn colon).head?, Slashes p := by
  by_cases hslash : slash ∈ prog
  · rw [findprog, if_pos hslash]
    refine iff_of_false ?_ fun h => h.1 hslash
    split <;> simp
  · by_cases hfirst : ∃ p ∈ (path.splitOn colon).head?, Slashes p
    · exact iff_of_true (findprog_slashes files hslash mode allmatches hfirst) ⟨hslash, hfirst⟩
    · obtain ⟨r, hr, -⟩ := findprog_searched files hslash mode allmatches hfirst
      exact iff_of_false (by simp [hr]) fun h => hfirst h.2

variable {files path mode allmatches prog}

theorem findprog_counted {r : Result} (h : findprog files prog path mode allmatches = some r) :
    r.printed = shown files path allmatches prog ∧
      (r.rval = true ↔ Counted files path allmatches prog) := by
  by_cases hslash : slash ∈ prog
  · rw [findprog, if_pos hslash] at h
    cases hfound : files.found prog with
    | true =>
      obtain rfl : _ = r := by simpa [hfound] using h
      simp [shown, Counted, hslash, hfound]
    | false =>
      obtain rfl : _ = r := by simpa [hfound] using h
      simp [shown, Counted, hslash, hfound]
  · have hfirst : ¬ ∃ p ∈ (path.splitOn colon).head?, Slashes p := by
      intro hfirst
      rw [(findprog_eq_none_iff ..).mpr ⟨hslash, hfirst⟩] at h
      cases h
    obtain ⟨r', hr', hprinted, hrval⟩ := findprog_searched files hslash mode allmatches hfirst
    obtain rfl := Option.some.inj (hr'.symm.trans h)
    have hshown : r'.printed = shown files path allmatches prog := by rw [hprinted, shown, if_neg hslash]
    refine ⟨hshown, hrval.trans ?_⟩
    rw [Counted, ← hshown, hprinted]
    cases allmatches <;> simp [hslash]

end

theorem mapM_eq_none_iff {α β : Type} {f : α → Option β} {xs : List α} :
    xs.mapM f = none ↔ ∃ x ∈ xs, f x = none := by
  induction xs with
  | nil => simp
  | cons x xs ih =>
    rw [List.mapM_cons, List.exists_mem_cons_iff]
    cases hx : f x with
    | none => simp
    | some y =>
      rw [← ih]
      cases xs.mapM f <;> simp

theorem forall₂_of_mapM {α β : Type} {f : α → Option β} {xs : List α} {ys : List β}
    (h : xs.mapM f = some ys) : List.Forall₂ (fun x y => f x = some y) xs ys := by
  induction xs generalizing ys with
  | nil =>
    obtain rfl : [] = ys := by simpa using h
    exact .nil
  | cons x xs ih =>
    rw [List.mapM_cons] at h
    obtain ⟨y, hy, h⟩ := Option.bind_eq_some_iff.mp h
    obtain ⟨zs, hzs, h⟩ := Option.bind_eq_some_iff.mp h
    obtain rfl := Option.some.inj h
    exact .cons hy (ih hzs)

/- A property of what is returned for each program, as one of the programs. -/
theorem forall_iff_of_forall₂ {α β : Type} {R : α → β → Prop} {P : α → Prop} {Q : β → Prop}
    {xs : List α} {ys : List β} (h : List.Forall₂ R xs ys) (hR : ∀ x y, R x y → (Q y ↔ P x)) :
    (∀ y ∈ ys, Q y) ↔ ∀ x ∈ xs, P x := by
  induction h with
  | nil => simp
  | cons hxy _ ih => rw [List.forall_mem_cons, List.forall_mem_cons, hR _ _ hxy, ih]

theorem exitStatus_eq_zero_iff (results : List Result) (argc : ℕ) :
    exitStatus (results.countP fun r => !r.rval) argc = 0 ↔ ∀ r ∈ results, r.rval = true := by
  have hcount : (results.countP fun r => !r.rval) = 0 ↔ ∀ r ∈ results, r.rval = true := by
    simp [List.countP_eq_zero]
  rw [← hcount, exitStatus]
  split
  · simp_all
  · split <;> simp_all

theorem exitStatus_eq_two_iff {results : List Result} (hne : results ≠ []) :
    exitStatus (results.countP fun r => !r.rval) results.length = 2 ↔
      ∀ r ∈ results, r.rval = false := by
  have hcount : (results.countP fun r => !r.rval) = results.length ↔ ∀ r ∈ results, r.rval = false := by
    simp [List.countP_eq_length]
  have hpos : 0 < results.length := List.length_pos_of_ne_nil hne
  rw [← hcount, exitStatus]
  split
  · omega
  · split <;> simp_all

theorem which_eq_map {files : Files} {path : List UInt8} {mode : Mode} {allmatches : Bool}
    {progs : List (List UInt8)} (hne : progs ≠ []) :
    which files path mode allmatches progs =
      (progs.mapM fun prog => findprog files prog path mode allmatches).map fun results =>
        ⟨results.map Result.printed, exitStatus (results.countP fun r => !r.rval) progs.length⟩ := by
  rw [which, if_neg hne]
  cases progs.mapM fun prog => findprog files prog path mode allmatches with
  | none => rfl
  | some results => rfl

/- `access` that goes by the mode as well, whoever asks. -/
def filesOf (fs : FileSystem) : Files where
  toFileSystem := fs
  access := fun name => (fs.stat name).any fun mode => mode &&& sIxany ≠ 0

theorem found_filesOf (fs : FileSystem) : (filesOf fs).found = fs.runs := by
  funext name
  show ((fs.stat name).any sIsreg && (fs.stat name).any fun mode => mode &&& sIxany ≠ 0) = _
  rw [FileSystem.runs]
  cases fs.stat name <;> simp [executable]

section
variable {env : Env} {prog : List UInt8}

/-- No component is empty or ends with a slash, and they all fit. -/
def Tidy (env : Env) (prog : List UInt8) : Prop :=
  ∀ p ∈ env.components, dirOf p = p ∧ fits prog p = true

theorem Tidy.ne_nil (h : Tidy env prog) {p : List UInt8} (hp : p ∈ env.components) : p ≠ [] := by
  intro hnil
  have hdir := (h p hp).1
  simp [dirOf, hnil] at hdir

theorem Tidy.not_slashes (h : Tidy env prog) {p : List UInt8} (hp : p ∈ env.components) :
    ¬ Slashes p := by
  intro hslashes
  have hdir := (h p hp).1
  rw [dirOf, if_neg hslashes.1, List.rdropWhile_eq_nil_iff.mpr (by simpa using hslashes.2)] at hdir
  exact hslashes.1 hdir.symm

theorem Tidy.hits_eq (h : Tidy env prog) (files : Files) :
    hits files prog env.components = (env.components.map (candidate prog)).filter files.found := by
  have hall : env.components.takeWhile (fits prog) = env.components :=
    List.takeWhile_eq_self_iff.mpr fun p hp => (h p hp).2
  have hnames : env.components.map (filename prog) = env.components.map (candidate prog) := by
    refine List.map_congr_left fun p hp => ?_
    rw [filename, candidate, if_neg (h.ne_nil hp), (h p hp).1]
  rw [hits, hall, hnames]

theorem Tidy.probes_eq (h : Tidy env prog) :
    probes prog env.pathLen env.components = env.components.map (candidate prog) := by
  have hshort : ∀ p ∈ env.components, p.length < env.pathLen := by
    intro p hp
    have hle := length_le_of_mem_splitOn hp
    have hfits := (h p hp).2
    simp only [fits, decide_eq_true_eq, (h p hp).1] at hfits
    unfold Env.pathLen
    omega
  have hne : env.components ≠ [] := List.splitOn_ne_nil _ _
  rw [(probes_eq_usable_iff prog env.pathLen hne).mpr fun p hp =>
    hshort p (List.dropLast_subset _ hp), List.filter_eq_self.mpr]
  simpa using hshort

end

/-- With a tidy PATH the name `which` prints is the program `__execvpe` executes. -/
theorem which_prints_executed (env : Env) (path : CString) (hpath : env.path = some path)
    (prog : FileName) (htidy : Tidy env prog.bytes) (mode : Mode) (kernel : Execvpe.Kernel)
    (argv : List (List UInt8)) (hkernel : Execvpe.ByMode env.fs argv kernel) (errno : ℤ)
    (behind : Execvpe.Pointers) (name : List UInt8) :
    (∃ r, findprog (filesOf env.fs) prog.bytes path.bytes mode false = some r ∧
      r.printed = [name]) ↔
      Execvpe.execvpe env kernel errno prog.toCString argv behind = .executed name argv := by
  have hcomponents : path.bytes.splitOn colon = env.components := by
    rw [Env.components, Env.pathValue, hpath, Option.getD_some]
  have hfirst : ¬ ∃ p ∈ (path.bytes.splitOn colon).head?, Slashes p := by
    rw [hcomponents]
    rintro ⟨p, hp, hslashes⟩
    exact htidy.not_slashes (List.mem_of_mem_head? hp) hslashes
  obtain ⟨r, hr, hprinted, -⟩ := findprog_searched (filesOf env.fs) prog.noSlash mode false hfirst
  rw [hcomponents, htidy.hits_eq, found_filesOf, if_neg (by simp), List.take_one,
    List.head?_filter] at hprinted
  rw [Execvpe.execvpe_eq_outcome, hkernel.outcome, htidy.probes_eq]
  constructor
  · rintro ⟨r', hr', hname⟩
    obtain rfl := Option.some.inj (hr.symm.trans hr')
    rw [hprinted] at hname
    exact Option.toList_eq_singleton_iff.mp hname
  · intro hfind
    refine ⟨r, hr, ?_⟩
    rw [hprinted, hfind]
    rfl

theorem tidy_twoFiles : Tidy Execvpe.twoFiles Execvpe.fileX.bytes := by
  have hcomponents : Execvpe.twoFiles.components = [[97], [98]] := by decide
  rw [Tidy, hcomponents]
  decide

theorem which_prints_executed_twoFiles :
    (∃ r, findprog (filesOf Execvpe.twoFiles.fs) [120] [97, 58, 98] .which false = some r ∧
      r.printed = [[98, 47, 120]]) ↔
      Execvpe.execvpe Execvpe.twoFiles (Execvpe.modeKernel Execvpe.twoFiles.fs) 0
        Execvpe.fileX.toCString [[120]] [none] = .executed [98, 47, 120] [[120]] :=
  which_prints_executed Execvpe.twoFiles ⟨[97, 58, 98], by decide⟩ rfl Execvpe.fileX tidy_twoFiles
    .which _ [[120]] (Execvpe.byMode_modeKernel _ _) 0 [none] [98, 47, 120]

end KeepalivedDevel.WhichBsd
