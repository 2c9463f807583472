import KeepalivedDevel.ShLib.Words
import Mathlib.Data.List.Sort

/-!
# `patches_find_changes`

Each build is compared with the one after it. The builds that differ from a neighbour
are collected in `PATCH_CHG`, the pairs that differ in `PATCH_DIFF`, and the following
stages start one background job for each word of one of these lists.
-/

namespace KeepalivedDevel.PatchesFindChanges
open CLib ShLib

/-- A directory below `builds`: the number at the front of a patch. -/
structure Patch where
  num : List UInt8
  length : num.length = 3
  digits : ∀ b ∈ num, isdigit b = true
  deriving DecidableEq

/-- A `.diff` file: its name, and whether there is nothing in it. -/
structure DiffFile where
  name : List UInt8
  isEmpty : Bool
  deriving DecidableEq

/- `a-b` -/
def pairText (a b : Patch) : List UInt8 := a.num ++ 45 :: b.num

-- builds/readelf
def readelfPath : List UInt8 := [98, 117, 105, 108, 100, 115, 47, 114, 101, 97, 100, 101, 108, 102]

-- .diff
def diffEnd : List UInt8 := [46, 100, 105, 102, 102]

variable (op : Patch → List UInt8)

/- `diff` has nothing to say of equal files. -/
def diffFile (a b : Patch) : DiffFile :=
  ⟨readelfPath ++ 45 :: (pairText a b ++ diffEnd), op a = op b⟩

/- The jobs of the second stage (`patches_find_changes:30-32`). -/
def diffFiles (builds : List Patch) : List DiffFile := List.zipWith (diffFile op) builds builds.tail

/- The names in a directory come in their order, in whatever order they were made. -/
def glob (files : List DiffFile) : List DiffFile := files.mergeSort fun f g => f.name ≤ g.name

structure Found where
  patchChg : List UInt8
  patchDiff : List UInt8
  deriving DecidableEq

/- The body of the loop (`patches_find_changes:40-50`). -/
def findDir (s : Found) (f : DiffFile) : Found :=
  if f.isEmpty then s
  else
    let patches := removeShortest (diffEnd.map .char) (removeFront [.star, .char 45] f.name)
    let p1 := removeShortest [.char 45, .star] patches
    let p2 := removeFront [.star, .char 45] patches
    let chg := if listed s.patchChg p1 then s.patchChg else s.patchChg ++ 32 :: p1
    ⟨chg ++ 32 :: p2, s.patchDiff ++ 32 :: patches⟩

def findDirs (files : List DiffFile) : Found := files.foldl findDir ⟨[], []⟩

/-! ### The names -/

theorem Patch.isWord (p : Patch) : IsWord p.num where
  ne_nil h := absurd (h ▸ p.length) (by decide)
  not_mem_ifs b hb := by
    have hdigit := p.digits b hb
    intro hmem
    simp only [ifs, List.mem_cons, List.not_mem_nil, or_false] at hmem
    rcases hmem with rfl | rfl | rfl <;> exact absurd hdigit (by decide)

theorem Patch.not_mem_dash (p : Patch) : 45 ∉ p.num := fun hmem =>
  absurd (p.digits 45 hmem) (by decide)

theorem Patch.num_inj {p q : Patch} (h : p.num = q.num) : p = q := by
  cases p
  cases q
  cases h
  rfl

theorem isWord_pairText (a b : Patch) : IsWord (pairText a b) where
  ne_nil := by simp [pairText]
  not_mem_ifs c hc := by
    rw [pairText, List.mem_append, List.mem_cons] at hc
    rcases hc with hc | rfl | hc
    · exact a.isWord.not_mem_ifs c hc
    · decide
    · exact b.isWord.not_mem_ifs c hc

theorem beforeSuffix_dash (b : Patch) :
    beforeSuffix [.char 45, .star] (45 :: b.num) = some [] := by
  rw [beforeSuffix_cons (beforeSuffix_none _ b.not_mem_dash), if_pos]
  rw [globMatch, globMatch_star]
  rfl

@[simp]
theorem removeShortest_pairText (a b : Patch) :
    removeShortest [.char 45, .star] (pairText a b) = a.num := by
  rw [removeShortest, pairText, beforeSuffix_append (beforeSuffix_dash b), Option.getD_some]

@[simp]
theorem removeFront_pairText (a b : Patch) :
    removeFront [.star, .char 45] (pairText a b) = b.num :=
  removeFront_star_char a.not_mem_dash b.num

theorem patches_diffFile (a b : Patch) :
    removeShortest (diffEnd.map .char) (removeFront [.star, .char 45] (diffFile op a b).name) =
      pairText a b := by
  have hend : beforeSuffix (diffEnd.map .char) diffEnd = some [] := by decide
  rw [diffFile, removeFront_star_char (by decide), removeShortest, beforeSuffix_append hend,
    Option.getD_some]

/-! ### The order of the files -/

/- Builds are listed by their names. -/
def InOrder (builds : List Patch) : Prop := builds.Pairwise fun a b => a.num < b.num

theorem InOrder.nodup {builds : List Patch} (h : InOrder builds) : builds.Nodup := by
  refine h.imp ?_
  rintro a b hlt rfl
  exact List.lt_irrefl _ hlt

theorem diffFile_lt {a c : Patch} (h : a.num < c.num) (b d : Patch) :
    (diffFile op a b).name < (diffFile op c d).name := by
  have hnum : a.num ++ (45 :: b.num ++ diffEnd) < c.num ++ (45 :: d.num ++ diffEnd) :=
    append_lt_append h (a.length.trans c.length.symm) _ _
  have hall : readelfPath ++ [45] ++ (a.num ++ (45 :: b.num ++ diffEnd)) <
      readelfPath ++ [45] ++ (c.num ++ (45 :: d.num ++ diffEnd)) := List.append_left_lt hnum
  simpa only [diffFile, pairText, List.append_assoc, List.singleton_append] using hall

theorem mem_diffFiles {builds : List Patch} {f : DiffFile} (h : f ∈ diffFiles op builds) :
    ∃ a b, a ∈ builds ∧ f = diffFile op a b := by
  rw [diffFiles, ← List.map_uncurry_zip_eq_zipWith, List.mem_map] at h
  obtain ⟨⟨a, b⟩, hmem, rfl⟩ := h
  exact ⟨a, b, (List.of_mem_zip hmem).1, rfl⟩

theorem diffFiles_sorted {builds : List Patch} (h : InOrder builds) :
    (diffFiles op builds).Pairwise fun f g => f.name < g.name := by
  induction builds with
  | nil => exact .nil
  | cons a rest ih =>
    cases rest with
    | nil => exact .nil
    | cons b rest =>
      obtain ⟨ha, hrest⟩ := List.pairwise_cons.mp h
      refine List.pairwise_cons.mpr ⟨?_, ih hrest⟩
      intro f hf
      obtain ⟨c, d, hc, rfl⟩ := mem_diffFiles op hf
      exact diffFile_lt op (ha c hc) b d

/-- The diffs are looked at in the order of the builds, in whatever order the jobs that
make them end. -/
theorem glob_diffFiles {builds : List Patch} (h : InOrder builds) {files : List DiffFile}
    (hperm : files.Perm (diffFiles op builds)) : glob files = diffFiles op builds :=
  mergeSort_name_eq (diffFiles_sorted op h) hperm

/-! ### The two lists -/

def changedPairs (builds : List Patch) : List (Patch × Patch) :=
  (builds.zip builds.tail).filter fun p => op p.1 ≠ op p.2

/-- Whether a build differs from one of its neighbours. -/
def changed (builds : List Patch) (p : Patch) : Bool :=
  (changedPairs op builds).any fun pair => pair.1 = p || pair.2 = p

def Found.of (chg : List Patch) (pairs : List (Patch × Patch)) : Found :=
  ⟨wordList (chg.map Patch.num), wordList (pairs.map fun p => pairText p.1 p.2)⟩

theorem words_patchChg (chg : List Patch) (pairs : List (Patch × Patch)) :
    words (Found.of chg pairs).patchChg = chg.map Patch.num := by
  refine words_wordList ?_
  simp only [List.forall_mem_map]
  intro p _
  exact p.isWord

theorem words_patchDiff (chg : List Patch) (pairs : List (Patch × Patch)) :
    words (Found.of chg pairs).patchDiff = pairs.map fun p => pairText p.1 p.2 := by
  refine words_wordList ?_
  simp only [List.forall_mem_map]
  intro p _
  exact isWord_pairText p.1 p.2

theorem listed_patchChg (chg : List Patch) (p : Patch) :
    listed (wordList (chg.map Patch.num)) p.num = true ↔ p ∈ chg := by
  rw [listed_wordList (by simpa using fun p _ => p.isWord) p.isWord, List.mem_map]
  constructor
  · rintro ⟨q, hq, hnum⟩
    exact Patch.num_inj hnum ▸ hq
  · intro hp
    exact ⟨p, hp, rfl⟩

theorem findDir_same {a b : Patch} (h : op a = op b) (s : Found) :
    findDir s (diffFile op a b) = s := by
  rw [findDir, if_pos (by simpa [diffFile] using h)]

theorem findDir_differ {a b : Patch} (h : op a ≠ op b) (chg : List Patch)
    (pairs : List (Patch × Patch)) :
    findDir (Found.of chg pairs) (diffFile op a b) =
      Found.of ((if a ∈ chg then chg else chg ++ [a]) ++ [b]) (pairs ++ [(a, b)]) := by
  rw [findDir, if_neg (by simpa [diffFile] using h)]
  simp only [patches_diffFile, removeShortest_pairText, removeFront_pairText, Found.of,
    listed_patchChg, List.map_append, List.map_singleton, wordList_append]
  congr 1
  split
  · rfl
  · rw [List.map_append, List.map_singleton, wordList_append]

/- The builds that are in PATCH_CHG in the end, where `prev` says that the first of them is
there already. -/
def touched : Bool → List Patch → List Patch
  | _, [] => []
  | prev, [a] => if prev then [a] else []
  | prev, a :: b :: rest =>
    (if prev || op a ≠ op b then [a] else []) ++ touched (op a ≠ op b) (b :: rest)

/- Two builds that differ: the first is appended unless it is the last word, put there
by the pair before. -/
theorem foldl_findDir (a : Patch) (rest : List Patch) (prev : Bool) (before : List Patch)
    (pairs : List (Patch × Patch)) (hbefore : ∀ p ∈ before, p ∉ a :: rest) (hnd : (a :: rest).Nodup) :
    (diffFiles op (a :: rest)).foldl findDir
        (Found.of (before ++ if prev then [a] else []) pairs) =
      Found.of (before ++ touched op prev (a :: rest)) (pairs ++ changedPairs op (a :: rest)) := by
  induction rest generalizing a prev before pairs with
  | nil => simp [diffFiles, touched, changedPairs]
  | cons b rest ih =>
    have hdiffs : diffFiles op (a :: b :: rest) = diffFile op a b :: diffFiles op (b :: rest) := rfl
    obtain ⟨ha, hrest⟩ := List.nodup_cons.mp hnd
    rw [hdiffs, List.foldl_cons]
    by_cases hop : op a = op b
    · have hnext : ∀ p ∈ before ++ (if prev then [a] else []), p ∉ b :: rest := by
        intro p hp hmem
        rcases List.mem_append.mp hp with hp | hp
        · exact hbefore p hp (List.mem_cons_of_mem a hmem)
        · cases prev <;> simp at hp
          exact ha (hp ▸ hmem)
      have hrun := ih b false _ pairs hnext hrest
      rw [findDir_same op hop]
      simpa [touched, changedPairs, hop] using hrun
    · have hnext : ∀ p ∈ before ++ [a], p ∉ b :: rest := by
        intro p hp hmem
        rcases List.mem_append.mp hp with hp | hp
        · exact hbefore p hp (List.mem_cons_of_mem a hmem)
        · exact ha (List.mem_singleton.mp hp ▸ hmem)
      have hnew : a ∉ before := fun hmem => hbefore a hmem List.mem_cons_self
      have hchg : (if a ∈ before ++ (if prev then [a] else []) then
          before ++ (if prev then [a] else []) else before ++ (if prev then [a] else []) ++ [a]) =
          before ++ [a] := by
        cases prev <;> simp [hnew]
      have hrun := ih b true (before ++ [a]) (pairs ++ [(a, b)]) hnext hrest
      rw [findDir_differ op hop, hchg]
      simpa [touched, changedPairs, hop] using hrun

theorem changedPairs_cons (a b : Patch) (rest : List Patch) :
    changedPairs op (a :: b :: rest) =
      (if op a ≠ op b then [(a, b)] else []) ++ changedPairs op (b :: rest) := by
  simp only [changedPairs, List.tail_cons, List.zip_cons_cons, List.filter_cons, decide_eq_true_eq]
  split <;> rfl

theorem mem_of_mem_changedPairs {builds : List Patch} {pair : Patch × Patch}
    (h : pair ∈ changedPairs op builds) : pair.1 ∈ builds ∧ pair.2 ∈ builds := by
  have hzip := List.of_mem_zip (List.mem_of_mem_filter h)
  exact ⟨hzip.1, List.mem_of_mem_tail hzip.2⟩

theorem touched_eq_filter (a : Patch) (rest : List Patch) (prev : Bool) (hnd : (a :: rest).Nodup) :
    touched op prev (a :: rest) =
      (a :: rest).filter fun p => (prev && p = a) || changed op (a :: rest) p := by
  induction rest generalizing a prev with
  | nil => cases prev <;> simp [touched, changed, changedPairs]
  | cons b rest ih =>
    obtain ⟨ha, hrest⟩ := List.nodup_cons.mp hnd
    have hout : changed op (b :: rest) a = false := by
      rw [changed, List.any_eq_false]
      intro pair hpair hor
      have hmem := mem_of_mem_changedPairs op hpair
      simp only [Bool.or_eq_true, decide_eq_true_eq] at hor
      rcases hor with rfl | rfl
      · exact ha hmem.1
      · exact ha hmem.2
    have hchanged : ∀ p, changed op (a :: b :: rest) p =
        ((decide (op a ≠ op b) && (a = p || b = p)) || changed op (b :: rest) p) := by
      intro p
      rw [changed, changedPairs_cons, List.any_append]
      by_cases hop : op a = op b <;> simp [hop, changed]
    have hfirst : ((prev && a = a) || changed op (a :: b :: rest) a) = (prev || op a ≠ op b) := by
      simp [hchanged, hout]
    have hothers : (b :: rest).filter (fun p => (prev && p = a) || changed op (a :: b :: rest) p) =
        (b :: rest).filter fun p => (decide (op a ≠ op b) && p = b) || changed op (b :: rest) p := by
      refine List.filter_congr ?_
      intro p hp
      have hne : p ≠ a := fun heq => ha (heq ▸ hp)
      simp [hchanged, hne, hne.symm, eq_comm]
    rw [touched, ih b _ hrest]
    conv_rhs => rw [List.filter_cons, hothers, hfirst]
    split <;> rfl

/-- What the loop has found when it is done. -/
theorem findDirs_glob {builds : List Patch} (h : InOrder builds) {files : List DiffFile}
    (hperm : files.Perm (diffFiles op builds)) :
    findDirs (glob files) =
      Found.of (builds.filter (changed op builds)) (changedPairs op builds) := by
  rw [glob_diffFiles op h hperm, findDirs]
  cases builds with
  | nil => rfl
  | cons a rest =>
    have hrun := foldl_findDir op a rest false [] [] (by simp) h.nodup
    rw [touched_eq_filter op a rest false h.nodup] at hrun
    simpa [Found.of, wordList] using hrun

/-- `PATCH_CHG` has each build that differs from a neighbour, once and in order, and
`PATCH_DIFF` the pairs that differ. -/
theorem changes_found (builds : List Patch) (hbuilds : InOrder builds) (files : List DiffFile)
    (hfiles : files.Perm (diffFiles op builds)) :
    words (findDirs (glob files)).patchChg = (builds.filter (changed op builds)).map Patch.num ∧
    words (findDirs (glob files)).patchDiff =
      (changedPairs op builds).map fun p => pairText p.1 p.2 := by
  rw [findDirs_glob op hbuilds hfiles]
  exact ⟨words_patchChg _ _, words_patchDiff _ _⟩

/- Builds 001, 002 and 003, the last of which differs. -/
def three : List Patch :=
  [⟨[48, 48, 49], rfl, List.all_eq_true.mp rfl⟩, ⟨[48, 48, 50], rfl, List.all_eq_true.mp rfl⟩,
    ⟨[48, 48, 51], rfl, List.all_eq_true.mp rfl⟩]

theorem inOrder_three : InOrder three := by
  unfold InOrder three
  decide

theorem changes_found_three :
    words (findDirs (glob (diffFiles (fun p => if p.num = [48, 48, 51] then [1] else [])
      three))).patchChg = [[48, 48, 50], [48, 48, 51]] := by
  rw [(changes_found _ three inOrder_three _ (.refl _)).1]
  decide

/-! ### The jobs of the stages that follow -/

/-- A background job, with the directories it reads from and those it writes to. -/
structure Job where
  reads : List (List UInt8)
  writes : List (List UInt8)

-- builds/
def buildDir (p : List UInt8) : List UInt8 := [98, 117, 105, 108, 100, 115, 47] ++ p

def readelfDir (p : List UInt8) : List UInt8 := readelfPath ++ 46 :: p

/- `patches_find_changes:54-63` -/
def objdumpJobs (s : Found) : List Job :=
  (words s.patchChg).map fun p => ⟨[buildDir p], [readelfDir p, buildDir p]⟩

/- A job for each pair, of `d1` and `d2`. -/
def pairJobs (job : List UInt8 → List UInt8 → Job) (s : Found) : List Job :=
  (words s.patchDiff).map fun p =>
    job (removeShortest [.char 45, .star] p) (removeFront [.star, .char 45] p)

/- `patches_find_changes:70-82` -/
def objdumpDiffJobs : Found → List Job :=
  pairJobs fun d1 d2 => ⟨[readelfDir d1, readelfDir d2], [readelfDir d2]⟩

/- The directories in which all sources are preprocessed (`patches_find_changes:87-102`). -/
def gccDirs (s : Found) : List (List UInt8) := (words s.patchChg).map buildDir

/- `patches_find_changes:107-119` -/
def sourceDiffJobs : Found → List Job :=
  pairJobs fun d1 d2 => ⟨[buildDir d1, buildDir d2], [readelfDir d2, buildDir d2]⟩

/-- No two jobs write to one directory. -/
def Apart (jobs : List Job) : Prop := jobs.Pairwise fun j k => j.writes.Disjoint k.writes

theorem readelfDir_ne_buildDir (p q : Patch) : readelfDir p.num ≠ buildDir q.num := by
  intro h
  have hlength := congrArg List.length h
  simp [readelfDir, buildDir, readelfPath, p.length, q.length] at hlength

theorem readelfDir_inj {p q : Patch} (h : readelfDir p.num = readelfDir q.num) : p = q :=
  Patch.num_inj (List.cons.inj (List.append_cancel_left h)).2

theorem buildDir_inj {p q : Patch} (h : buildDir p.num = buildDir q.num) : p = q :=
  Patch.num_inj (List.append_cancel_left h)

/- Jobs that keep to the directories of their own build. -/
theorem apart_of_nodup {α : Type} {xs : List α} {patch : α → Patch} (hnd : (xs.map patch).Nodup)
    {job : α → Job}
    (hjob : ∀ x, ∀ d ∈ (job x).writes,
      d = readelfDir (patch x).num ∨ d = buildDir (patch x).num) : Apart (xs.map job) := by
  refine List.pairwise_map.mpr ((List.pairwise_map.mp hnd).imp ?_)
  intro x y hne d hx hy
  rcases hjob x d hx with hdx | hdx <;> rcases hjob y d hy with hdy | hdy
  · exact hne (readelfDir_inj (hdx.symm.trans hdy))
  · exact readelfDir_ne_buildDir _ _ (hdx.symm.trans hdy)
  · exact readelfDir_ne_buildDir _ _ (hdy.symm.trans hdx)
  · exact hne (buildDir_inj (hdx.symm.trans hdy))

theorem objdumpJobs_of (chg : List Patch) (pairs : List (Patch × Patch)) :
    objdumpJobs (Found.of chg pairs) =
      chg.map fun p => ⟨[buildDir p.num], [readelfDir p.num, buildDir p.num]⟩ := by
  rw [objdumpJobs, words_patchChg, List.map_map]
  rfl

theorem gccDirs_of (chg : List Patch) (pairs : List (Patch × Patch)) :
    gccDirs (Found.of chg pairs) = chg.map fun p => buildDir p.num := by
  rw [gccDirs, words_patchChg, List.map_map]
  rfl

theorem pairJobs_of (job : List UInt8 → List UInt8 → Job) (chg : List Patch)
    (pairs : List (Patch × Patch)) :
    pairJobs job (Found.of chg pairs) = pairs.map fun p => job p.1.num p.2.num := by
  rw [pairJobs, words_patchDiff, List.map_map]
  simp only [Function.comp_def, removeShortest_pairText, removeFront_pairText]

/- Every build but the first is the second of one pair at most. -/
theorem nodup_changedPairs_snd {builds : List Patch} (h : builds.Nodup) :
    ((changedPairs op builds).map Prod.snd).Nodup := by
  have hsub : ((changedPairs op builds).map Prod.snd).Sublist builds.tail := by
    have hzip := (List.filter_sublist (l := builds.zip builds.tail)
      (p := fun p => decide (op p.1 ≠ op p.2))).map Prod.snd
    rwa [List.map_snd_zip (by simp)] at hzip
  exact (h.sublist (List.tail_sublist builds)).sublist hsub

theorem changed_of_mem {builds : List Patch} {pair : Patch × Patch}
    (h : pair ∈ changedPairs op builds) :
    pair.1 ∈ builds.filter (changed op builds) ∧ pair.2 ∈ builds.filter (changed op builds) := by
  have hmem := mem_of_mem_changedPairs op h
  have hany : ∀ p, pair.1 = p ∨ pair.2 = p → changed op builds p = true := by
    intro p hp
    exact List.any_eq_true.mpr ⟨pair, h, by simpa using hp⟩
  exact ⟨List.mem_filter.mpr ⟨hmem.1, hany _ (.inl rfl)⟩,
    List.mem_filter.mpr ⟨hmem.2, hany _ (.inr rfl)⟩⟩

/-- The jobs that run side by side never write to one directory, and a job that compares two
builds finds what it compares in the directories of both, made by the stages before. -/
theorem jobs_apart (builds : List Patch) (hbuilds : InOrder builds) (files : List DiffFile)
    (hfiles : files.Perm (diffFiles op builds)) :
    let s := findDirs (glob files)
    Apart (objdumpJobs s) ∧ Apart (objdumpDiffJobs s) ∧ Apart (sourceDiffJobs s) ∧
      (∀ j ∈ objdumpDiffJobs s, ∀ d ∈ j.reads, ∃ k ∈ objdumpJobs s, d ∈ k.writes) ∧
      ∀ j ∈ sourceDiffJobs s, ∀ d ∈ j.reads, d ∈ gccDirs s := by
  intro s
  have hs : s = Found.of (builds.filter (changed op builds)) (changedPairs op builds) :=
    findDirs_glob op hbuilds hfiles
  have hsnd := nodup_changedPairs_snd op hbuilds.nodup
  rw [hs, objdumpDiffJobs, sourceDiffJobs, pairJobs_of, pairJobs_of, objdumpJobs_of,
    gccDirs_of]
  refine ⟨?_, ?_, ?_, ?_, ?_⟩
  · have hchg : ((builds.filter (changed op builds)).map id).Nodup := by
      rw [List.map_id]
      exact hbuilds.nodup.filter _
    exact apart_of_nodup hchg (by simp)
  · exact apart_of_nodup hsnd (by simp)
  · exact apart_of_nodup hsnd (by simp)
  · intro j hj d hd
    obtain ⟨pair, hpair, rfl⟩ := List.mem_map.mp hj
    have hchanged := changed_of_mem op hpair
    simp only [List.mem_cons, List.not_mem_nil, or_false] at hd
    rcases hd with rfl | rfl
    · exact ⟨_, List.mem_map.mpr ⟨pair.1, hchanged.1, rfl⟩, List.mem_cons_self⟩
    · exact ⟨_, List.mem_map.mpr ⟨pair.2, hchanged.2, rfl⟩, List.mem_cons_self⟩
  · intro j hj d hd
    obtain ⟨pair, hpair, rfl⟩ := List.mem_map.mp hj
    have hchanged := changed_of_mem op hpair
    simp only [List.mem_cons, List.not_mem_nil, or_false] at hd
    rcases hd with rfl | rfl
    · exact List.mem_map.mpr ⟨pair.1, hchanged.1, rfl⟩
    · exact List.mem_map.mpr ⟨pair.2, hchanged.2, rfl⟩

theorem jobs_apart_three :
    Apart (objdumpDiffJobs (findDirs (glob (diffFiles Patch.num three)))) :=
  (jobs_apart Patch.num three inOrder_three _ (.refl _)).2.1

end KeepalivedDevel.PatchesFindChanges
