import KeepalivedDevel.CLib.Tally
import KeepalivedDevel.Hash.Pairing
import Mathlib.Tactic.Ring

/-!
# The counting loops and their statistics

The two loops count the index of every pair of an identifier and a descriptor.
They stay inside the table exactly when all these indices do, and the table is
then the tally of the indices.
-/

namespace KeepalivedDevel.Hash

open CLib CLib.While CLib.Tally
open CLib.CInt (wrap wrap_eq InRange)

/-! ### The pairs counted -/

/- `n` numbers from `a` on, `d` apart. -/
def steps (a d : ℤ) : ℕ → List ℤ
  | 0 => []
  | n + 1 => a :: steps (a + d) d n

theorem steps_length (a d : ℤ) (n : ℕ) : (steps a d n).length = n := by
  induction n generalizing a with
  | zero => rfl
  | succ n ih => rw [steps, List.length_cons, ih]

theorem mem_steps {a d x : ℤ} {n : ℕ} (hd : 0 ≤ d) (hx : x ∈ steps a d n) :
    a ≤ x ∧ x ≤ a + (n - 1) * d := by
  induction n generalizing a with
  | zero => cases hx
  | succ n ih =>
    have hnd : 0 ≤ (n : ℤ) * d := by positivity
    push_cast
    rcases List.mem_cons.mp hx with rfl | hrest
    · constructor <;> linarith
    · obtain ⟨hlow, hhigh⟩ := ih hrest
      constructor <;> linarith

def rows (numVrid : ℤ) (fds : List ℤ) : List (ℤ × ℤ) :=
  fds.flatMap fun fd => (steps 1 1 numVrid.toNat).map fun vrid => (vrid, fd)

def pairs (s : Settings) : List (ℤ × ℤ) :=
  rows s.numVrid (steps s.beginFd s.fdStep s.numFd.toNat)

theorem rows_length (numVrid : ℤ) (fds : List ℤ) :
    (rows numVrid fds).length = fds.length * numVrid.toNat := by
  induction fds with
  | nil => simp [rows]
  | cons fd fds ih =>
    rw [rows, List.flatMap_cons, List.length_append, List.length_map, steps_length, ← rows, ih,
      List.length_cons]
    ring

theorem mem_pairs {s : Settings} (hstep : 0 ≤ s.fdStep) {p : ℤ × ℤ} (hp : p ∈ pairs s) :
    (1 ≤ p.1 ∧ p.1 ≤ s.numVrid) ∧
      s.beginFd ≤ p.2 ∧ p.2 ≤ s.beginFd + (s.numFd.toNat - 1) * s.fdStep := by
  obtain ⟨fd, hfd, hrow⟩ := List.mem_flatMap.mp hp
  obtain ⟨vrid, hvrid, rfl⟩ := List.mem_map.mp hrow
  have hv := mem_steps (by decide) hvrid
  have hne : s.numVrid.toNat ≠ 0 := by
    intro h
    rw [h] at hvrid
    cases hvrid
  exact ⟨by omega, mem_steps hstep hfd⟩

/-! ### One access after the other -/

def bumps (numEnt : List UInt32) : List ℤ → Except ℤ (List UInt32)
  | [] => .ok numEnt
  | index :: indices =>
    match bump numEnt index with
    | none => .error index
    | some numEnt => bumps numEnt indices

theorem bump_length {numEnt numEnt' : List UInt32} {index : ℤ} (h : bump numEnt index = some numEnt') :
    numEnt'.length = numEnt.length := by
  unfold bump at h
  split at h
  · rw [← Option.some.inj h, List.length_modify]
  · cases h

theorem bumps_ok_iff (numEnt : List UInt32) (indices : List ℤ) :
    (∃ t, bumps numEnt indices = .ok t) ↔ ∀ index ∈ indices, 0 ≤ index ∧ index < numEnt.length := by
  induction indices generalizing numEnt with
  | nil => exact iff_of_true ⟨numEnt, rfl⟩ (by simp)
  | cons index indices ih =>
    rw [bumps, List.forall_mem_cons]
    cases hb : bump numEnt index with
    | none =>
      have hout : ¬ (0 ≤ index ∧ index < numEnt.length) := by
        intro hin
        rw [bump, if_pos hin] at hb
        cases hb
      exact iff_of_false (by simp) (fun h => hout h.1)
    | some t =>
      have hin : 0 ≤ index ∧ index < numEnt.length := by
        by_contra hout
        rw [bump, if_neg hout] at hb
        cases hb
      have hrest := ih t
      rw [bump_length hb] at hrest
      exact hrest.trans (and_iff_right hin).symm

theorem bumps_tally {n : ℕ} (xs ys : List ℕ) (hxs : ∀ x ∈ xs, x < n) :
    bumps (tally n ys) (xs.map Int.ofNat) = .ok (tally n (ys ++ xs)) := by
  induction xs generalizing ys with
  | nil => rw [List.map_nil, bumps, List.append_nil]
  | cons x xs ih =>
    obtain ⟨hx, hxs⟩ := List.forall_mem_cons.mp hxs
    have hin : 0 ≤ Int.ofNat x ∧ Int.ofNat x < (tally n ys).length := by
      rw [tally_length]
      exact ⟨Int.natCast_nonneg x, Int.ofNat_lt.mpr hx⟩
    rw [List.map_cons, bumps, bump, if_pos hin]
    simp only [Int.ofNat_eq_natCast, Int.toNat_natCast, tally_concat]
    rw [show ys ++ x :: xs = (ys ++ [x]) ++ xs by simp]
    exact ih (ys ++ [x]) hxs

/-! ### The loops -/

/-- Settings with which no `int` of the loops' own arithmetic overflows. -/
structure Grid where
  settings : Settings
  hashTableSize_pos : 0 < settings.hashTableSize
  beginFd_nonneg : 0 ≤ settings.beginFd
  numFd_pos : 0 < settings.numFd
  numVrid_pos : 0 < settings.numVrid
  fdStep_pos : 0 < settings.fdStep
  endFd_range : settings.beginFd + settings.numFd * settings.fdStep ≤ 2147483647
  numVrid_range : settings.numVrid < 2147483647

def index (s : Settings) (p : ℤ × ℤ) : ℤ := s.algorithm.getHash s.hashTableSize p.1 p.2

theorem endFd_eq (g : Grid) :
    endFd g.settings = g.settings.beginFd + g.settings.numFd * g.settings.fdStep := by
  have hbegin := g.beginFd_nonneg
  have hprod : 0 < g.settings.numFd * g.settings.fdStep := mul_pos g.numFd_pos g.fdStep_pos
  have hend := g.endFd_range
  rw [endFd, wrap_eq (z := g.settings.numFd * g.settings.fdStep) (by unfold InRange; omega),
    wrap_eq (by unfold InRange; omega)]

/- The inner loop: one row of the grid, then the next descriptor. -/
theorem inner_ends (g : Grid) (i : ℤ) (k : ℕ) (j : ℤ) (hj : 1 ≤ j)
    (hk : j + k = g.settings.numVrid + 1) (numEnt : List UInt32) (r : Except ℤ (List UInt32)) :
    Ends (countBody g.settings) ⟨i, some j, numEnt⟩ r ↔
      match bumps numEnt ((steps j 1 k).map fun vrid => index g.settings (vrid, i)) with
      | .error e => .error e = r
      | .ok t => Ends (countBody g.settings) ⟨wrap (i + g.settings.fdStep), none, t⟩ r := by
  induction k generalizing j numEnt with
  | zero =>
    have hlast : ¬ j ≤ g.settings.numVrid := by omega
    exact ends_again (by simp only [countBody, hlast, if_false])
  | succ k ih =>
    have hle : j ≤ g.settings.numVrid := by omega
    have hrange := g.numVrid_range
    have hnext : wrap (j + 1) = j + 1 := wrap_eq (by unfold InRange; omega)
    rw [steps, List.map_cons, bumps]
    cases hb : bump numEnt (index g.settings (j, i)) with
    | none =>
      unfold index at hb
      exact ends_leave (by simp only [countBody, hle, if_true, hb, index])
    | some t =>
      have hih := ih (j + 1) (by omega) (by omega) t
      unfold index at hb
      rw [← hih]
      exact ends_again (by simp only [countBody, hle, if_true, hb, hnext])

theorem bumps_append (numEnt : List UInt32) (xs ys : List ℤ) :
    bumps numEnt (xs ++ ys) =
      match bumps numEnt xs with
      | .error e => .error e
      | .ok t => bumps t ys := by
  induction xs generalizing numEnt with
  | nil => rfl
  | cons x xs ih =>
    rw [List.cons_append, bumps, bumps]
    cases bump numEnt x with
    | none => rfl
    | some t => exact ih t

theorem outer_ends (g : Grid) (n : ℕ) (i : ℤ) (hi : 0 ≤ i)
    (hn : i + n * g.settings.fdStep = endFd g.settings) (numEnt : List UInt32)
    (r : Except ℤ (List UInt32)) :
    Ends (countBody g.settings) ⟨i, none, numEnt⟩ r ↔
      bumps numEnt ((rows g.settings.numVrid (steps i g.settings.fdStep n)).map (index g.settings)) = r := by
  have hstep := g.fdStep_pos
  induction n generalizing i numEnt with
  | zero =>
    have hlast : ¬ i < endFd g.settings := by
      rw [← hn]
      simp
    exact ends_leave (r := Except.ok numEnt) (by simp only [countBody, hlast, if_false])
  | succ n ih =>
    have hnd : 0 ≤ (n : ℤ) * g.settings.fdStep := by positivity
    push_cast at hn
    have hrest : i + g.settings.fdStep + n * g.settings.fdStep = endFd g.settings := by linarith
    have hlt : i < endFd g.settings := by linarith
    have hend := g.endFd_range
    rw [← endFd_eq] at hend
    have hnext : wrap (i + g.settings.fdStep) = i + g.settings.fdStep :=
      wrap_eq (by unfold InRange; omega)
    have hvrids : (1 : ℤ) + g.settings.numVrid.toNat = g.settings.numVrid + 1 := by
      have hpos := g.numVrid_pos
      omega
    rw [ends_again (t := ⟨i, some 1, numEnt⟩) (by simp only [countBody, hlt, if_true]),
      inner_ends g i _ 1 le_rfl hvrids numEnt r, hnext, steps, rows, List.flatMap_cons, List.map_append,
      List.map_map, bumps_append]
    simp only [Function.comp_def]
    cases bumps numEnt _ with
    | error e => rfl
    | ok t => exact ih (i + g.settings.fdStep) (by omega) hrest t

/- The two loops always end, with what the accesses give one after the other. -/
theorem counts_iff (g : Grid) (r : Except ℤ (List UInt32)) :
    Counts g.settings r ↔
      bumps (List.replicate g.settings.hashTableSize.toNat 0)
        ((pairs g.settings).map (index g.settings)) = r := by
  have hfds : g.settings.beginFd + g.settings.numFd.toNat * g.settings.fdStep = endFd g.settings := by
    rw [endFd_eq, Int.toNat_of_nonneg (le_of_lt g.numFd_pos)]
  exact outer_ends g _ _ g.beginFd_nonneg hfds _ r

theorem counts_ok_iff (g : Grid) :
    (∃ numEnt, Counts g.settings (.ok numEnt)) ↔
      ∀ p ∈ pairs g.settings, 0 ≤ index g.settings p ∧ index g.settings p < g.settings.hashTableSize := by
  have hsize : ((List.replicate g.settings.hashTableSize.toNat (0 : UInt32)).length : ℤ)
      = g.settings.hashTableSize := by
    rw [List.length_replicate, Int.toNat_of_nonneg (le_of_lt g.hashTableSize_pos)]
  simp only [counts_iff, bumps_ok_iff, hsize, List.forall_mem_map]

/-! ### Accesses outside the table -/

/-- Arguments of a hash function for a table of a positive size. -/
structure Entry where
  size : ℤ
  vrid : ℤ
  fd : ℤ
  size_pos : 1 ≤ size
  vrid_range : 1 ≤ vrid ∧ vrid ≤ 255
  fd_range : 0 ≤ fd ∧ fd ≤ 2147483647

theorem index_in_table_iff (e : Entry) (g : Grid) (hvrids : g.settings.numVrid ≤ 255) :
    (∀ algorithm : Algorithm,
      (0 ≤ algorithm.getHash e.size e.vrid e.fd ∧ algorithm.getHash e.size e.vrid e.fd < e.size) ↔
        algorithm.InTable e.size e.vrid e.fd) ∧
    ((∃ numEnt, Counts g.settings (.ok numEnt)) ↔
      ∀ p ∈ pairs g.settings, g.settings.algorithm.InTable g.settings.hashTableSize p.1 p.2) := by
  refine ⟨?_, ?_⟩
  · intro algorithm
    have hvrid := e.vrid_range
    exact getHash_valid_iff algorithm e.size_pos (by omega)
  · rw [counts_ok_iff]
    apply forall₂_congr
    intro p hp
    obtain ⟨hvrid, _⟩ := mem_pairs (le_of_lt g.fdStep_pos) hp
    exact getHash_valid_iff g.settings.algorithm g.hashTableSize_pos (by omega)

def defaultGrid : Grid where
  settings := defaults initial
  hashTableSize_pos := by decide
  beginFd_nonneg := by decide
  numFd_pos := by decide
  numVrid_pos := by decide
  fdStep_pos := by decide
  endFd_range := by decide
  numVrid_range := by decide

theorem index_in_table_iff_default :
    (∀ algorithm : Algorithm,
      (0 ≤ algorithm.getHash 1024 1 46340 ∧ algorithm.getHash 1024 1 46340 < 1024) ↔
        algorithm.InTable 1024 1 46340) ∧
    ((∃ numEnt, Counts defaultGrid.settings (.ok numEnt)) ↔
      ∀ p ∈ pairs defaultGrid.settings,
        defaultGrid.settings.algorithm.InTable defaultGrid.settings.hashTableSize p.1 p.2) :=
  index_in_table_iff ⟨1024, 1, 46340, by decide, by decide, by decide⟩ defaultGrid (by decide)

/- The product leaves the range of `int` and the remainder is negative. -/
theorem index_before_table :
    getHashDc 1024 1 46340 = -112 ∧ getHashPqa 1151 1 58040100 = -711 := by
  decide

/-! ### The statistics -/

theorem statistics_terms (numEnt : List UInt32) :
    (statistics numEnt).terms = numEnt.map fun n => ⟨n, n * n⟩ := by
  have hfold : ∀ s : Stats, (numEnt.foldl Stats.add s).terms =
      s.terms ++ numEnt.map fun n => ⟨n, n * n⟩ := by
    induction numEnt with
    | nil => simp
    | cons n numEnt ih =>
      intro s
      rw [List.foldl_cons, ih, List.map_cons]
      simp [Stats.add]
  exact hfold ⟨[], 2147483647, 0⟩

/-- Settings with which no `int` expression of the loop bounds or of the hash
function overflows. -/
structure ExactRun where
  settings : Settings
  hashTableSize_pos : 0 < settings.hashTableSize
  beginFd_nonneg : 0 ≤ settings.beginFd
  numFd_pos : 0 < settings.numFd
  numVrid_pos : 0 < settings.numVrid
  fdStep_pos : 0 < settings.fdStep
  endFd_range : settings.beginFd + settings.numFd * settings.fdStep ≤ 2147483647
  exact : ∀ p ∈ pairs settings, settings.algorithm.NoOverflow p.1 p.2

theorem mem_steps_last (a d : ℤ) (n : ℕ) : a + n * d ∈ steps a d (n + 1) := by
  induction n generalizing a with
  | zero => simp [steps]
  | succ n ih =>
    have hlast := ih (a + d)
    have hsum : a + d + n * d = a + ((n + 1 : ℕ) : ℤ) * d := by
      push_cast
      ring
    rw [hsum] at hlast
    rw [steps]
    exact List.mem_cons_of_mem _ hlast

theorem noOverflow_vrid {algorithm : Algorithm} {vrid fd : ℤ} (hvrid : 0 ≤ vrid) (hfd : 0 ≤ fd)
    (h : algorithm.NoOverflow vrid fd) : vrid < 2147483647 := by
  cases algorithm with
  | dc =>
    obtain ⟨_, hsucc, _⟩ := h
    unfold InRange at hsucc
    omega
  | pqa =>
    obtain ⟨hprod, _⟩ := h
    unfold InRange at hprod
    omega

theorem last_vrid_mem (r : ExactRun) :
    (r.settings.numVrid, r.settings.beginFd) ∈ pairs r.settings := by
  have hvrids := r.numVrid_pos
  have hfds := r.numFd_pos
  obtain ⟨m, hm⟩ := Nat.exists_eq_succ_of_ne_zero (show r.settings.numVrid.toNat ≠ 0 by omega)
  obtain ⟨n, hn⟩ := Nat.exists_eq_succ_of_ne_zero (show r.settings.numFd.toNat ≠ 0 by omega)
  have hlast : 1 + (m : ℤ) * 1 = r.settings.numVrid := by omega
  have hvrid := mem_steps_last 1 1 m
  rw [hlast, ← Nat.succ_eq_add_one, ← hm] at hvrid
  have hfd : r.settings.beginFd ∈ steps r.settings.beginFd r.settings.fdStep r.settings.numFd.toNat := by
    rw [hn, steps]
    exact List.mem_cons_self
  exact List.mem_flatMap.mpr ⟨_, hfd, List.mem_map.mpr ⟨_, hvrid, rfl⟩⟩

/- `j` does not overflow either: the last identifier is an argument of the hash function. -/
def ExactRun.toGrid (r : ExactRun) : Grid where
  settings := r.settings
  hashTableSize_pos := r.hashTableSize_pos
  beginFd_nonneg := r.beginFd_nonneg
  numFd_pos := r.numFd_pos
  numVrid_pos := r.numVrid_pos
  fdStep_pos := r.fdStep_pos
  endFd_range := r.endFd_range
  numVrid_range :=
    noOverflow_vrid (le_of_lt r.numVrid_pos) r.beginFd_nonneg (r.exact _ (last_vrid_mem r))

/- The bucket of a pair in unbounded arithmetic. -/
def bucket (s : Settings) (p : ℤ × ℤ) : ℕ := (s.algorithm.exact p.1 p.2 % s.hashTableSize).toNat

/- The number of pairs that fall into bucket `b`. -/
def bucketSize (s : Settings) (b : ℕ) : ℕ := (pairs s).countP fun p => bucket s p == b

theorem bucketSize_eq (s : Settings) (b : ℕ) : bucketSize s b = ((pairs s).map (bucket s)).count b := by
  rw [bucketSize, List.count, List.countP_map]
  rfl

theorem bucket_lt (r : ExactRun) (p : ℤ × ℤ) : bucket r.settings p < r.settings.hashTableSize.toNat := by
  have hpos := r.hashTableSize_pos
  have hlt := Int.emod_lt_of_pos (r.settings.algorithm.exact p.1 p.2) hpos
  unfold bucket
  omega

theorem buckets_lt (r : ExactRun) :
    ∀ b ∈ (pairs r.settings).map (bucket r.settings), b < r.settings.hashTableSize.toNat := by
  intro b hb
  obtain ⟨p, _, rfl⟩ := List.mem_map.mp hb
  exact bucket_lt r p

theorem index_eq_bucket (r : ExactRun) {p : ℤ × ℤ} (hp : p ∈ pairs r.settings) :
    index r.settings p = Int.ofNat (bucket r.settings p) := by
  obtain ⟨hvrid, hfd, _⟩ := mem_pairs (le_of_lt r.fdStep_pos) hp
  have hbegin := r.beginFd_nonneg
  rw [index, getHash_eq_exact _ _ (by omega) (by omega) (r.exact p hp), bucket, Int.ofNat_eq_natCast,
    Int.toNat_of_nonneg (Int.emod_nonneg _ (ne_of_gt r.hashTableSize_pos))]

/- The table the loops leave behind. -/
theorem counts_exact (r : ExactRun) (result : Except ℤ (List UInt32)) :
    Counts r.settings result ↔
      .ok (tally r.settings.hashTableSize.toNat ((pairs r.settings).map (bucket r.settings))) = result := by
  have hindices : (pairs r.settings).map (index r.settings)
      = ((pairs r.settings).map (bucket r.settings)).map Int.ofNat := by
    rw [List.map_map]
    exact List.map_congr_left fun p hp => index_eq_bucket r hp
  have hrun := bumps_tally _ [] (buckets_lt r)
  rw [tally_nil, List.nil_append] at hrun
  refine (counts_iff r.toGrid result).trans ?_
  show bumps (List.replicate r.settings.hashTableSize.toNat 0)
    ((pairs r.settings).map (index r.settings)) = result ↔ _
  rw [hindices, hrun]

theorem pairs_length (r : Grid) :
    ((pairs r.settings).length : ℤ) = r.settings.numFd * r.settings.numVrid := by
  rw [pairs, rows_length, steps_length]
  push_cast
  rw [Int.toNat_of_nonneg (le_of_lt r.numFd_pos), Int.toNat_of_nonneg (le_of_lt r.numVrid_pos)]

/-- The counts add up, and every integer added to the sum of squares is the square of the
bucket's count, exactly if no bucket gets `2 ^ 16` pairs. -/
theorem statistics_exact_iff (r : ExactRun) :
    ∃ numEnt, (∀ result, Counts r.settings result ↔ .ok numEnt = result) ∧
      ((((numEnt.map UInt32.toNat).sum : ℕ) = r.settings.numFd * r.settings.numVrid ∧
          ∀ t ∈ (statistics numEnt).terms, t.square.toNat = t.count.toNat ^ 2) ↔
        ∀ b : ℕ, b < r.settings.hashTableSize → bucketSize r.settings b < 65536) := by
  refine ⟨_, counts_exact r, ?_⟩
  have hexact := tally_exact_iff (buckets_lt r)
  have hcond : (∀ b : ℕ, (b : ℤ) < r.settings.hashTableSize → bucketSize r.settings b < 65536) ↔
      ∀ b < r.settings.hashTableSize.toNat, ((pairs r.settings).map (bucket r.settings)).count b < 65536 := by
    apply forall_congr'
    intro b
    rw [bucketSize_eq, Int.lt_toNat]
  have hlength : ((pairs r.settings).map (bucket r.settings)).length = (pairs r.settings).length :=
    List.length_map ..
  have hpairs : ((pairs r.settings).length : ℤ) = r.settings.numFd * r.settings.numVrid :=
    pairs_length r.toGrid
  rw [hcond, ← hexact, statistics_terms, List.forall_mem_map, ← hpairs, hlength, Nat.cast_inj]

/-! ### A run whose square is not exact -/

theorem noOverflow_of_small {vrid fd : ℤ} (hvrid : 0 ≤ vrid) (hfd : 0 ≤ fd) (h : vrid + fd ≤ 46000) :
    Algorithm.dc.NoOverflow vrid fd := by
  have hprod : (vrid + fd) * (vrid + fd + 1) ≤ 46000 * 46001 := by
    apply mul_le_mul h <;> omega
  have hnonneg : 0 ≤ (vrid + fd) * (vrid + fd + 1) := by positivity
  have hdiv := Int.tdiv_eq_ediv_of_nonneg (b := 2) hnonneg
  simp only [Algorithm.NoOverflow, InRange, hdiv]
  omega

/- The options `-h 1 -f 258`. -/
def oneBucket : ExactRun where
  settings := ⟨1, 12, 258, 255, 2, .dc⟩
  hashTableSize_pos := by decide
  beginFd_nonneg := by decide
  numFd_pos := by decide
  numVrid_pos := by decide
  fdStep_pos := by decide
  endFd_range := by decide
  exact := by
    intro p hp
    obtain ⟨⟨hlow, hhigh⟩, hfd, hfd'⟩ := mem_pairs (by decide) hp
    simp only at hhigh hfd hfd'
    exact noOverflow_of_small (by omega) (by omega) (by omega)

theorem oneBucket_count : bucketSize oneBucket.settings 0 = 65790 := by
  have hall : bucketSize oneBucket.settings 0 = (pairs oneBucket.settings).length := by
    apply List.countP_eq_length.mpr
    intro p _
    have hlt := bucket_lt oneBucket p
    exact beq_iff_eq.mpr (Nat.lt_one_iff.mp hlt)
  have hlength := pairs_length oneBucket.toGrid
  rw [hall]
  exact Int.ofNat.inj hlength

/- The one bucket has all the pairs, and the square of their number is cut to 32 bits. -/
theorem oneBucket_square_wraps :
    settings [.h 1, .f 258] = .ok oneBucket.settings ∧
    Counts oneBucket.settings (.ok [65790]) ∧
    (statistics [65790]).terms = [⟨65790, 33356804⟩] ∧ 33356804 ≠ 65790 ^ 2 := by
  refine ⟨by decide, ?_, by decide, by decide⟩
  rw [counts_exact]
  show Except.ok [UInt32.ofNat (((pairs oneBucket.settings).map (bucket oneBucket.settings)).count 0)] = _
  rw [← bucketSize_eq, oneBucket_count]
  rfl

end KeepalivedDevel.Hash
