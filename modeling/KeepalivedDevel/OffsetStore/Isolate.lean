import KeepalivedDevel.OffsetStore.Sequential

/-!
# Runs of isolate

The two scripts differ in their store and in the offset of an isolated instance;
their `main` is the same. It is modelled here over any store, and compared on the
two. What keepalived reports of its instances is an argument of each run.
-/

namespace KeepalivedDevel.OffsetStore

/-- An instance as keepalived reports it. -/
structure Instance where
  iname : ℤ
  state : ℤ
  deriving DecidableEq

def getMasters (data : List Instance) : List Instance := data.filter fun i => i.state = 2

def getSlaves (data : List Instance) : List Instance := data.filter fun i => i.state = 1

/- Without the option `instances` is the number 0. -/
structure Args where
  count : ℤ
  instances : Option (List ℤ)
  reset : Bool
  deriving DecidableEq

/-- The store, the instances printed and the seconds slept. -/
structure Progress (σ : Type) where
  store : σ
  printed : List ℤ
  slept : ℕ

/-! ### The script over a store -/

section Script

variable {σ τ : Type}

/- The loop that prints every instance and sleeps after a change. -/
def updateEach (updateOffset : σ → ℤ → ℤ → σ × ℕ) (offset : ℤ) :
    List ℤ → Progress σ → Progress σ
  | [], p => p
  | i :: is, p =>
    let (store, code) := updateOffset p.store i offset
    updateEach updateOffset offset is
      ⟨store, p.printed ++ [i], if code = 1 then p.slept + 1 else p.slept⟩

/- The loop that prints and counts the changes, and stops when there are enough. -/
def updateCount (updateOffset : σ → ℤ → ℤ → σ × ℕ) (offset count : ℤ) :
    List ℤ → ℤ → Progress σ → Progress σ
  | [], _, p => p
  | i :: is, done, p =>
    let (store, code) := updateOffset p.store i offset
    if code = 1 then
      let printed := p.printed ++ [i]
      if done + 1 ≥ count then ⟨store, printed, p.slept⟩
      else updateCount updateOffset offset count is (done + 1) ⟨store, printed, p.slept + 1⟩
    else updateCount updateOffset offset count is done ⟨store, p.printed, p.slept⟩

def script (updateOffset : σ → ℤ → ℤ → σ × ℕ) (isolated : ℤ) (args : Args)
    (data : List Instance) (store : σ) : Option (Progress σ) :=
  let offset := if args.reset then 0 else isolated
  let partialList := if args.reset then getSlaves data else getMasters data
  match args.instances with
  | none =>
    if args.count = 0 then
      some (updateEach updateOffset offset (data.map Instance.iname) ⟨store, [], 0⟩)
    else
      some (updateCount updateOffset offset args.count (partialList.map Instance.iname) 0
        ⟨store, [], 0⟩)
  | some instances =>
    -- The message that both options were given, and nothing else.
    if args.count ≠ 0 then none
    else some (updateEach updateOffset offset instances ⟨store, [], 0⟩)

/-- Runs one after the other, each with what keepalived reports at its time, and what each
of them prints and how long it sleeps. A run that is refused leaves no trace. -/
def session (run : Args → List Instance → σ → Option (Progress σ)) :
    List (Args × List Instance) → σ → σ × List (List ℤ × ℕ)
  | [], store => (store, [])
  | (args, data) :: rest, store =>
    match run args data store with
    | none => session run rest store
    | some p =>
      let (last, shown) := session run rest p.store
      (last, (p.printed, p.slept) :: shown)

/-- A store that represents a function from instances to offsets, of which an update
changes one place and tells whether it did. -/
structure Represents (updateOffset : σ → ℤ → ℤ → σ × ℕ) (value : σ → ℤ → ℤ) : Prop where
  code : ∀ s i offset, (updateOffset s i offset).2 = if value s i = offset then 0 else 1
  value : ∀ s i offset, value (updateOffset s i offset).1 = Function.update (value s) i offset

end Script

def isolate : Args → List Instance → Option (List UInt8) →
    Option (Progress (Option (List UInt8))) :=
  script updateOffset 1

def TrackFile.isolate : Args → List Instance → Files → Option (Progress Files) :=
  script updateOffset (-100)

theorem represents_effective : Represents updateOffset effective where
  code := by
    intro file inst offset
    rw [updateOffset_eq]
    split <;> rfl
  value := updateOffset_effective

theorem TrackFile.represents_effective : Represents updateOffset effective where
  code := by
    intro files inst offset
    rw [updateOffset_eq]
    split <;> rfl
  value := updateOffset_effective

/-! ### A run that counts -/

section Counting

variable {σ : Type} {updateOffset : σ → ℤ → ℤ → σ × ℕ} {value : σ → ℤ → ℤ}

theorem Represents.changed_iff (h : Represents updateOffset value) (s : σ) (i offset : ℤ) :
    (updateOffset s i offset).2 = 1 ↔ value s i ≠ offset := by
  rw [h.code]
  split <;> simp_all

/-- The first `n` different instances of a list whose offset is not the given one. -/
def firstOther (f : ℤ → ℤ) (offset : ℤ) (n : ℕ) (is : List ℤ) : List ℤ :=
  ((is.filter fun i => f i ≠ offset).eraseDups).take n

theorem firstOther_cons_same {f : ℤ → ℤ} {offset i : ℤ} (h : f i = offset) (n : ℕ) (is : List ℤ) :
    firstOther f offset n (i :: is) = firstOther f offset n is := by
  simp [firstOther, h]

/- A change takes its instance out of those that are looked for. -/
theorem firstOther_cons_other {f : ℤ → ℤ} {offset i : ℤ} (h : f i ≠ offset) (n : ℕ)
    (is : List ℤ) :
    firstOther f offset (n + 1) (i :: is) =
      i :: firstOther (Function.update f i offset) offset n is := by
  have hfilter : ((is.filter fun j => f j ≠ offset).filter fun j => !j == i) =
      is.filter fun j => Function.update f i offset j ≠ offset := by
    rw [List.filter_filter]
    refine List.filter_congr fun j _ => ?_
    by_cases hj : j = i <;> simp [hj]
  rw [firstOther, List.filter_cons_of_pos (by simpa using h), List.eraseDups_cons, hfilter]
  rfl

theorem updateCount_same (h : Represents updateOffset value) {offset i : ℤ} {p : Progress σ}
    (hi : value p.store i = offset) (count : ℤ) (is : List ℤ) (done : ℤ) :
    updateCount updateOffset offset count (i :: is) done p =
      updateCount updateOffset offset count is done
        ⟨(updateOffset p.store i offset).1, p.printed, p.slept⟩ := by
  rw [updateCount]
  exact if_neg fun hcode => (h.changed_iff _ _ _).mp hcode hi

theorem updateCount_other (h : Represents updateOffset value) {offset i : ℤ} {p : Progress σ}
    (hi : value p.store i ≠ offset) (count : ℤ) (is : List ℤ) (done : ℤ) :
    updateCount updateOffset offset count (i :: is) done p =
      if done + 1 ≥ count then ⟨(updateOffset p.store i offset).1, p.printed ++ [i], p.slept⟩
      else updateCount updateOffset offset count is (done + 1)
        ⟨(updateOffset p.store i offset).1, p.printed ++ [i], p.slept + 1⟩ := by
  rw [updateCount]
  exact if_pos ((h.changed_iff _ _ _).mpr hi)

theorem updateCount_spec (h : Represents updateOffset value) (offset count : ℤ) (is : List ℤ)
    (done : ℤ) (p : Progress σ) (n : ℕ) (hn : (n : ℤ) + 1 = max (count - done) 1) :
    let changed := firstOther (value p.store) offset (n + 1) is
    let q := updateCount updateOffset offset count is done p
    q.printed = p.printed ++ changed ∧ q.slept = p.slept + min changed.length n ∧
      ∀ j, value q.store j = if j ∈ changed then offset else value p.store j := by
  induction is generalizing done p n with
  | nil => simp [firstOther, updateCount]
  | cons i is ih =>
    by_cases hi : value p.store i = offset
    · have hvalue : value (updateOffset p.store i offset).1 = value p.store := by
        rw [h.value, ← hi, Function.update_eq_self]
      have hrest := ih done ⟨(updateOffset p.store i offset).1, p.printed, p.slept⟩ n hn
      rw [updateCount_same h hi, firstOther_cons_same hi]
      simpa only [hvalue] using hrest
    · rw [updateCount_other h hi, firstOther_cons_other hi]
      by_cases henough : done + 1 ≥ count
      · -- The last change: `n` is zero, and none is looked for behind it.
        obtain rfl : n = 0 := by omega
        rw [if_pos henough]
        refine ⟨by simp [firstOther], by simp, fun j => ?_⟩
        simp [h.value, firstOther, Function.update_apply]
      · obtain ⟨m, rfl⟩ : ∃ m, n = m + 1 := ⟨n - 1, by omega⟩
        rw [if_neg henough]
        obtain ⟨hprinted, hslept, hstore⟩ := ih (done + 1)
          ⟨(updateOffset p.store i offset).1, p.printed ++ [i], p.slept + 1⟩ m (by omega)
        rw [h.value] at hprinted hslept hstore
        refine ⟨by simpa using hprinted, ?_, fun j => ?_⟩
        · rw [hslept, List.length_cons]
          show p.slept + 1 + min _ m = p.slept + min (_ + 1) (m + 1)
          omega
        · rw [hstore, Function.update_apply]
          by_cases hj : j = i <;> simp [hj]

end Counting

/-- Whatever runs were made before it, a run with `--count` changes the first instances of
its list, masters to isolate or slaves to reset, that do not have the offset yet, as many as
the count says if there are so many; a negative count is taken for one. It prints these,
changes nothing else, and sleeps after each change but the one that completes the count. -/
theorem isolate_count_changes_first (before : List (Args × List Instance)) (args : Args)
    (hnone : args.instances = none) (hcount : args.count ≠ 0) (data : List Instance) :
    let file := (session isolate before none).1
    let offset := if args.reset then 0 else 1
    let names := (if args.reset then getSlaves data else getMasters data).map Instance.iname
    ∃ p, isolate args data file = some p ∧
      p.printed = ((names.filter fun i => getVrrpOffset file i ≠ offset).eraseDups).take
        (max args.count 1).toNat ∧
      p.slept = min p.printed.length ((max args.count 1).toNat - 1) ∧
      ∀ i, getVrrpOffset p.store i = if i ∈ p.printed then offset else getVrrpOffset file i := by
  intro file offset names
  obtain ⟨n, hn⟩ : ∃ n : ℕ, (n : ℤ) + 1 = max (args.count - 0) 1 :=
    ⟨(max args.count 1).toNat - 1, by omega⟩
  have htoNat : (max args.count 1).toNat = n + 1 := by omega
  obtain ⟨hprinted, hslept, hstore⟩ := updateCount_spec represents_effective offset args.count names 0
    ⟨file, [], 0⟩ n hn
  refine ⟨updateCount updateOffset offset args.count names 0 ⟨file, [], 0⟩, ?_, ?_, ?_,
    fun i => ?_⟩
  · simp only [isolate, script, hnone, if_neg hcount]
    rfl
  · simp only [getVrrpOffset_eq, htoNat]
    exact hprinted
  · rw [hslept, hprinted, htoNat]
    exact Nat.zero_add _
  · rw [getVrrpOffset_eq, getVrrpOffset_eq, hstore, hprinted]
    rfl

/- Of the masters one is isolated already, by a run with `--instances 42`, and two will be;
the last one is not reached. -/
theorem isolate_count_changes_first_two :
    let file := (session isolate [(⟨0, some [42], false⟩, [])] none).1
    ∃ p, isolate ⟨2, none, false⟩ [⟨41, 2⟩, ⟨61, 1⟩, ⟨42, 2⟩, ⟨43, 2⟩, ⟨44, 2⟩] file = some p ∧
      p.printed = [41, 43] ∧ p.slept = min p.printed.length 1 ∧
      ∀ i, getVrrpOffset p.store i = if i ∈ p.printed then 1 else getVrrpOffset file i :=
  isolate_count_changes_first [(⟨0, some [42], false⟩, [])] ⟨2, none, false⟩ rfl (by decide)
    [⟨41, 2⟩, ⟨61, 1⟩, ⟨42, 2⟩, ⟨43, 2⟩, ⟨44, 2⟩]

/-! ### Sessions of the two scripts -/

section Sessions

variable {σ τ : Type}

structure Progress.Alike (R : σ → τ → Prop) (p : Progress σ) (q : Progress τ) : Prop where
  store : R p.store q.store
  printed : p.printed = q.printed
  slept : p.slept = q.slept

/-- Updates with the offsets `o` and `o'` keep related stores related, with the same code. -/
def Lockstep (R : σ → τ → Prop) (updateOffset : σ → ℤ → ℤ → σ × ℕ)
    (updateOffset' : τ → ℤ → ℤ → τ × ℕ) (o o' : ℤ) : Prop :=
  ∀ s t i, R s t →
    R (updateOffset s i o).1 (updateOffset' t i o').1 ∧
      (updateOffset s i o).2 = (updateOffset' t i o').2

variable {R : σ → τ → Prop} {updateOffset : σ → ℤ → ℤ → σ × ℕ}
  {updateOffset' : τ → ℤ → ℤ → τ × ℕ} {o o' : ℤ}

theorem updateEach_alike (h : Lockstep R updateOffset updateOffset' o o') (is : List ℤ)
    {p : Progress σ} {q : Progress τ} (hpq : p.Alike R q) :
    (updateEach updateOffset o is p).Alike R (updateEach updateOffset' o' is q) := by
  induction is generalizing p q with
  | nil => exact hpq
  | cons i is ih =>
    obtain ⟨hstore, hcode⟩ := h p.store q.store i hpq.store
    refine ih ⟨hstore, ?_, ?_⟩
    · rw [hpq.printed]
    · rw [hcode, hpq.slept]

theorem updateCount_alike (h : Lockstep R updateOffset updateOffset' o o') (count : ℤ)
    (is : List ℤ) (done : ℤ) {p : Progress σ} {q : Progress τ} (hpq : p.Alike R q) :
    (updateCount updateOffset o count is done p).Alike R
      (updateCount updateOffset' o' count is done q) := by
  induction is generalizing p q done with
  | nil => exact hpq
  | cons i is ih =>
    obtain ⟨hstore, hcode⟩ := h p.store q.store i hpq.store
    simp only [updateCount, ← hcode, ← hpq.printed, ← hpq.slept]
    split
    · split
      · exact ⟨hstore, rfl, rfl⟩
      · exact ih _ ⟨hstore, rfl, rfl⟩
    · exact ih _ ⟨hstore, rfl, rfl⟩

theorem script_alike {a b : ℤ} (hreset : Lockstep R updateOffset updateOffset' 0 0)
    (hisolate : Lockstep R updateOffset updateOffset' a b) (args : Args) (data : List Instance)
    {s : σ} {t : τ} (hst : R s t) :
    Option.Rel (Progress.Alike R) (script updateOffset a args data s)
      (script updateOffset' b args data t) := by
  have hlock : Lockstep R updateOffset updateOffset' (if args.reset then 0 else a)
      (if args.reset then 0 else b) := by
    split
    · exact hreset
    · exact hisolate
  have hstart : (⟨s, [], 0⟩ : Progress σ).Alike R ⟨t, [], 0⟩ := ⟨hst, rfl, rfl⟩
  simp only [script]
  cases args.instances with
  | none =>
    by_cases hcount : args.count = 0
    · simp only [if_pos hcount]
      exact .some (updateEach_alike hlock _ hstart)
    · simp only [if_neg hcount]
      exact .some (updateCount_alike hlock _ _ _ hstart)
  | some instances =>
    by_cases hcount : args.count = 0
    · simp only [hcount, ne_eq, not_true_eq_false, if_false]
      exact .some (updateEach_alike hlock _ hstart)
    · simp only [ne_eq, hcount, not_false_eq_true, if_true]
      exact .none

theorem session_alike {run : Args → List Instance → σ → Option (Progress σ)}
    {run' : Args → List Instance → τ → Option (Progress τ)}
    (h : ∀ args data s t, R s t →
      Option.Rel (Progress.Alike R) (run args data s) (run' args data t))
    (runs : List (Args × List Instance)) {s : σ} {t : τ} (hst : R s t) :
    R (session run runs s).1 (session run' runs t).1 ∧
      (session run runs s).2 = (session run' runs t).2 := by
  induction runs generalizing s t with
  | nil => exact ⟨hst, rfl⟩
  | cons r runs ih =>
    obtain ⟨args, data⟩ := r
    have hrun := h args data s t hst
    rw [session, session]
    cases hp : run args data s with
    | none =>
      cases hq : run' args data t with
      | none => exact ih hst
      | some q => simp [hp, hq] at hrun
    | some p =>
      cases hq : run' args data t with
      | none => simp [hp, hq] at hrun
      | some q =>
        have hpq : p.Alike R q := by simpa [hp, hq] using hrun
        obtain ⟨hstore, hshown⟩ := ih hpq.store
        refine ⟨hstore, ?_⟩
        show (p.printed, p.slept) :: _ = (q.printed, q.slept) :: _
        rw [hpq.printed, hpq.slept, hshown]

end Sessions

/-- The track file of an instance has -100 times its offset in the JSON file, which
is 0 or 1. -/
def Scaled (file : Option (List UInt8)) (files : TrackFile.Files) : Prop :=
  ∀ i, TrackFile.effective files i = -100 * effective file i ∧
    (effective file i = 0 ∨ effective file i = 1)

theorem lockstep_scaled {o : ℤ} (ho : o = 0 ∨ o = 1) :
    Lockstep Scaled updateOffset TrackFile.updateOffset o (-100 * o) := by
  intro file files i hscaled
  refine ⟨fun j => ?_, ?_⟩
  · rw [represents_effective.value, TrackFile.represents_effective.value]
    by_cases hj : j = i
    · subst hj
      simpa using ho
    · simpa [Function.update_of_ne hj] using hscaled j
  · rw [represents_effective.code, TrackFile.represents_effective.code, (hscaled i).1]
    congr 1
    exact propext ⟨fun h => by rw [h], fun h => by omega⟩

/-- Whatever runs are made, with whatever instances reported at each, the two scripts
print and sleep alike, and isolate the same instances: the one with the status 1 of
`get_vrrp_offset`, the other with -100 in the track file. -/
theorem scripts_isolate_alike (runs : List (Args × List Instance)) :
    let json := session isolate runs none
    let track := session TrackFile.isolate runs fun _ => none
    json.2 = track.2 ∧
      ∀ i, (getVrrpOffset json.1 i = 0 ∨ getVrrpOffset json.1 i = 1) ∧
        TrackFile.effective track.1 i = -100 * getVrrpOffset json.1 i := by
  intro json track
  have hstart : Scaled none fun _ => none := fun i => ⟨rfl, .inl rfl⟩
  obtain ⟨hscaled, hshown⟩ := session_alike
    (fun args data _ _ => script_alike (lockstep_scaled (.inl rfl)) (lockstep_scaled (.inr rfl))
      args data) runs hstart
  refine ⟨hshown, fun i => ?_⟩
  rw [getVrrpOffset_eq]
  exact ⟨(hscaled i).2, (hscaled i).1⟩

end KeepalivedDevel.OffsetStore
