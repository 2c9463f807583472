import Mathlib.Data.List.Nodup
import Mathlib.Data.List.Perm.Subperm
import Mathlib.Data.Nat.Find
import Mathlib.Tactic.Common

/-!
# Removing entries of a list by number

A loop that counts `i` from 2 on takes the `i`-th entry of a list, or the last one
of a shorter list, and removes it or leaves it there. The list is numbered anew
every time while `i` goes on counting, so that after a removal an entry is passed
over.
-/

namespace ShLib.Sweep

variable {α : Type}

/- The line that `head -i | tail -1` prints. -/
def pick (i : ℕ) (xs : List α) : Option α := (xs.take i).getLast?

theorem pick_eq_getElem {xs : List α} {k : ℕ} (h : k < xs.length) : pick (k + 1) xs = xs[k]? := by
  have hlength : (xs.take (k + 1)).length - 1 = k := by
    rw [List.length_take]
    omega
  rw [pick, List.getLast?_eq_getElem?, hlength, List.getElem?_take_of_lt (Nat.lt_succ_self k)]

theorem pick_append {us vs : List α} {i : ℕ} (hi : us.length < i) (hvs : vs ≠ []) :
    ∃ x ∈ vs, pick i (us ++ vs) = some x := by
  have hne : vs.take (i - us.length) ≠ [] := by
    rw [ne_eq, List.take_eq_nil_iff, not_or]
    exact ⟨by omega, hvs⟩
  refine ⟨(vs.take (i - us.length)).getLast hne, List.mem_of_mem_take (List.getLast_mem hne), ?_⟩
  rw [pick, List.take_append, List.take_of_length_le (by omega), List.getLast?_append_of_ne_nil _ hne,
    List.getLast?_eq_getLast_of_ne_nil hne]

/- As many turns as there are entries: all entries are taken exactly if every turn
   takes a new one. -/
theorem all_taken_iff {xs : List α} (turn : ℕ → α) (hnd : xs.Nodup) :
    (∀ x ∈ xs, ∃ j < xs.length, turn j = x) ↔
      ∀ k < xs.length, turn k ∈ xs ∧ ∀ j < k, turn j ≠ turn k := by
  have hlength : ((List.range xs.length).map turn).length = xs.length := by
    rw [List.length_map, List.length_range]
  have hmem : ∀ x, x ∈ (List.range xs.length).map turn ↔ ∃ j < xs.length, turn j = x := by
    simp
  constructor
  · intro h
    have hsub : xs ⊆ (List.range xs.length).map turn := fun x hx => (hmem x).mpr (h x hx)
    have hperm := (List.subperm_of_subset hnd hsub).perm_of_length_le (le_of_eq hlength)
    have hnd' := hperm.nodup_iff.mp hnd
    intro k hk
    refine ⟨hperm.mem_iff.mpr ((hmem _).mpr ⟨k, hk, rfl⟩), ?_⟩
    intro j hj heq
    have hinj := List.inj_on_of_nodup_map hnd' (List.mem_range.mpr (show j < xs.length by omega))
      (List.mem_range.mpr hk) heq
    omega
  · intro h
    have hnd' : ((List.range xs.length).map turn).Nodup := by
      refine List.Nodup.map_on ?_ List.nodup_range
      intro j hj k hk heq
      rw [List.mem_range] at hj hk
      rcases Nat.lt_trichotomy j k with hlt | rfl | hlt
      · exact absurd heq ((h k hk).2 j hlt)
      · rfl
      · exact absurd heq.symm ((h j hj).2 k hlt)
    have hsub : (List.range xs.length).map turn ⊆ xs := by
      intro x hx
      obtain ⟨j, hj, rfl⟩ := (hmem x).mp hx
      exact (h j hj).1
    have hperm := (List.subperm_of_subset hnd' hsub).perm_of_length_le (le_of_eq hlength.symm)
    intro x hx
    exact (hmem x).mp (hperm.mem_iff.mpr hx)

variable [DecidableEq α]

def without (x : α) (xs : List α) : List α := xs.erase x

theorem without_cons_self (x : α) (xs : List α) : without x (x :: xs) = xs := List.erase_cons_head ..

theorem without_cons_of_ne {x y : α} (h : y ≠ x) (xs : List α) :
    without x (y :: xs) = y :: without x xs :=
  List.erase_cons_tail (by simpa using h)

theorem mem_without_of_ne {x y : α} (h : y ≠ x) {xs : List α} : y ∈ without x xs ↔ y ∈ xs :=
  List.mem_erase_of_ne h

theorem length_without {x : α} {xs : List α} (h : x ∈ xs) :
    (without x xs).length = xs.length - 1 :=
  List.length_erase_of_mem h

variable (removes : ℕ → Bool) (xs : List α)

/- The list when `i` is `k + 2`; `removes i` says whether the entry taken then
   is removed. -/
def before : ℕ → List α
  | 0 => xs
  | k + 1 =>
    match pick (k + 2) (before k) with
    | none => before k
    | some x => if removes (k + 2) then without x (before k) else before k

def picked (k : ℕ) : Option α := pick (k + 2) (before removes xs k)

variable {removes xs}

theorem before_succ {k : ℕ} {x : α} (h : picked removes xs k = some x) :
    before removes xs (k + 1) =
      if removes (k + 2) then without x (before removes xs k) else before removes xs k := by
  rw [picked] at h
  rw [before, h]

theorem before_sublist (removes : ℕ → Bool) (xs : List α) (k : ℕ) : (before removes xs k).Sublist xs := by
  induction k with
  | zero => exact List.Sublist.refl xs
  | succ k ih =>
    rw [before]
    split
    · exact ih
    · split
      · exact (List.erase_sublist (a := _)).trans ih
      · exact ih

theorem length_before (removes : ℕ → Bool) (xs : List α) (k : ℕ) : xs.length ≤ (before removes xs k).length + k := by
  induction k with
  | zero => exact Nat.le_refl _
  | succ k ih =>
    rw [before]
    cases hpick : pick (k + 2) (before removes xs k) with
    | none => exact Nat.le_succ_of_le ih
    | some x =>
      have herase : (before removes xs k).length - 1 ≤ (without x (before removes xs k)).length :=
        List.le_length_erase
      simp only
      split
      · omega
      · omega

/- There is an entry to take at every number up to the length of the list. -/
theorem exists_picked (removes : ℕ → Bool) {k : ℕ} (hk : k < xs.length) :
    ∃ x ∈ before removes xs k, picked removes xs k = some x := by
  have hlength := length_before removes xs k
  have hne : before removes xs k ≠ [] := List.ne_nil_of_length_pos (by omega)
  have hfront : ([] : List α).length < k + 2 := Nat.succ_pos (k + 1)
  exact pick_append hfront hne

theorem before_of_none_removed {k : ℕ} (h : ∀ j < k, removes (j + 2) = false) :
    before removes xs k = xs := by
  induction k with
  | zero => rfl
  | succ k ih =>
    rw [before, ih fun j hj => h j (by omega)]
    cases pick (k + 2) xs with
    | none => rfl
    | some x => simp [h k (Nat.lt_succ_self k)]

/- As long as the front of the list is shorter than `i`, it stays as it is. -/
theorem before_step {us vs : List α} {k : ℕ} (hnd : xs.Nodup) (hk : before removes xs k = us ++ vs)
    (hus : us.length < k + 2) (hvs : vs ≠ []) :
    ∃ x ∈ vs, picked removes xs k = some x ∧
      before removes xs (k + 1) = us ++ (if removes (k + 2) then without x vs else vs) := by
  obtain ⟨x, hx, hpick⟩ := pick_append hus hvs
  refine ⟨x, hx, by rw [picked, hk, hpick], ?_⟩
  have hnd' : (us ++ vs).Nodup := by
    rw [← hk]
    exact hnd.sublist (before_sublist removes xs k)
  have hxus : x ∉ us := fun h => (List.disjoint_of_nodup_append hnd') h hx
  rw [before, hk, hpick]
  cases removes (k + 2) with
  | false => rfl
  | true => exact List.erase_append_right vs hxus

/-! ### After the first removal -/

omit [DecidableEq α] in
theorem passed_over_length {m : ℕ} (x : α) (r : ℕ) :
    (xs.take (m + 1) ++ [x]).length < m + 1 + r + 2 := by
  rw [List.length_append, List.length_take, List.length_singleton]
  omega

section FirstRemoval

variable {m : ℕ} (hnd : xs.Nodup) (hlen : m + 2 ≤ xs.length) (hm : removes (m + 2) = true)
  (hfirst : ∀ k < m, removes (k + 2) = false)

include hfirst in
theorem picked_until_first {k : ℕ} (hk : k ≤ m) (hkl : k + 2 ≤ xs.length) :
    picked removes xs k = xs[k + 1]? := by
  rw [picked, before_of_none_removed fun j hj => hfirst j (by omega)]
  exact pick_eq_getElem hkl

include hnd hlen hm hfirst in
theorem before_after_first :
    before removes xs (m + 1) = xs.take (m + 1) ++ xs.drop (m + 2) := by
  have hpick : pick (m + 2) xs = some xs[m + 1] := by
    rw [pick_eq_getElem hlen, List.getElem?_eq_getElem]
  rw [before, before_of_none_removed hfirst, hpick]
  simp only [hm, ite_true, without]
  rw [hnd.erase_getElem, List.eraseIdx_eq_take_drop_succ]

include hnd hlen hm hfirst in
/- With a removal at every number from the first one up to the last but one, the
   entries behind the first removed one all get their turn. -/
theorem before_of_all_removed (r : ℕ) (hr : m + r + 2 < xs.length)
    (hall : ∀ j, m + 2 < j → j < xs.length → removes j = true) :
    ∃ vs, before removes xs (m + 1 + r) = xs.take (m + 1) ++ vs ∧
      vs.length + r + m + 2 = xs.length ∧
      ∀ x ∈ xs.drop (m + 2), x ∈ vs ∨ ∃ j < m + 1 + r, picked removes xs j = some x := by
  induction r with
  | zero =>
    refine ⟨xs.drop (m + 2), before_after_first hnd hlen hm hfirst, ?_, fun x hx => .inl hx⟩
    rw [List.length_drop]
    omega
  | succ r ih =>
    obtain ⟨vs, hbefore, hlength, hturn⟩ := ih (by omega)
    have hne : vs ≠ [] := List.ne_nil_of_length_pos (by omega)
    have hus : (xs.take (m + 1)).length < m + 1 + r + 2 := by
      rw [List.length_take]
      omega
    obtain ⟨x, hx, hpicked, hnext⟩ := before_step hnd hbefore hus hne
    rw [hall (m + 1 + r + 2) (by omega) (by omega), if_pos rfl] at hnext
    refine ⟨without x vs, hnext, ?_, ?_⟩
    · rw [length_without hx]
      omega
    · intro y hy
      rcases hturn y hy with hmem | ⟨j, hj, hjy⟩
      · by_cases hyx : y = x
        · exact .inr ⟨m + 1 + r, by omega, by rw [hpicked, hyx]⟩
        · exact .inl ((mem_without_of_ne hyx).mpr hmem)
      · exact .inr ⟨j, by omega, hjy⟩

include hnd hlen hm hfirst in
/- With a number after the first removal at which nothing is removed, and which is
   not the last one, there is always an entry behind the one passed over. -/
theorem before_of_one_kept {j : ℕ} (hj : m + 2 < j) (hjl : j < xs.length)
    (hkept : removes j = false) (r : ℕ) (hr : m + r + 2 < xs.length) :
    ∃ vs, before removes xs (m + 1 + r) = xs.take (m + 1) ++ [xs[m + 2]] ++ vs ∧
      xs.length ≤ vs.length + (m + r + 3) ∧
      (j < m + r + 3 → xs.length < vs.length + (m + r + 3)) := by
  induction r with
  | zero =>
    refine ⟨xs.drop (m + 3), ?_, ?_, ?_⟩
    · rw [before_after_first hnd hlen hm hfirst, List.append_assoc, List.singleton_append,
        ← List.drop_eq_getElem_cons]
    · rw [List.length_drop]
      omega
    · omega
  | succ r ih =>
    obtain ⟨vs, hbefore, hle, hlt⟩ := ih (by omega)
    have hne : vs ≠ [] := by
      apply List.ne_nil_of_length_pos
      omega
    obtain ⟨x, hx, -, hnext⟩ := before_step hnd hbefore (passed_over_length _ r) hne
    refine ⟨_, hnext, ?_, ?_⟩
    all_goals
      split
      · next hremoves =>
        have hother : m + 1 + r + 2 ≠ j := by
          rintro rfl
          rw [hkept] at hremoves
          cases hremoves
        rw [length_without hx]
        omega
      · omega

end FirstRemoval

/-! ### Who gets a turn -/

omit [DecidableEq α] in
theorem exists_first {k : ℕ} (hk : removes (k + 2) = true) :
    ∃ m ≤ k, removes (m + 2) = true ∧ ∀ j < m, removes (j + 2) = false := by
  have hany : ∃ k, removes (k + 2) = true := ⟨k, hk⟩
  refine ⟨Nat.find hany, Nat.find_min' hany hk, Nat.find_spec hany, ?_⟩
  intro j hj
  exact Bool.eq_false_iff.mpr (Nat.find_min hany hj)

/- The entries that are taken once, one after the other, because nothing is
   removed before, or that stand behind the first removed one. -/
theorem all_picked (hnd : xs.Nodup)
    (h : ∀ i j, 2 ≤ i → i < j → j < xs.length → removes i = true → removes j = true)
    {k : ℕ} (hk : k + 1 < xs.length) :
    ∃ j, j + 2 ≤ xs.length ∧ picked removes xs j = some xs[k + 1] := by
  by_cases hany : ∃ j < k, removes (j + 2) = true
  · obtain ⟨i, hi, hremoved⟩ := hany
    obtain ⟨m, hmi, hm, hfirst⟩ := exists_first hremoved
    have hall : ∀ j, m + 2 < j → j < xs.length → removes j = true :=
      fun j hj hjl => h (m + 2) j (by omega) hj hjl hm
    obtain ⟨vs, hbefore, hlength, hturn⟩ :=
      before_of_all_removed hnd (by omega) hm hfirst (xs.length - m - 3) (by omega) hall
    have hmem : xs[k + 1] ∈ xs.drop (m + 2) := by
      rw [List.mem_drop_iff_getElem]
      exact ⟨k - m - 1, by omega, by congr 1; omega⟩
    rcases hturn _ hmem with hlast | ⟨j, hj, hpicked⟩
    · obtain ⟨y, rfl⟩ := List.length_eq_one_iff.mp (show vs.length = 1 by omega)
      have hus : (xs.take (m + 1)).length < m + 1 + (xs.length - m - 3) + 2 := by
        rw [List.length_take]
        omega
      obtain ⟨x, hx, hpicked, -⟩ := before_step hnd hbefore hus (by simp)
      rw [List.mem_singleton] at hx hlast
      exact ⟨m + 1 + (xs.length - m - 3), by omega, by rw [hpicked, hx, hlast]⟩
    · exact ⟨j, by omega, hpicked⟩
  · have hnone : ∀ j < k, removes (j + 2) = false := by
      intro j hj
      by_contra htrue
      exact hany ⟨j, hj, by simpa using htrue⟩
    refine ⟨k, by omega, ?_⟩
    rw [picked_until_first hnone (Nat.le_refl k) (by omega), List.getElem?_eq_getElem]

/- After a removal the next entry comes to stand at the number just used, and is
   taken only if the list gets so short that it is the last one. -/
theorem not_picked (hnd : xs.Nodup) {m j : ℕ} (hm : removes (m + 2) = true)
    (hfirst : ∀ k < m, removes (k + 2) = false) (hj : m + 2 < j) (hjl : j < xs.length)
    (hkept : removes j = false) {k : ℕ} (hk : k + 2 ≤ xs.length) :
    picked removes xs k ≠ some xs[m + 2] := by
  intro hpicked
  rcases Nat.lt_or_ge m k with hmk | hkm
  · obtain ⟨r, rfl⟩ := Nat.exists_eq_add_of_le (show m + 1 ≤ k by omega)
    obtain ⟨vs, hbefore, hle, hlt⟩ :=
      before_of_one_kept hnd (by omega) hm hfirst hj hjl hkept r (by omega)
    have hne : vs ≠ [] := by
      apply List.ne_nil_of_length_pos
      omega
    obtain ⟨x, hx, hpicked', -⟩ := before_step hnd hbefore (passed_over_length _ r) hne
    rw [hpicked'] at hpicked
    have hnd' := hnd.sublist (before_sublist removes xs (m + 1 + r))
    rw [hbefore] at hnd'
    have hmem : xs[m + 2] ∈ xs.take (m + 1) ++ [xs[m + 2]] :=
      List.mem_append_right _ (List.mem_singleton_self _)
    exact List.disjoint_of_nodup_append hnd' hmem (Option.some.inj hpicked ▸ hx)
  · rw [picked_until_first hfirst hkm hk, List.getElem?_eq_getElem (by omega)] at hpicked
    have hindex := (hnd.getElem_inj_iff).mp (Option.some.inj hpicked)
    omega

/-- Every entry from the second on is taken at some number up to the length of the
list exactly when a removal is followed by removals only, the last number apart. -/
theorem all_picked_iff (hnd : xs.Nodup) :
    (∀ x ∈ xs.tail, ∃ k, k + 2 ≤ xs.length ∧ picked removes xs k = some x) ↔
      ∀ i j, 2 ≤ i → i < j → j < xs.length → removes i = true → removes j = true := by
  constructor
  · intro hall i j hi hij hjl hremoved
    by_contra hkept
    obtain ⟨k, rfl⟩ := Nat.exists_eq_add_of_le' hi
    obtain ⟨m, hmk, hm, hfirst⟩ := exists_first hremoved
    have hmem : xs[m + 2] ∈ xs.tail := by
      rw [List.mem_iff_getElem?]
      exact ⟨m + 1, by rw [List.getElem?_tail, List.getElem?_eq_getElem]⟩
    obtain ⟨k, hk, hpicked⟩ := hall _ hmem
    exact not_picked hnd hm hfirst (by omega) hjl (by simpa using hkept) hk hpicked
  · intro h x hx
    obtain ⟨k, hk, rfl⟩ := List.mem_iff_getElem.mp hx
    rw [List.length_tail] at hk
    obtain ⟨j, hj, hpicked⟩ := all_picked hnd h (k := k) (by omega)
    exact ⟨j, hj, by rw [hpicked, List.getElem_tail]⟩

end ShLib.Sweep
