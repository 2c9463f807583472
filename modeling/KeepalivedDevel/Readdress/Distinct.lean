import KeepalivedDevel.Readdress.Code

/-!
# No address is given out twice

The addresses that one run of `readdress_all` puts in are strictly increasing:
`W` grows from file to file, and inside a file `X` and `Y` grow in the order of
their pair, however the lines with a placeholder are arranged.
-/

namespace KeepalivedDevel.Readdress
open CLib

/-! ### Addresses as texts -/

theorem Address.text_injective : Function.Injective Address.text := by
  have hparts : ∀ p : Address, p.text.splitOn dot =
      [numeral p.a, numeral p.b, numeral p.x, numeral p.y] := by
    intro p
    refine List.splitOn_intercalate dot ?_ (by simp)
    simp [not_mem_numeral (show isdigit dot = false from rfl)]
  intro p q h
  have hpq := hparts p
  rw [h, hparts q] at hpq
  simp only [List.cons.injEq, and_true] at hpq
  obtain ⟨ha, hb, hx, hy⟩ := hpq
  cases p
  cases q
  simp only [Address.mk.injEq]
  exact ⟨(numeral_inj ha).symm, (numeral_inj hb).symm, (numeral_inj hx).symm,
    (numeral_inj hy).symm⟩

/-! ### One file -/

/-- The order in which addresses are given out. -/
def Address.Before (p q : Address) : Prop :=
  p.b < q.b ∨ p.b = q.b ∧ (p.x < q.x ∨ p.x = q.x ∧ p.y < q.y)

theorem Address.Before.trans {p q r : Address} (hpq : p.Before q) (hqr : q.Before r) :
    p.Before r := by
  unfold Address.Before at *
  omega

theorem Address.Before.ne {p q : Address} (h : p.Before q) : p ≠ q := by
  rintro rfl
  unfold Address.Before at h
  omega

/-- A pass that puts an address in, and one that ends a block of placeholder lines,
moves on to a later address; every other pass leaves the variables alone. -/
theorem Vars.body_cases (v : Vars) (line : List UInt8) :
    (v.body line).vars.b = v.b ∧
      (((v.body line).vars = v ∧ (v.body line).substituted = none) ∨
        (v.nextIp.Before (v.body line).vars.nextIp ∧
          ∀ p ∈ (v.body line).substituted, p = v.nextIp)) := by
  unfold Vars.body
  split
  · refine ⟨rfl, .inr ⟨.inr ⟨rfl, .inr ⟨rfl, Nat.lt_succ_self _⟩⟩, ?_⟩⟩
    intro p hp
    obtain ⟨-, -, rfl⟩ := Option.mem_map.mp hp
    rfl
  · split
    · exact ⟨rfl, .inr ⟨.inr ⟨rfl, .inl (Nat.lt_succ_self _)⟩, by simp⟩⟩
    · exact ⟨rfl, .inl ⟨rfl, rfl⟩⟩

def Vars.substituted (v : Vars) (lines : List (List UInt8)) : List Address :=
  (v.loop lines).filterMap Pass.substituted

theorem Vars.substituted_cons (v : Vars) (line : List UInt8) (lines : List (List UInt8)) :
    v.substituted (line :: lines) =
      (v.body line).substituted.toList ++ (v.body line).vars.substituted lines := by
  unfold Vars.substituted
  rw [Vars.loop, List.filterMap_cons]
  cases (v.body line).substituted <;> rfl

theorem Vars.mem_substituted {v : Vars} {lines : List (List UInt8)} {p : Address}
    (h : p ∈ v.substituted lines) : p.b = v.b ∧ (p = v.nextIp ∨ v.nextIp.Before p) := by
  induction lines generalizing v with
  | nil => exact absurd h (by simp [Vars.substituted, Vars.loop])
  | cons line lines ih =>
    obtain ⟨hb, hcases⟩ := v.body_cases line
    rw [Vars.substituted_cons, List.mem_append] at h
    rcases hcases with ⟨hvars, hnone⟩ | ⟨hlater, hnow⟩
    · rw [hnone, hvars] at h
      exact ih (by simpa using h)
    · rcases h with h | h
      · have hp := hnow p (Option.mem_toList.mp h)
        exact ⟨congrArg Address.b hp, .inl hp⟩
      · obtain ⟨hpb, rfl | hp⟩ := ih h
        · exact ⟨hpb.trans hb, .inr hlater⟩
        · exact ⟨hpb.trans hb, .inr (hlater.trans hp)⟩

theorem Vars.substituted_pairwise (v : Vars) (lines : List (List UInt8)) :
    (v.substituted lines).Pairwise Address.Before := by
  induction lines generalizing v with
  | nil => simp [Vars.substituted, Vars.loop]
  | cons line lines ih =>
    obtain ⟨-, hcases⟩ := v.body_cases line
    rw [Vars.substituted_cons, List.pairwise_append]
    refine ⟨?_, ih _, ?_⟩
    · cases (v.body line).substituted <;> simp
    · intro p hp q hq
      rcases hcases with ⟨-, hnone⟩ | ⟨hlater, hnow⟩
      · exact absurd hp (by simp [hnone])
      · obtain rfl := hnow p (Option.mem_toList.mp hp)
        obtain ⟨-, rfl | hq⟩ := Vars.mem_substituted hq
        · exact hlater
        · exact hlater.trans hq

/-! ### All files -/

theorem mem_readdress_substituted {a p : Address} {f : CString}
    (h : p ∈ (readdress (some a) f).substituted) : p.b = a.b :=
  (Vars.mem_substituted h).1

theorem mem_readdressFrom_substituted {w : ℕ} {files : List CString} {p : Address}
    (h : p ∈ (readdressFrom w files).flatMap Outcome.substituted) : w ≤ p.b := by
  induction files generalizing w with
  | nil => exact absurd h (by simp [readdressFrom])
  | cons f files ih =>
    rw [readdressFrom, List.flatMap_cons, List.mem_append] at h
    rcases h with h | h
    · exact Nat.le_of_eq (mem_readdress_substituted h).symm
    · exact Nat.le_of_succ_le (ih h)

theorem readdressFrom_substituted_pairwise (w : ℕ) (files : List CString) :
    ((readdressFrom w files).flatMap Outcome.substituted).Pairwise Address.Before := by
  induction files generalizing w with
  | nil => simp [readdressFrom]
  | cons f files ih =>
    rw [readdressFrom, List.flatMap_cons, List.pairwise_append]
    refine ⟨Vars.substituted_pairwise _ _, ih _, ?_⟩
    intro p hp q hq
    left
    rw [mem_readdress_substituted hp]
    exact mem_readdressFrom_substituted hq

/-- Whatever the files hold, the addresses put in for the placeholder during one
run are different texts. -/
theorem readdressAll_addresses_nodup (files : List CString) :
    (((readdressAll files).flatMap Outcome.substituted).map Address.text).Nodup := by
  refine List.Nodup.map Address.text_injective ?_
  exact (readdressFrom_substituted_pairwise 100 files).imp Address.Before.ne

end KeepalivedDevel.Readdress
