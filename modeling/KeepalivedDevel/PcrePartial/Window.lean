import KeepalivedDevel.CLib.Runs
import Mathlib.Data.Nat.Notation
import Mathlib.Algebra.BigOperators.Group.List.Basic
import Mathlib.Algebra.Ring.Nat
import Mathlib.Data.List.Induction

/-!
# The window of `code_test/pcre/pcre2_partial.c`

The page is searched through a window, given to the matcher by its address and
length. The loop of `pcre2_cmd.c` is the same. Pointers and `size_t` are 64-bit
words, so the difference by which `start` moves is taken modulo `2 ^ 64`.
-/

namespace KeepalivedDevel.PcrePartial
open CLib.Runs

/-- The page as an object in memory. -/
structure Page where
  address : ℕ
  bytes : List UInt8
  fits : address + bytes.length < 18446744073709551616
  object : bytes.length < 9223372036854775808

structure Window where
  start : UInt64
  len : UInt64
  deriving Repr, DecidableEq

def Page.firstWindow (page : Page) : Window := ⟨UInt64.ofNat page.address, 50⟩

/-- What PARTIAL does to the window (`pcre2_partial.c:95-99`). Both operands of
the comparison are unsigned. -/
def Window.onPartial (w : Window) (maxLookbehind : UInt32) (ovector0 : UInt64) : Window where
  start := w.start + (ovector0 - maxLookbehind.toUInt64)
  len := if ovector0 - maxLookbehind.toUInt64 ≤ 0 then w.len + 50 else 50

/- The window is part of the page. -/
def Page.Inside (page : Page) (w : Window) : Prop :=
  page.address ≤ w.start.toNat ∧
    w.start.toNat + w.len.toNat ≤ page.address + page.bytes.length

instance (page : Page) (w : Window) : Decidable (page.Inside w) :=
  inferInstanceAs (Decidable (_ ∧ _))

/-! ### One step -/

theorem onPartial_len (w : Window) (maxLookbehind : UInt32) (o : UInt64) :
    (w.onPartial maxLookbehind o).len =
      if o.toNat = maxLookbehind.toNat then w.len + 50 else 50 := by
  have hle : o - maxLookbehind.toUInt64 ≤ 0 ↔ o.toNat = maxLookbehind.toNat := by
    have ho := o.toNat_lt
    have hm := maxLookbehind.toNat_lt
    rw [UInt64.le_iff_toNat_le, UInt64.toNat_sub, UInt32.toNat_toUInt64, UInt64.toNat_zero]
    omega
  unfold Window.onPartial
  simp only [hle]

/-- The window as an offset into the page and a length. -/
structure Window.At (w : Window) (page : Page) (offset len : ℕ) : Prop where
  start : w.start.toNat = page.address + offset
  length : w.len.toNat = len
  inside : offset + len ≤ page.bytes.length

def nextLen (maxLookbehind len o : ℕ) : ℕ := if o = maxLookbehind then len + 50 else 50

theorem Window.At.next_len {page : Page} {w : Window} {offset len : ℕ} (h : w.At page offset len)
    (maxLookbehind : UInt32) (o : UInt64) :
    (w.onPartial maxLookbehind o).len.toNat = nextLen maxLookbehind.toNat len o.toNat := by
  have hlen := h.length
  have hin := h.inside
  have hobj := page.object
  rw [onPartial_len, nextLen]
  by_cases ho : o.toNat = maxLookbehind.toNat
  · rw [if_pos ho, if_pos ho, UInt64.toNat_add, hlen]
    simp only [UInt64.reduceToNat]
    omega
  · rw [if_neg ho, if_neg ho]
    rfl

/- A start that has moved below the address 0 is behind the page again, but too
far behind it for the window to end inside. -/
theorem Window.At.inside_iff {page : Page} {w : Window} {offset len : ℕ} (h : w.At page offset len)
    (maxLookbehind : UInt32) {o : UInt64} (ho : o.toNat ≤ len) :
    page.Inside (w.onPartial maxLookbehind o) ↔
      maxLookbehind.toNat ≤ offset + o.toNat ∧
        offset + o.toNat + nextLen maxLookbehind.toNat len o.toNat ≤
          page.bytes.length + maxLookbehind.toNat := by
  have hin := h.inside
  have hfits := page.fits
  have hobj := page.object
  have hm := maxLookbehind.toNat_lt
  unfold Page.Inside
  rw [h.next_len, Window.onPartial, UInt64.toNat_add, UInt64.toNat_sub, UInt32.toNat_toUInt64,
    h.start]
  omega

theorem Window.At.next {page : Page} {w : Window} {offset len : ℕ} (h : w.At page offset len)
    {maxLookbehind : UInt32} {o : UInt64} (ho : o.toNat ≤ len)
    (hin : page.Inside (w.onPartial maxLookbehind o)) :
    (w.onPartial maxLookbehind o).At page (offset + o.toNat - maxLookbehind.toNat)
      (nextLen maxLookbehind.toNat len o.toNat) := by
  obtain ⟨hback, hend⟩ := (h.inside_iff maxLookbehind ho).mp hin
  have hinside := h.inside
  have hfits := page.fits
  refine ⟨?_, h.next_len maxLookbehind o, by omega⟩
  rw [Window.onPartial, UInt64.toNat_add, UInt64.toNat_sub, UInt32.toNat_toUInt64, h.start]
  omega

theorem firstWindow_at {page : Page} (h : 50 ≤ page.bytes.length) : page.firstWindow.At page 0 50 where
  start := by
    have hfits := page.fits
    show (UInt64.ofNat page.address).toNat = _
    rw [UInt64.toNat_ofNat']
    omega
  length := rfl
  inside := by omega

/-! ### A sequence of partial matches -/

/- The place the window has moved to, relative to the page, and its length, after
the results `os`; the length has grown since the last result that was not equal
to the lookbehind. -/
def moved (os : List UInt64) : ℕ := (os.map UInt64.toNat).sum

def grown (maxLookbehind : UInt32) (os : List UInt64) : ℕ :=
  50 * (1 + (os.reverse.takeWhile fun o => o.toNat = maxLookbehind.toNat).length)

/-- The window after the results `os` starts in the page and ends in it. -/
structure StaysInside (page : Page) (maxLookbehind : UInt32) (os : List UInt64) : Prop where
  start : os.length * maxLookbehind.toNat ≤ moved os
  ends : moved os + grown maxLookbehind os ≤
    page.bytes.length + os.length * maxLookbehind.toNat

theorem moved_concat (os : List UInt64) (o : UInt64) : moved (os ++ [o]) = moved os + o.toNat := by
  simp [moved]

theorem grown_concat (maxLookbehind : UInt32) (os : List UInt64) (o : UInt64) :
    grown maxLookbehind (os ++ [o]) =
      nextLen maxLookbehind.toNat (grown maxLookbehind os) o.toNat := by
  unfold grown nextLen
  by_cases ho : o.toNat = maxLookbehind.toNat
  · simp only [List.reverse_append, List.reverse_singleton, List.singleton_append,
      List.takeWhile_cons, ho, decide_true, ite_true, List.length_cons]
    omega
  · simp [ho]

/- The window after some results. -/
def windowAfter (page : Page) (maxLookbehind : UInt32) (os : List UInt64) : Window :=
  os.foldl (fun w o => w.onPartial maxLookbehind o) page.firstWindow

/-- Every result is a place in the window it was found in. -/
def PlacesInWindow (page : Page) (maxLookbehind : UInt32) (os : List UInt64) : Prop :=
  EachStep (fun w o => w.onPartial maxLookbehind o) (fun w o => o ≤ w.len) page.firstWindow os

section
variable {page : Page} {maxLookbehind : UInt32}

theorem windowAfter_concat (os : List UInt64) (o : UInt64) :
    windowAfter page maxLookbehind (os ++ [o]) =
      (windowAfter page maxLookbehind os).onPartial maxLookbehind o := by
  simp [windowAfter]

/- A step lemma for both sides: where the window before the last result is known,
it stays inside exactly if the sums say so. -/
theorem inside_concat_iff {os : List UInt64} {o : UInt64}
    (hat : (windowAfter page maxLookbehind os).At page
      (moved os - os.length * maxLookbehind.toNat) (grown maxLookbehind os))
    (hstart : os.length * maxLookbehind.toNat ≤ moved os)
    (ho : o ≤ (windowAfter page maxLookbehind os).len) :
    page.Inside (windowAfter page maxLookbehind (os ++ [o])) ↔
      StaysInside page maxLookbehind (os ++ [o]) := by
  rw [UInt64.le_iff_toNat_le, hat.length] at ho
  have hlen : (os ++ [o]).length * maxLookbehind.toNat =
      os.length * maxLookbehind.toNat + maxLookbehind.toNat := by
    rw [List.length_append, List.length_singleton, Nat.succ_mul]
  rw [windowAfter_concat, hat.inside_iff maxLookbehind ho]
  constructor
  · rintro ⟨hs, he⟩
    refine ⟨?_, ?_⟩
    · rw [hlen, moved_concat]
      omega
    · rw [hlen, moved_concat, grown_concat]
      omega
  · rintro ⟨hs, he⟩
    rw [hlen, moved_concat] at hs he
    rw [grown_concat] at he
    omega

theorem windowAfter_at (hlong : 50 ≤ page.bytes.length) {os : List UInt64}
    (hos : PlacesInWindow page maxLookbehind os)
    (h : ∀ done, done <+: os → done ≠ [] → StaysInside page maxLookbehind done) :
    os.length * maxLookbehind.toNat ≤ moved os ∧
      (windowAfter page maxLookbehind os).At page
        (moved os - os.length * maxLookbehind.toNat) (grown maxLookbehind os) := by
  induction os using List.reverseRecOn with
  | nil => exact ⟨by simp, by simpa [moved, grown, windowAfter] using firstWindow_at hlong⟩
  | append_singleton os o ih =>
    have hpre : os <+: os ++ [o] := List.prefix_append _ _
    obtain ⟨hstart, hat⟩ := ih (fun done i hd => hos done i (hd.trans hpre))
      fun done hd => h done (hd.trans hpre)
    have ho : o ≤ (windowAfter page maxLookbehind os).len := hos os o (List.prefix_refl _)
    have hstays := h (os ++ [o]) (List.prefix_refl _) (by simp)
    have hin := (inside_concat_iff hat hstart ho).mpr hstays
    rw [windowAfter_concat] at hin
    have hnext := hat.next (by rwa [UInt64.le_iff_toNat_le, hat.length] at ho) hin
    refine ⟨hstays.start, ?_⟩
    rw [windowAfter_concat, moved_concat, grown_concat, List.length_append, List.length_singleton,
      Nat.succ_mul]
    rwa [show moved os + o.toNat - (os.length * maxLookbehind.toNat + maxLookbehind.toNat) =
      moved os - os.length * maxLookbehind.toNat + o.toNat - maxLookbehind.toNat by omega]

theorem staysInside_long {os : List UInt64} (h : StaysInside page maxLookbehind os) :
    50 ≤ page.bytes.length := by
  have hgrown : 50 ≤ grown maxLookbehind os := by
    unfold grown
    omega
  have hs := h.start
  have he := h.ends
  omega

theorem first_inside_long {o : UInt64} (h : page.Inside (windowAfter page maxLookbehind [o])) :
    50 ≤ page.bytes.length := by
  have hlen : 50 ≤ (windowAfter page maxLookbehind [o]).len.toNat := by
    show 50 ≤ (page.firstWindow.onPartial maxLookbehind o).len.toNat
    rw [onPartial_len]
    split
    · exact (by decide : 50 ≤ ((50 : UInt64) + 50).toNat)
    · decide
  obtain ⟨hs, he⟩ := h
  omega

end

theorem windows_inside_iff (page : Page) (maxLookbehind : UInt32) (os : List UInt64)
    (hos : PlacesInWindow page maxLookbehind os) :
    (∀ done, done <+: os → done ≠ [] → page.Inside (windowAfter page maxLookbehind done)) ↔
      ∀ done, done <+: os → done ≠ [] → StaysInside page maxLookbehind done := by
  constructor
  · intro h
    -- one result more at a time, so that the window before it is known
    have hall : ∀ pre, pre <+: os → ∀ done, done <+: pre → done ≠ [] →
        StaysInside page maxLookbehind done := by
      intro pre
      induction pre using List.reverseRecOn with
      | nil =>
        intro _ done hd hne
        exact absurd (List.prefix_nil.mp hd) hne
      | append_singleton pre o ih =>
        intro hpre done hd hne
        have hshort : pre <+: os := (List.prefix_append _ _).trans hpre
        rcases List.prefix_concat_iff.mp hd with rfl | hd
        · have hlong : 50 ≤ page.bytes.length := by
            cases pre with
            | nil => exact first_inside_long (h [o] hpre (by simp))
            | cons p pre => exact staysInside_long (ih hshort _ (List.prefix_refl _) (by simp))
          obtain ⟨hstart, hat⟩ := windowAfter_at hlong
            (fun done i hd => hos done i (hd.trans hshort)) (ih hshort)
          exact (inside_concat_iff hat hstart (hos pre o hpre)).mp (h _ hpre hne)
        · exact ih hshort done hd hne
    exact hall os (List.prefix_refl _)
  · intro h done hd hne
    obtain ⟨pre, o, rfl⟩ := (List.eq_nil_or_concat' done).resolve_left hne
    have hlong := staysInside_long (h _ hd hne)
    have hshort : pre <+: os := (List.prefix_append _ _).trans hd
    obtain ⟨hstart, hat⟩ := windowAfter_at hlong
      (fun done i hd => hos done i (hd.trans hshort)) fun done hd => h done (hd.trans hshort)
    exact (inside_concat_iff hat hstart (hos pre o hd)).mpr (h _ hd hne)

def sixty : Page where
  address := 4096
  bytes := List.replicate 60 120
  fits := by simp
  object := by simp

theorem places_singleton {o : UInt64} (ho : o ≤ 50) : PlacesInWindow sixty 0 [o] := by
  unfold PlacesInWindow
  rw [eachStep_cons]
  exact ⟨ho, eachStep_nil _⟩

/- A partial match ten bytes into the first window. -/
theorem windows_inside_ten :
    PlacesInWindow sixty 0 [10] ∧
      ∀ done, done <+: [10] → done ≠ [] → sixty.Inside (windowAfter sixty 0 done) := by
  have hplaces : PlacesInWindow sixty 0 [10] := places_singleton (by decide)
  refine ⟨hplaces, (windows_inside_iff sixty 0 [10] hplaces).mpr ?_⟩
  intro done hd hne
  rcases List.prefix_cons_iff.mp hd with h | ⟨t, rfl, ht⟩
  · exact absurd h hne
  · rw [List.prefix_nil.mp ht]
    refine ⟨by decide, ?_⟩
    simp [moved, grown, sixty]

/- A partial match at the start of the first window. -/
theorem windows_outside_zero :
    PlacesInWindow sixty 0 [0] ∧ ¬ sixty.Inside (windowAfter sixty 0 [0]) := by
  refine ⟨places_singleton (by decide), ?_⟩
  decide

end KeepalivedDevel.PcrePartial
