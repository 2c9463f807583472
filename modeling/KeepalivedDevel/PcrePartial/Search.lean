import KeepalivedDevel.PcrePartial.Window
import KeepalivedDevel.CLib.Cycle
import KeepalivedDevel.CLib.Probe

/-!
# Searching a page through a window

A pattern is what the matcher does from one starting place, and its contract for
`PCRE2_PARTIAL_HARD` says which starting place of a window it reports. The loop
is compared with a search of the whole page. A window may lie partly outside of
the page; the matcher then sees the bytes that happen to be there.
-/

namespace KeepalivedDevel.PcrePartial
open CLib CLib.While

/- What the pattern looks at is not tied to `max_lookbehind`: an anchor looks at the
byte in front without being a lookbehind. -/
structure Pattern where
  probe : Probe
  maxLookbehind : UInt32

def Pattern.MatchesPage (p : Pattern) (page : Page) : Prop :=
  ∃ i, i ≤ page.bytes.length ∧ p.probe.matches page.bytes i = true

/- The result of `pcre2_match` with the first element of the ovector. -/
inductive MatchResult where
  | matched (ovector0 : ℕ)
  | incomplete (ovector0 : ℕ)
  | noMatch
  deriving Repr, DecidableEq

/-- A function with the contract of `pcre2_match` for `PCRE2_PARTIAL_HARD`: the
first starting place that does not fail decides. Whether a search that starts at
the very end of the window and wants to see more is reported as partial is left
open. -/
structure Matcher (p : Pattern) where
  exec : List UInt8 → MatchResult
  matched : ∀ s i, exec s = .matched i →
    i ≤ s.length ∧ p.probe.verdict s i = .full ∧ ∀ j, j < i → p.probe.verdict s j = .fail
  incomplete : ∀ s i, exec s = .incomplete i →
    i ≤ s.length ∧ p.probe.verdict s i = .reachesEnd ∧ ∀ j, j < i → p.probe.verdict s j = .fail
  noMatch : ∀ s, exec s = .noMatch →
    (∀ j, j < s.length → p.probe.verdict s j = .fail) ∧ p.probe.verdict s s.length ≠ .full

/-! ### The loop (`pcre2_partial.c:67-119`) -/

/-- The memory that the page is part of; all of it can be read. -/
structure Memory (page : Page) where
  byte : UInt64 → UInt8
  holds : ∀ i (h : i < page.bytes.length), byte (UInt64.ofNat (page.address + i)) = page.bytes[i]

def Memory.view {page : Page} (mem : Memory page) (w : Window) : List UInt8 :=
  (List.range w.len.toNat).map fun j => mem.byte (w.start + UInt64.ofNat j)

/- How the loop ends: with a match or with "did not match". -/
inductive Ending where
  | matched
  | didNotMatch
  deriving Repr, DecidableEq

def searchBody {p : Pattern} {page : Page} (m : Matcher p) (mem : Memory page) (w : Window) :
    Pass Window Ending :=
  match m.exec (mem.view w) with
  | .matched _ => .leave .matched
  | .incomplete o => .again (w.onPartial p.maxLookbehind (UInt64.ofNat o))
  | .noMatch => .leave .didNotMatch

/-- The loop ends with a match exactly if the pattern matches in the page, and
with "did not match" otherwise. -/
def Agrees {p : Pattern} {page : Page} (m : Matcher p) (mem : Memory page) : Prop :=
  (Ends (searchBody m mem) page.firstWindow .matched ↔ p.MatchesPage page) ∧
    (¬ p.MatchesPage page → Ends (searchBody m mem) page.firstWindow .didNotMatch)

section
variable {p : Pattern} {page : Page} (m : Matcher p) (mem : Memory page)

/-- The loop comes to the window `w` after moving `start` by `d` in all. -/
inductive Comes : Window → ℤ → Prop where
  | first : Comes page.firstWindow 0
  | next {w : Window} {d : ℤ} {o : ℕ} : Comes w d → m.exec (mem.view w) = .incomplete o →
      Comes (w.onPartial p.maxLookbehind (UInt64.ofNat o)) (d + o - p.maxLookbehind.toNat)

/- The places of the page at or behind the end of a window without a match are none,
nor are the places where a window has failed. -/
def NoneMissed : Prop :=
  ∀ w d, Comes m mem w d → m.exec (mem.view w) = .noMatch →
    (∀ i : ℕ, d + w.len.toNat ≤ i → i ≤ page.bytes.length → p.probe.matches page.bytes i = false) ∧
    ∀ w' d' j, Comes m mem w' d' → p.probe.verdict (mem.view w') j = .fail →
      ∀ i : ℕ, (i : ℤ) = d' + j → i ≤ page.bytes.length → p.probe.matches page.bytes i = false

/- Where a window has a match and the page has none at that place, it has one at
another. -/
def NoneMade : Prop :=
  ∀ w d j, Comes m mem w d → m.exec (mem.view w) = .matched j →
    (∀ i : ℕ, (i : ℤ) = d + j → i ≤ page.bytes.length → p.probe.matches page.bytes i = false) →
    ∃ i : ℕ, (i : ℤ) ≠ d + j ∧ i ≤ page.bytes.length ∧ p.probe.matches page.bytes i = true

def WindowsInside : Prop := ∀ w d, Comes m mem w d → page.Inside w

/- Where nothing is found in a window, the page has no match behind it either. -/
def NothingBehind : Prop :=
  ∀ w d, Comes m mem w d → m.exec (mem.view w) = .noMatch →
    ∀ i : ℕ, d + w.len.toNat ≤ i → i ≤ page.bytes.length → p.probe.matches page.bytes i = false

/- The bytes put before a partial match for the sake of lookbehinds, which lack
their own context, neither match nor match in part. -/
def ContextFails : Prop :=
  ∀ w d o, Comes m mem w d → m.exec (mem.view w) = .incomplete o →
    ∀ j, j < p.maxLookbehind.toNat →
      p.probe.verdict (mem.view (w.onPartial p.maxLookbehind (UInt64.ofNat o))) j = .fail

end

/-! ### The windows of a run -/

instance : Finite Window :=
  Finite.of_injective (fun w : Window => (w.start.toFin, w.len.toFin)) (by
    rintro ⟨s, l⟩ ⟨s', l'⟩ h
    simp only [Prod.mk.injEq, UInt64.toFin_inj] at h
    rw [h.1, h.2])

section
variable {p : Pattern} {page : Page} {m : Matcher p} {mem : Memory page} {w : Window} {d : ℤ}

theorem searchBody_matched {j : ℕ} (h : m.exec (mem.view w) = .matched j) :
    searchBody m mem w = .leave .matched := by
  rw [searchBody, h]

theorem searchBody_incomplete {o : ℕ} (h : m.exec (mem.view w) = .incomplete o) :
    searchBody m mem w = .again (w.onPartial p.maxLookbehind (UInt64.ofNat o)) := by
  rw [searchBody, h]

theorem searchBody_noMatch (h : m.exec (mem.view w) = .noMatch) :
    searchBody m mem w = .leave .didNotMatch := by
  rw [searchBody, h]

theorem Comes.reaches (h : Comes m mem w d) : Reaches (searchBody m mem) page.firstWindow w := by
  induction h with
  | first => exact .enter
  | next _ ho ih => exact .pass ih (searchBody_incomplete ho)

theorem comes_of_reaches (h : Reaches (searchBody m mem) page.firstWindow w) :
    ∃ d, Comes m mem w d := by
  induction h with
  | enter => exact ⟨0, .first⟩
  | @pass t u _ hb ih =>
    obtain ⟨d, hd⟩ := ih
    cases hm : m.exec (mem.view t) with
    | matched j =>
      rw [searchBody_matched hm] at hb
      cases hb
    | incomplete o =>
      rw [searchBody_incomplete hm] at hb
      cases hb
      exact ⟨_, .next hd hm⟩
    | noMatch =>
      rw [searchBody_noMatch hm] at hb
      cases hb

theorem view_length (mem : Memory page) (w : Window) : (mem.view w).length = w.len.toNat := by
  rw [Memory.view, List.length_map, List.length_range]

/- No place is passed over: `start` moves no further than to the partial match. -/
theorem Comes.passed (h : Comes m mem w d) {i : ℕ} (hi : (i : ℤ) < d) :
    ∃ w' d' j, Comes m mem w' d' ∧ p.probe.verdict (mem.view w') j = .fail ∧ (i : ℤ) = d' + j := by
  induction h with
  | first => omega
  | @next w d o hw ho ih =>
    by_cases hd : (i : ℤ) < d
    · exact ih hd
    · have hfail := (m.incomplete _ _ ho).2.2 (i - d).toNat (by omega)
      exact ⟨w, d, (i - d).toNat, hw, hfail, by omega⟩

theorem agrees_of_comes {r : Ending} (hw : Comes m mem w d) (hr : searchBody m mem w = .leave r)
    (h : r = .matched ∧ p.MatchesPage page ∨ r = .didNotMatch ∧ ¬ p.MatchesPage page) :
    Agrees m mem := by
  unfold Agrees
  rw [ends_iff_of_reaches hw.reaches, ends_iff_of_reaches hw.reaches, ends_leave hr, ends_leave hr]
  rcases h with ⟨rfl, hp⟩ | ⟨rfl, hp⟩
  · simp [hp]
  · simp [hp]

/- Where the loop ends as the page says, it ends. -/
theorem Agrees.ends (h : Agrees m mem) : ∃ r, Ends (searchBody m mem) page.firstWindow r := by
  by_cases hp : p.MatchesPage page
  · exact ⟨.matched, h.1.mpr hp⟩
  · exact ⟨.didNotMatch, h.2 hp⟩

theorem Agrees.of_matched (h : Agrees m mem) (hw : Comes m mem w d) {j : ℕ}
    (hj : m.exec (mem.view w) = .matched j) : p.MatchesPage page := by
  rw [← h.1, ends_iff_of_reaches hw.reaches, ends_leave (searchBody_matched hj)]

theorem Agrees.of_noMatch (h : Agrees m mem) (hw : Comes m mem w d)
    (hm : m.exec (mem.view w) = .noMatch) : ¬ p.MatchesPage page := by
  intro hp
  have hends := h.1.mpr hp
  rw [ends_iff_of_reaches hw.reaches, ends_leave (searchBody_noMatch hm)] at hends
  cases hends

theorem not_matchesPage_iff :
    ¬ p.MatchesPage page ↔ ∀ i, i ≤ page.bytes.length → p.probe.matches page.bytes i = false := by
  simp [Pattern.MatchesPage]

theorem not_matchesPage_of_noneMissed (h : NoneMissed m mem) (hw : Comes m mem w d)
    (hm : m.exec (mem.view w) = .noMatch) : ¬ p.MatchesPage page := by
  obtain ⟨hbehind, hfailed⟩ := h w d hw hm
  rw [not_matchesPage_iff]
  intro i hi
  by_cases hend : d + w.len.toNat ≤ (i : ℤ)
  · exact hbehind i hend hi
  · by_cases hd : (i : ℤ) < d
    · obtain ⟨w', d', j, hw', hfail, hj⟩ := hw.passed hd
      exact hfailed w' d' j hw' hfail i hj hi
    · have hfail := (m.noMatch _ hm).1 (i - d).toNat (by rw [view_length]; omega)
      exact hfailed w d (i - d).toNat hw hfail i (by omega) hi

theorem matchesPage_of_noneMade (h : NoneMade m mem) (hw : Comes m mem w d) {j : ℕ}
    (hj : m.exec (mem.view w) = .matched j) : p.MatchesPage page := by
  by_contra hp
  rw [not_matchesPage_iff] at hp
  obtain ⟨i, -, hi, hmatch⟩ := h w d j hw hj fun i _ hi => hp i hi
  rw [hp i hi] at hmatch
  cases hmatch

theorem agrees_iff_windows (m : Matcher p) (mem : Memory page) :
    Agrees m mem ↔
      ¬ Returns (searchBody m mem) page.firstWindow ∧ NoneMissed m mem ∧ NoneMade m mem := by
  constructor
  · intro h
    obtain ⟨r, hr⟩ := h.ends
    refine ⟨not_returns_of_ends hr, fun w d hw hm => ?_, fun w d j hw hj hplace => ?_⟩
    · have hp := not_matchesPage_iff.mp (h.of_noMatch hw hm)
      exact ⟨fun i _ hi => hp i hi, fun _ _ _ _ _ i _ hi => hp i hi⟩
    · obtain ⟨i, hi, hmatch⟩ := h.of_matched hw hj
      refine ⟨i, fun heq => ?_, hi, hmatch⟩
      rw [hplace i heq hi] at hmatch
      cases hmatch
  · rintro ⟨hreturns, hmissed, hmade⟩
    obtain ⟨w, r, hw, hr⟩ := (leaves_iff_not_returns page.firstWindow).mpr hreturns
    obtain ⟨d, hd⟩ := comes_of_reaches hw
    cases hm : m.exec (mem.view w) with
    | matched j =>
      exact agrees_of_comes hd (searchBody_matched hm) (.inl ⟨rfl, matchesPage_of_noneMade hmade hd hm⟩)
    | incomplete o =>
      rw [searchBody_incomplete hm] at hr
      cases hr
    | noMatch =>
      exact agrees_of_comes hd (searchBody_noMatch hm)
        (.inr ⟨rfl, not_matchesPage_of_noneMissed hmissed hd hm⟩)

/-! ### Windows inside the page -/

theorem Window.At.view {offset len : ℕ} (h : w.At page offset len) (mem : Memory page) :
    mem.view w = (page.bytes.drop offset).take len := by
  have hin := h.inside
  have hfits := page.fits
  apply List.ext_getElem
  · rw [view_length, h.length, List.length_take, List.length_drop]
    omega
  · intro j hj hj'
    rw [view_length, h.length] at hj
    have haddress : w.start + UInt64.ofNat j = UInt64.ofNat (page.address + (offset + j)) := by
      rw [← UInt64.toNat_inj, UInt64.toNat_add, h.start, UInt64.toNat_ofNat', UInt64.toNat_ofNat']
      omega
    rw [List.getElem_take, List.getElem_drop]
    simp only [Memory.view, List.getElem_map, List.getElem_range, haddress]
    exact mem.holds (offset + j) (by omega)

theorem firstWindow_at_of_inside (h : page.Inside page.firstWindow) :
    page.firstWindow.At page 0 50 := by
  apply firstWindow_at
  have hlen : page.firstWindow.len.toNat = 50 := rfl
  obtain ⟨hs, he⟩ := h
  omega

/-- The window at the head of the loop. No match of the page starts before the
place `offset + context`, where the search of the window really begins. -/
structure Searching (m : Matcher p) (mem : Memory page) (w : Window) (offset len context : ℕ) :
    Prop where
  here : w.At page offset len
  lookbehind : context = 0 ∧ offset = 0 ∨ context = p.maxLookbehind.toNat
  before : ∀ i, i < offset + context → p.probe.matches page.bytes i = false
  fails : ∀ j, j < context → p.probe.verdict (mem.view w) j = .fail

theorem Searching.decides {offset len context j : ℕ} (h : Searching m mem w offset len context)
    (hback : p.probe.LooksBack p.maxLookbehind.toNat) (hj : context ≤ j) :
    (p.probe.verdict (mem.view w) j = .full → p.probe.matches page.bytes (offset + j) = true) ∧
      (p.probe.verdict (mem.view w) j = .fail →
        p.probe.matches page.bytes (offset + j) = false) := by
  rw [h.here.view mem]
  apply p.probe.matches_of_verdict hback page.bytes offset len j h.here.inside
  rcases h.lookbehind with ⟨_, h0⟩ | hL
  · exact .inl h0
  · exact .inr (hL ▸ hj)

/- Starting places that fail in the window fail in the page. -/
theorem Searching.no_match_before {offset len context n : ℕ}
    (h : Searching m mem w offset len context) (hback : p.probe.LooksBack p.maxLookbehind.toNat)
    (hn : ∀ j, j < n → p.probe.verdict (mem.view w) j = .fail) :
    ∀ i, i < offset + n → p.probe.matches page.bytes i = false := by
  intro i hi
  by_cases hb : i < offset + context
  · exact h.before i hb
  · have hfail := (h.decides hback (j := i - offset) (by omega)).2 (hn _ (by omega))
    rwa [Nat.add_sub_cancel' (by omega)] at hfail

theorem Searching.ovector {offset len context o : ℕ} (h : Searching m mem w offset len context)
    (ho : m.exec (mem.view w) = .incomplete o) : o ≤ len ∧ (UInt64.ofNat o).toNat = o := by
  have hle := (m.incomplete _ _ ho).1
  rw [view_length, h.here.length] at hle
  have hin := h.here.inside
  have hobj := page.object
  refine ⟨hle, ?_⟩
  rw [UInt64.toNat_ofNat']
  omega

/- A partial match at a place where the search really was: `start` does not move
back. -/
theorem Searching.ovector_ge {offset len context o : ℕ} (h : Searching m mem w offset len context)
    (ho : m.exec (mem.view w) = .incomplete o)
    (hin : page.Inside (w.onPartial p.maxLookbehind (UInt64.ofNat o))) :
    p.maxLookbehind.toNat ≤ o := by
  obtain ⟨hle, hnat⟩ := h.ovector ho
  have hstart := ((h.here.inside_iff p.maxLookbehind (hnat.symm ▸ hle)).mp hin).1
  rw [hnat] at hstart
  rcases h.lookbehind with ⟨_, h0⟩ | hL
  · omega
  · by_contra hlt
    have hfail := h.fails o (by omega)
    rw [(m.incomplete _ _ ho).2.1] at hfail
    cases hfail

theorem Searching.next {offset len context o : ℕ} (h : Searching m mem w offset len context)
    (hback : p.probe.LooksBack p.maxLookbehind.toNat) (ho : m.exec (mem.view w) = .incomplete o)
    (hin : page.Inside (w.onPartial p.maxLookbehind (UInt64.ofNat o)))
    (hcontext : ∀ j, j < p.maxLookbehind.toNat →
      p.probe.verdict (mem.view (w.onPartial p.maxLookbehind (UInt64.ofNat o))) j = .fail) :
    Searching m mem (w.onPartial p.maxLookbehind (UInt64.ofNat o))
      (offset + o - p.maxLookbehind.toNat) (nextLen p.maxLookbehind.toNat len o)
      p.maxLookbehind.toNat := by
  obtain ⟨hle, hnat⟩ := h.ovector ho
  have hge := h.ovector_ge ho hin
  have hat := h.here.next (hnat.symm ▸ hle) hin
  rw [hnat] at hat
  refine ⟨hat, .inr rfl, ?_, hcontext⟩
  rw [Nat.sub_add_cancel (by omega)]
  exact h.no_match_before hback (m.incomplete _ _ ho).2.2

/- With windows inside of the page, what `start` has moved by is the place it points to. -/
theorem searching_of_comes (hback : p.probe.LooksBack p.maxLookbehind.toNat)
    (hin : WindowsInside m mem) (hcontext : ContextFails m mem) (hw : Comes m mem w d) :
    ∃ offset len context, Searching m mem w offset len context ∧ d = offset := by
  induction hw with
  | first =>
    have hat := firstWindow_at_of_inside (hin _ _ .first)
    exact ⟨0, 50, 0, ⟨hat, .inl ⟨rfl, rfl⟩, by simp, by simp⟩, rfl⟩
  | @next w d o hw ho ih =>
    obtain ⟨offset, len, context, hs, rfl⟩ := ih
    have hu := hin _ _ (.next hw ho)
    have hge := hs.ovector_ge ho hu
    exact ⟨_, _, _, hs.next hback ho hu (hcontext w _ o hw ho), by omega⟩

/-! ### The end of a run -/

def remaining (page : Page) (w : Window) : ℕ :=
  (page.bytes.length - (w.start.toNat - page.address)) * (page.bytes.length + 1) +
    (page.bytes.length - w.len.toNat)

theorem Window.At.remaining {offset len : ℕ} (h : w.At page offset len) :
    remaining page w =
      (page.bytes.length - offset) * (page.bytes.length + 1) + (page.bytes.length - len) := by
  unfold PcrePartial.remaining
  rw [h.start, h.length, Nat.add_sub_cancel_left]

/- The window moves forward, or it stays where it is and grows. -/
theorem Searching.remaining_lt {offset len context o : ℕ}
    (h : Searching m mem w offset len context) (ho : m.exec (mem.view w) = .incomplete o)
    (hin : page.Inside (w.onPartial p.maxLookbehind (UInt64.ofNat o)))
    (hge : p.maxLookbehind.toNat ≤ o) :
    remaining page (w.onPartial p.maxLookbehind (UInt64.ofNat o)) < remaining page w := by
  obtain ⟨hle, hnat⟩ := h.ovector ho
  have hat := h.here.next (hnat.symm ▸ hle) hin
  rw [hnat] at hat
  have hend := hat.inside
  rw [hat.remaining, h.here.remaining]
  by_cases he : o = p.maxLookbehind.toNat
  · simp only [nextLen, he, ite_true, Nat.add_sub_cancel] at hend ⊢
    omega
  · simp only [nextLen, he, ite_false] at hend ⊢
    -- one byte further on outweighs all that the length can lose
    have hmul : (page.bytes.length - (offset + o - p.maxLookbehind.toNat) + 1) *
        (page.bytes.length + 1) ≤ (page.bytes.length - offset) * (page.bytes.length + 1) :=
      Nat.mul_le_mul_right _ (by omega)
    rw [Nat.succ_mul] at hmul
    omega

theorem Searching.matched {offset len context i : ℕ} (h : Searching m mem w offset len context)
    (hback : p.probe.LooksBack p.maxLookbehind.toNat) (hi : m.exec (mem.view w) = .matched i) : p.MatchesPage page := by
  obtain ⟨hle, hfull, -⟩ := m.matched _ _ hi
  have hcontext : context ≤ i := by
    by_contra hlt
    have hfail := h.fails i (by omega)
    rw [hfull] at hfail
    cases hfail
  have hin := h.here.inside
  rw [view_length, h.here.length] at hle
  exact ⟨offset + i, by omega, (h.decides hback hcontext).1 hfull⟩

theorem Searching.not_matched {offset len context : ℕ}
    (h : Searching m mem w offset len context) (hback : p.probe.LooksBack p.maxLookbehind.toNat)
    (hm : m.exec (mem.view w) = .noMatch)
    (hbehind : ∀ i : ℕ, (offset : ℤ) + w.len.toNat ≤ i → i ≤ page.bytes.length →
      p.probe.matches page.bytes i = false) : ¬ p.MatchesPage page := by
  rw [not_matchesPage_iff]
  intro i hi
  by_cases hb : i < offset + len
  · have hall := (m.noMatch _ hm).1
    rw [view_length, h.here.length] at hall
    exact h.no_match_before hback hall i hb
  · apply hbehind i _ hi
    rw [h.here.length]
    omega

/- The conditions on the context are enough for the loop to come to an end. -/
theorem exists_leave (hback : p.probe.LooksBack p.maxLookbehind.toNat) (hin : WindowsInside m mem)
    (hcontext : ContextFails m mem) :
    ∃ w r, Reaches (searchBody m mem) page.firstWindow w ∧ searchBody m mem w = .leave r := by
  apply exists_ends (remaining page)
  intro t u ht hb
  obtain ⟨d, hd⟩ := comes_of_reaches ht
  obtain ⟨offset, len, context, hs, -⟩ := searching_of_comes hback hin hcontext hd
  cases hm : m.exec (mem.view t) with
  | matched j =>
    rw [searchBody_matched hm] at hb
    cases hb
  | incomplete o =>
    rw [searchBody_incomplete hm] at hb
    cases hb
    have hu := hin _ _ (.next hd hm)
    exact hs.remaining_lt hm hu (hs.ovector_ge hm hu)
  | noMatch =>
    rw [searchBody_noMatch hm] at hb
    cases hb

/- They are also enough for a match of a window to be one of the page. -/
theorem agrees_iff_nothingBehind (hback : p.probe.LooksBack p.maxLookbehind.toNat)
    (hin : WindowsInside m mem) (hcontext : ContextFails m mem) :
    Agrees m mem ↔ NothingBehind m mem := by
  constructor
  · intro h w d hw hm i _ hi
    exact not_matchesPage_iff.mp (h.of_noMatch hw hm) i hi
  · intro hbehind
    obtain ⟨w, r, hw, hr⟩ := exists_leave hback hin hcontext
    obtain ⟨d, hd⟩ := comes_of_reaches hw
    obtain ⟨offset, len, context, hs, rfl⟩ := searching_of_comes hback hin hcontext hd
    cases hm : m.exec (mem.view w) with
    | matched j => exact agrees_of_comes hd (searchBody_matched hm) (.inl ⟨rfl, hs.matched hback hm⟩)
    | incomplete o =>
      rw [searchBody_incomplete hm] at hr
      cases hr
    | noMatch =>
      exact agrees_of_comes hd (searchBody_noMatch hm)
        (.inr ⟨rfl, hs.not_matched hback hm (hbehind w _ hd hm)⟩)

end

/- The matcher that tries every starting place in turn. -/
def Pattern.firstPlace (p : Pattern) (s : List UInt8) : Option ℕ :=
  (List.range (s.length + 1)).find? fun i => p.probe.verdict s i ≠ .fail

def Pattern.exec (p : Pattern) (s : List UInt8) : MatchResult :=
  match p.firstPlace s with
  | none => .noMatch
  | some i =>
    if p.probe.verdict s i = .full then .matched i
    else if i < s.length then .incomplete i
    else .noMatch

theorem firstPlace_some {p : Pattern} {s : List UInt8} {i : ℕ} (h : p.firstPlace s = some i) :
    i ≤ s.length ∧ p.probe.verdict s i ≠ .fail ∧ ∀ j, j < i → p.probe.verdict s j = .fail := by
  unfold Pattern.firstPlace at h
  rw [List.find?_range_eq_some] at h
  obtain ⟨hv, hi, hbefore⟩ := h
  refine ⟨by simpa [Nat.lt_succ_iff] using hi, by simpa using hv, ?_⟩
  intro j hj
  simpa using hbefore j hj

theorem firstPlace_none {p : Pattern} {s : List UInt8} (h : p.firstPlace s = none) :
    ∀ j, j ≤ s.length → p.probe.verdict s j = .fail := by
  intro j hj
  have hfail := List.find?_eq_none.mp h j (List.mem_range.mpr (Nat.lt_succ_of_le hj))
  simpa using hfail

theorem exec_cases (p : Pattern) (s : List UInt8) :
    (∃ i, p.exec s = .matched i ∧ i ≤ s.length ∧ p.probe.verdict s i = .full ∧
      ∀ j, j < i → p.probe.verdict s j = .fail) ∨
    (∃ i, p.exec s = .incomplete i ∧ i ≤ s.length ∧ p.probe.verdict s i = .reachesEnd ∧
      ∀ j, j < i → p.probe.verdict s j = .fail) ∨
    (p.exec s = .noMatch ∧ (∀ j, j < s.length → p.probe.verdict s j = .fail) ∧
      p.probe.verdict s s.length ≠ .full) := by
  unfold Pattern.exec
  cases hf : p.firstPlace s with
  | none =>
    have hall := firstPlace_none hf
    exact .inr (.inr ⟨rfl, fun j hj => hall j (Nat.le_of_lt hj), by simp [hall _ (Nat.le_refl _)]⟩)
  | some i =>
    obtain ⟨hi, hfail, hbefore⟩ := firstPlace_some hf
    by_cases hfull : p.probe.verdict s i = .full
    · exact .inl ⟨i, if_pos hfull, hi, hfull, hbefore⟩
    · by_cases hlt : i < s.length
      · have hend : p.probe.verdict s i = .reachesEnd := by
          cases hv : p.probe.verdict s i with
          | full => exact absurd hv hfull
          | fail => exact absurd hv hfail
          | reachesEnd => rfl
        exact .inr (.inl ⟨i, by simp only [hfull, hlt, if_false, if_true], hi, hend, hbefore⟩)
      · obtain rfl : i = s.length := by omega
        exact .inr (.inr ⟨by simp only [hfull, hlt, if_false], hbefore, hfull⟩)

def Pattern.matcher (p : Pattern) : Matcher p where
  exec := p.exec
  matched := by
    intro s i h
    rcases exec_cases p s with ⟨k, hk, hspec⟩ | ⟨k, hk, -⟩ | ⟨hk, -⟩
    · rw [hk] at h
      cases h
      exact hspec
    · rw [hk] at h
      cases h
    · rw [hk] at h
      cases h
  incomplete := by
    intro s i h
    rcases exec_cases p s with ⟨k, hk, -⟩ | ⟨k, hk, hspec⟩ | ⟨hk, -⟩
    · rw [hk] at h
      cases h
    · rw [hk] at h
      cases h
      exact hspec
    · rw [hk] at h
      cases h
  noMatch := by
    intro s h
    rcases exec_cases p s with ⟨k, hk, -⟩ | ⟨k, hk, -⟩ | ⟨-, hspec⟩
    · rw [hk] at h
      cases h
    · rw [hk] at h
      cases h
    · exact hspec

/- The letter `y`. -/
def letterY : Pattern where
  probe := .look 0 fun c => if c = some 121 then .accept else .reject
  maxLookbehind := 0

/- Fifty letters `x` and a `y`. -/
def lateY : Page where
  address := 4096
  bytes := List.replicate 50 120 ++ [121]
  fits := by simp
  object := by simp

/- A memory full of the letter `x`, but for the page's last byte. -/
def lateMemory : Memory lateY where
  byte a := if a = 4146 then 121 else 120
  holds := by decide

end KeepalivedDevel.PcrePartial
