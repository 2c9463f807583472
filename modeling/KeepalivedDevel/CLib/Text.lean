import Mathlib.Data.List.Infix
import Mathlib.Data.List.Count
import Mathlib.Tactic.Common

/-!
# Lines and patterns in a text

A text over any alphabet as a list of lines with a terminator behind each one,
the first occurrence of a word in it, and patterns with places that fit
everything.
-/

namespace CLib

variable {α : Type}

/-! ### Lines -/

def unlines (nl : α) (lines : List (List α)) : List α := lines.flatMap (· ++ [nl])

theorem unlines_cons (nl : α) (line : List α) (lines : List (List α)) :
    unlines nl (line :: lines) = line ++ nl :: unlines nl lines := by
  simp [unlines]

theorem append_cons_inj {nl : α} {l m s t : List α} (hl : nl ∉ l) (hm : nl ∉ m)
    (h : l ++ nl :: s = m ++ nl :: t) : l = m ∧ s = t := by
  induction l generalizing m with
  | nil =>
    cases m with
    | nil => exact ⟨rfl, List.tail_eq_of_cons_eq h⟩
    | cons d m =>
      have hd : nl = d := (List.cons_eq_cons.mp h).1
      exact absurd (hd ▸ List.mem_cons_self) hm
  | cons c l ih =>
    cases m with
    | nil =>
      have hc : c = nl := (List.cons_eq_cons.mp h).1
      exact absurd (hc ▸ List.mem_cons_self) hl
    | cons d m =>
      obtain ⟨rfl, hrest⟩ := List.cons_eq_cons.mp h
      obtain ⟨rfl, rfl⟩ := ih (List.not_mem_of_not_mem_cons hl) (List.not_mem_of_not_mem_cons hm)
        hrest
      exact ⟨rfl, rfl⟩

theorem mem_of_mem_intercalate {c sep : α} {ps : List (List α)} (h : c ∈ [sep].intercalate ps) :
    c = sep ∨ ∃ p ∈ ps, c ∈ p := by
  induction ps with
  | nil => simp [List.intercalate] at h
  | cons p ps ih =>
    cases ps with
    | nil =>
      rw [List.intercalate_singleton] at h
      exact .inr ⟨p, List.mem_cons_self, h⟩
    | cons q ps =>
      rw [List.intercalate_cons_cons, List.append_assoc, List.singleton_append] at h
      rcases List.mem_append.mp h with h | h
      · exact .inr ⟨p, List.mem_cons_self, h⟩
      · rcases List.mem_cons.mp h with h | h
        · exact .inl h
        · rcases ih h with h | ⟨r, hr, hc⟩
          · exact .inl h
          · exact .inr ⟨r, List.mem_cons_of_mem _ hr, hc⟩

theorem unlines_inj {nl : α} {ls ms : List (List α)} (hls : ∀ l ∈ ls, nl ∉ l)
    (hms : ∀ m ∈ ms, nl ∉ m) (h : unlines nl ls = unlines nl ms) : ls = ms := by
  induction ls generalizing ms with
  | nil =>
    cases ms with
    | nil => rfl
    | cons m ms => simp [unlines] at h
  | cons l ls ih =>
    cases ms with
    | nil => simp [unlines] at h
    | cons m ms =>
      rw [unlines_cons, unlines_cons] at h
      obtain ⟨rfl, hrest⟩ := append_cons_inj (hls l List.mem_cons_self) (hms m List.mem_cons_self) h
      rw [ih (fun k hk => hls k (List.mem_cons_of_mem _ hk))
        (fun k hk => hms k (List.mem_cons_of_mem _ hk)) hrest]

theorem count_unlines [DecidableEq α] {nl : α} {lines : List (List α)} (h : ∀ l ∈ lines, nl ∉ l) :
    (unlines nl lines).count nl = lines.length := by
  induction lines with
  | nil => rfl
  | cons l lines ih =>
    rw [unlines_cons, List.count_append, List.count_cons_self,
      List.count_eq_zero_of_not_mem (h l List.mem_cons_self),
      ih fun k hk => h k (List.mem_cons_of_mem _ hk), List.length_cons, Nat.zero_add]

/-! ### Occurrences of a word -/

/-- An occurrence in a text of three parts lies in the first, in the last, or
reaches into the middle from places less than its length away. -/
theorem infix_append_append_iff {word u v w : List α} {n : ℕ} (hn : word.length = n + 1) :
    word <:+: u ++ v ++ w ↔
      word <:+: u ∨ word <:+: w ∨ word <:+: u.drop (u.length - n) ++ v ++ w.take n := by
  have hwhole : u.take (u.length - n) ++ (u.drop (u.length - n) ++ v ++ w.take n) ++ w.drop n =
      u ++ v ++ w := by
    simp only [List.append_assoc, List.take_append_drop]
    rw [← List.append_assoc, List.take_append_drop]
  constructor
  · rintro ⟨x, y, h⟩
    have hlength := congrArg List.length h
    simp only [List.length_append] at hlength
    by_cases hu : x.length + word.length ≤ u.length
    · have hp : x ++ word <+: u := by
        refine List.prefix_of_prefix_length_le ⟨y, h⟩ ⟨v ++ w, by simp⟩ ?_
        simpa using hu
      exact .inl ((List.suffix_append x word).isInfix.trans hp.isInfix)
    · by_cases hw : u.length + v.length ≤ x.length
      · have hs : word ++ y <:+ w := by
          refine List.suffix_of_suffix_length_le ⟨x, by rw [← h]; simp⟩ ⟨u ++ v, rfl⟩ ?_
          simp only [List.length_append]
          omega
        exact .inr (.inl ((List.prefix_append word y).isInfix.trans hs.isInfix))
      · have hx : u.take (u.length - n) <+: x := by
          have hxtext : x <+: u ++ v ++ w := ⟨word ++ y, by rw [← h, List.append_assoc]⟩
          have htake : u.take (u.length - n) <+: u ++ v ++ w :=
            ⟨_, by rw [← hwhole, List.append_assoc]⟩
          refine List.prefix_of_prefix_length_le htake hxtext ?_
          simp only [List.length_take]
          omega
        have hy : w.drop n <:+ y := by
          refine List.suffix_of_suffix_length_le ⟨_, hwhole⟩ ⟨x ++ word, h⟩ ?_
          simp only [List.length_drop]
          omega
        obtain ⟨x', rfl⟩ := hx
        obtain ⟨y', rfl⟩ := hy
        rw [← hwhole, List.append_assoc _ _ word, List.append_assoc _ (x' ++ word),
          ← List.append_assoc (x' ++ word), ← List.append_assoc] at h
        exact .inr (.inr ⟨x', y', List.append_cancel_left (List.append_cancel_right h)⟩)
  · rintro (h | h | h)
    · exact h.trans ⟨[], v ++ w, by simp⟩
    · exact h.trans ⟨u ++ v, [], by simp⟩
    · exact h.trans ⟨u.take (u.length - n), w.drop n, hwhole⟩

variable [DecidableEq α]

structure Cut (α : Type) where
  before : List α
  after : List α
  deriving DecidableEq

def cut (word : List α) : List α → Option (Cut α)
  | [] => if word = [] then some ⟨[], []⟩ else none
  | c :: s =>
    if word <+: c :: s then some ⟨[], (c :: s).drop word.length⟩
    else (cut word s).map fun k => ⟨c :: k.before, k.after⟩

theorem eq_of_cut {word s : List α} {k : Cut α} (h : cut word s = some k) :
    s = k.before ++ word ++ k.after := by
  induction s generalizing k with
  | nil =>
    simp only [cut, Option.ite_none_right_eq_some, Option.some.injEq] at h
    obtain ⟨rfl, rfl⟩ := h
    rfl
  | cons c s ih =>
    rw [cut] at h
    split at h
    · rename_i hword
      obtain rfl := Option.some.inj h
      obtain ⟨t, ht⟩ := hword
      rw [← ht, List.drop_left, List.nil_append]
    · obtain ⟨j, hj, rfl⟩ := Option.map_eq_some_iff.mp h
      rw [ih hj]
      rfl

theorem cut_eq_none_iff {word s : List α} : cut word s = none ↔ ¬ word <:+: s := by
  induction s with
  | nil => simp [cut]
  | cons c s ih =>
    rw [cut, List.infix_cons_iff, not_or, ← ih]
    split
    · simp_all
    · simp_all

/-- Before the first occurrence there is none. -/
theorem not_infix_before {word s : List α} {k : Cut α} (hw : word ≠ []) (h : cut word s = some k) :
    ¬ word <:+: k.before := by
  induction s generalizing k with
  | nil =>
    rw [cut, if_neg hw] at h
    exact absurd h (by simp)
  | cons c s ih =>
    rw [cut] at h
    split at h
    · obtain rfl := Option.some.inj h
      simpa using hw
    · rename_i hword
      obtain ⟨j, hj, rfl⟩ := Option.map_eq_some_iff.mp h
      rw [List.infix_cons_iff, not_or]
      refine ⟨fun hfirst => hword (hfirst.trans ?_), ih hj⟩
      rw [eq_of_cut hj]
      exact ⟨word ++ j.after, by simp⟩

/-! ### Patterns -/

/-- A pattern of symbols and of places that fit every symbol, at the text's beginning. -/
def fitsHere : List (Option α) → List α → Bool
  | [], _ => true
  | _ :: _, [] => false
  | p :: pattern, c :: s => (p = none || p = some c) && fitsHere pattern s

def fits (pattern : List (Option α)) : List α → Bool
  | [] => fitsHere pattern []
  | c :: s => fitsHere pattern (c :: s) || fits pattern s

theorem fits_of_occurs {pattern : List (Option α)} {word s : List α}
    (hword : ∀ t, fitsHere pattern (word ++ t) = true) (h : word <:+: s) :
    fits pattern s = true := by
  induction s with
  | nil =>
    obtain rfl := List.infix_nil.mp h
    exact hword []
  | cons c s ih =>
    rw [fits, Bool.or_eq_true]
    rcases List.infix_cons_iff.mp h with ⟨t, ht⟩ | hs
    · left
      rw [← ht]
      exact hword t
    · right
      exact ih hs

theorem fits_append {pattern : List (Option α)} {t : List α} (h : fitsHere pattern t = true)
    (u : List α) : fits pattern (u ++ t) = true := by
  induction u with
  | nil =>
    cases t with
    | nil => exact h
    | cons c t => rw [List.nil_append, fits, h, Bool.true_or]
  | cons c u ih => rw [List.cons_append, fits, ih, Bool.or_true]

theorem fitsHere_append_text {pattern : List (Option α)} {s : List α}
    (h : pattern.length ≤ s.length) (t : List α) :
    fitsHere pattern (s ++ t) = fitsHere pattern s := by
  induction pattern generalizing s with
  | nil => rfl
  | cons p pattern ih =>
    cases s with
    | nil => exact absurd h (by simp)
    | cons c s => rw [List.cons_append, fitsHere, fitsHere, ih (Nat.le_of_succ_le_succ h)]

theorem fitsHere_append {pattern : List (Option α)} {s : List α} (h : pattern.length = s.length)
    (pattern' : List (Option α)) (t : List α) :
    fitsHere (pattern ++ pattern') (s ++ t) = (fitsHere pattern s && fitsHere pattern' t) := by
  induction pattern generalizing s with
  | nil =>
    obtain rfl := List.eq_nil_of_length_eq_zero h.symm
    rfl
  | cons p pattern ih =>
    cases s with
    | nil => exact absurd h (by simp)
    | cons c s =>
      rw [List.cons_append, List.cons_append, fitsHere, fitsHere, ih (Nat.succ.inj h), Bool.and_assoc]

theorem length_of_fitsHere {pattern : List (Option α)} {s : List α}
    (h : fitsHere pattern s = true) : pattern.length ≤ s.length := by
  induction pattern generalizing s with
  | nil => exact Nat.zero_le _
  | cons p pattern ih =>
    cases s with
    | nil => cases h
    | cons c s =>
      rw [fitsHere, Bool.and_eq_true] at h
      exact Nat.succ_le_succ (ih h.2)

theorem fitsHere_of_places {pattern : List (Option α)} {s : List α} (h : ∀ p ∈ pattern, p = none)
    (hlength : pattern.length ≤ s.length) : fitsHere pattern s = true := by
  induction pattern generalizing s with
  | nil => rfl
  | cons p pattern ih =>
    obtain ⟨hp, hrest⟩ := List.forall_mem_cons.mp h
    cases s with
    | nil => exact absurd hlength (by simp)
    | cons c s => rw [fitsHere, hp, ih hrest (Nat.le_of_succ_le_succ hlength)]; rfl

theorem word_of_fitsHere {word s : List α} {pattern : List (Option α)}
    (h : fitsHere (word.map some ++ pattern) s = true) : word <+: s := by
  induction word generalizing s with
  | nil => exact List.nil_prefix
  | cons c word ih =>
    cases s with
    | nil => cases h
    | cons d s =>
      simp only [List.map_cons, List.cons_append, fitsHere, Bool.and_eq_true, Bool.or_eq_true,
        decide_eq_true_eq, Option.some.injEq, reduceCtorEq, false_or] at h
      exact List.cons_prefix_cons.mpr ⟨h.1, ih h.2⟩

end CLib
