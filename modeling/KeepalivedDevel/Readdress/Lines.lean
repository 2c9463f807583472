import KeepalivedDevel.CLib.Runs
import KeepalivedDevel.Readdress.Code
import Mathlib.Data.List.Forall2

/-!
# What readdress does to the lines of a file

The file moved back is to have the lines of the old one, each with its
placeholders replaced and otherwise untouched. This asks three things of every
line: that `read` and `echo` take it as it is, that the placeholder does not
stand in it again, and that the address put in does not make a new one.
-/

namespace KeepalivedDevel.Readdress
open CLib

structure TextFile where
  lines : List (List UInt8)
  newlineFree : ∀ l ∈ lines, newline ∉ l
  nulFree : ∀ l ∈ lines, 0 ∉ l

def TextFile.contents (f : TextFile) : CString where
  bytes := unlines newline f.lines
  nulFree := by
    simp only [unlines, List.mem_flatMap, List.mem_append, List.mem_singleton, not_exists, not_and]
    rintro l hl (h | h)
    · exact f.nulFree l hl h
    · exact absurd h (by decide)

/-! ### An undamaged file -/

/-- Addresses instead of the placeholders at some places of a line. -/
def Substituted (old new : List UInt8) : Prop :=
  ∃ (head : List UInt8) (parts : List (Address × List UInt8)),
    old = head ++ parts.flatMap (fun p => placeholder ++ p.2) ∧
      new = head ++ parts.flatMap (fun p => p.1.text ++ p.2)

def Kept (old new : List UInt8) : Prop :=
  if placeholder <:+: old then Substituted old new ∧ ¬ placeholder <:+: new else new = old

def Undamaged (lines : List (List UInt8)) (file : List UInt8) : Prop :=
  ∃ new, file = unlines newline new ∧ List.Forall₂ Kept lines new

/-! ### The condition -/

/-- A line that passes through `read`, the test, `sed` and `echo` as it should. The
placeholder has 15 bytes, so one that the address completes begins at most 14 bytes
before it and ends at most 14 bytes behind it. -/
structure Clean (v : Vars) (line : List UInt8) : Prop where
  noBackslash : backslash ∉ line
  noOption : echoOption line = false
  once : ∀ k, cut placeholder line = some k → ¬ placeholder <:+: k.after
  noneMade : ∀ k, cut placeholder line = some k →
    ¬ placeholder <:+: k.before.drop (k.before.length - 14) ++ v.nextIp.text ++ k.after.take 14

def Vars.next (v : Vars) (line : List UInt8) : Vars := (v.body line).vars

/-! ### Addresses in a line -/

theorem Address.mem_text {p : Address} {c : UInt8} (h : c ∈ p.text) :
    isdigit c = true ∨ c = dot := by
  rcases mem_of_mem_intercalate h with h | ⟨part, hp, hc⟩
  · exact .inr h
  · have hpart : ∃ n, part = numeral n := by
      simp only [List.mem_cons, List.not_mem_nil, or_false] at hp
      rcases hp with rfl | rfl | rfl | rfl <;> exact ⟨_, rfl⟩
    obtain ⟨n, rfl⟩ := hpart
    exact .inl (isdigit_numeral n c hc)

theorem Address.dot_mem_text (p : Address) : dot ∈ p.text := by
  simp [Address.text, List.intercalate, List.intersperse]

theorem Substituted.count_eq {old new : List UInt8} {c : UInt8} (h : Substituted old new)
    (hc : isdigit c = false) (hdot : c ≠ dot) : new.count c = old.count c := by
  have haddress : ∀ p : Address, p.text.count c = 0 := by
    intro p
    refine List.count_eq_zero_of_not_mem fun hmem => ?_
    rcases p.mem_text hmem with hd | hd
    · simp [hc] at hd
    · exact hdot hd
  have hplaceholder : placeholder.count c = 0 := by
    have hall : placeholder.all (fun d => isdigit d || d = dot) = true := by decide
    refine List.count_eq_zero_of_not_mem fun hmem => ?_
    rcases (by simpa using List.all_eq_true.mp hall c hmem : isdigit c = true ∨ c = dot) with hd | hd
    · simp [hc] at hd
    · exact hdot hd
  obtain ⟨head, parts, rfl, rfl⟩ := h
  rw [List.count_append, List.count_append]
  congr 1
  induction parts with
  | nil => rfl
  | cons p parts ih =>
    simp only [List.flatMap_cons, List.count_append, haddress, hplaceholder, ih]

theorem sed_substituted (p : Address) (line : List UInt8) :
    Substituted line (sed placeholder p.text line) := by
  unfold sed
  split
  · exact ⟨line, [], by simp, by simp⟩
  · rename_i k hk
    refine ⟨k.before, [(p, k.after)], ?_, by simp⟩
    simpa using eq_of_cut hk

theorem sed_of_not_occurs {text line : List UInt8} (h : ¬ placeholder <:+: line) :
    sed placeholder text line = line := by
  rw [sed, cut_eq_none_iff.mpr h]

theorem Kept.count_eq {old new : List UInt8} {c : UInt8} (h : Kept old new)
    (hc : isdigit c = false) (hdot : c ≠ dot) : new.count c = old.count c := by
  unfold Kept at h
  split at h
  · exact h.1.count_eq hc hdot
  · rw [h]

theorem not_occurs_of_not_fits {line : List UInt8} (h : ¬ fits placeholderRegex line = true) :
    ¬ placeholder <:+: line := by
  intro hoccurs
  exact h (fits_of_occurs (fun t => by simp [fitsHere, placeholder, placeholderRegex]) hoccurs)

theorem Vars.body_line (v : Vars) (line : List UInt8) :
    (v.body line).line = sed placeholder v.nextIp.text line := by
  unfold Vars.body
  split
  · rfl
  · rename_i hfits
    rw [sed_of_not_occurs (not_occurs_of_not_fits hfits)]
    split <;> rfl

theorem Vars.body_substituted (v : Vars) (line : List UInt8) :
    (v.body line).substituted = (cut placeholder line).map fun _ => v.nextIp := by
  unfold Vars.body
  split
  · rfl
  · rename_i hfits
    rw [cut_eq_none_iff.mpr (not_occurs_of_not_fits hfits)]
    split <;> rfl

theorem Vars.loop_turns (v : Vars) (lines : List (List UInt8)) :
    ∃ turns : List (List UInt8 × Address), turns.map Prod.fst = lines ∧
      ((v.loop lines).flatMap fun p => echo p.line) =
        (turns.flatMap fun t => echo (sed placeholder t.2.text t.1)) ∧
      (v.loop lines).filterMap Pass.substituted =
        (turns.filter fun t => (cut placeholder t.1).isSome).map Prod.snd := by
  induction lines generalizing v with
  | nil => exact ⟨[], rfl, rfl, rfl⟩
  | cons line lines ih =>
    obtain ⟨turns, hlines, hfile, hsubstituted⟩ := ih (v.body line).vars
    refine ⟨(line, v.nextIp) :: turns, by rw [List.map_cons, hlines], ?_, ?_⟩
    · rw [Vars.loop, List.flatMap_cons, List.flatMap_cons, hfile, Vars.body_line]
    · rw [Vars.loop, List.filterMap_cons, hsubstituted, Vars.body_substituted]
      cases hcut : cut placeholder line with
      | none => simp [hcut]
      | some k => simp [hcut]

/-- The addresses an outcome lists are those that stand in its file: every line read has the
address of its turn in the place of its first placeholder, if it has one. -/
theorem readdress_turns (a : Option Address) (file : CString) :
    ∃ turns : List (List UInt8 × Address), turns.map Prod.fst = readLines [] false file.bytes ∧
      (readdress a file).file = (turns.flatMap fun t => echo (sed placeholder t.2.text t.1)) ∧
      (readdress a file).substituted =
        (turns.filter fun t => (cut placeholder t.1).isSome).map Prod.snd :=
  Vars.loop_turns _ _

/-! ### What read makes of a line -/

/- The text that `read` keeps of a line, and whether the line's end is escaped. -/
def strip (passNext : Bool) : List UInt8 → List UInt8 × Bool
  | [] => ([], passNext)
  | c :: s =>
    if !passNext && c = backslash then strip true s
    else (c :: (strip false s).1, (strip false s).2)

theorem readLines_append {l : List UInt8} (hl : newline ∉ l) (line : List UInt8) (passNext : Bool)
    (rest : List UInt8) :
    readLines line passNext (l ++ rest) =
      readLines (line ++ (strip passNext l).1) (strip passNext l).2 rest := by
  induction l generalizing line passNext with
  | nil => simp [strip]
  | cons c l ih =>
    have hc : c ≠ newline := fun h => hl (h ▸ List.mem_cons_self)
    have hrest := ih (List.not_mem_of_not_mem_cons hl)
    rw [List.cons_append, readLines, strip]
    cases passNext with
    | true => simp [hc, hrest]
    | false =>
      by_cases hb : c = backslash
      · simp [hb, hrest]
      · simp [hb, hc, hrest]

theorem newline_not_mem_readLines {line : List UInt8} {passNext : Bool} {s : List UInt8}
    (hline : newline ∉ line) : ∀ l ∈ readLines line passNext s, newline ∉ l := by
  induction s generalizing line passNext with
  | nil => simp [readLines]
  | cons c s ih =>
    have happend : c ≠ newline → newline ∉ line ++ [c] := by
      intro hc
      simp [hline, Ne.symm hc]
    rw [readLines]
    split
    · split
      · exact ih hline
      · exact ih (happend ‹_›)
    · split
      · exact ih hline
      · split
        · intro l hl
          rcases List.mem_cons.mp hl with rfl | hl
          · exact hline
          · exact ih (by simp) l hl
        · exact ih (happend ‹_›)

theorem readLines_unlines_cons {l : List UInt8} (hl : newline ∉ l) (line : List UInt8)
    (ls : List (List UInt8)) :
    readLines line false (unlines newline (l :: ls)) =
      if (strip false l).2 then readLines (line ++ (strip false l).1) false (unlines newline ls)
      else (line ++ (strip false l).1) :: readLines [] false (unlines newline ls) := by
  rw [unlines_cons, readLines_append hl, readLines]
  cases (strip false l).2 with
  | true => simp
  | false => simp [newline, backslash]

theorem length_readLines_le {ls : List (List UInt8)} (hls : ∀ l ∈ ls, newline ∉ l)
    (line : List UInt8) : (readLines line false (unlines newline ls)).length ≤ ls.length := by
  induction ls generalizing line with
  | nil => simp [unlines, readLines]
  | cons l ls ih =>
    have hrest := ih fun k hk => hls k (List.mem_cons_of_mem _ hk)
    rw [readLines_unlines_cons (hls l List.mem_cons_self)]
    split
    · exact Nat.le_succ_of_le (hrest _)
    · simpa using hrest []

/-- As many lines are read as there are only if no line's end is escaped. -/
theorem readLines_eq_map {ls : List (List UInt8)} (hls : ∀ l ∈ ls, newline ∉ l)
    (h : (readLines [] false (unlines newline ls)).length = ls.length) :
    readLines [] false (unlines newline ls) = ls.map fun l => (strip false l).1 := by
  induction ls with
  | nil => simp [unlines, readLines]
  | cons l ls ih =>
    have hrest : ∀ k ∈ ls, newline ∉ k := fun k hk => hls k (List.mem_cons_of_mem _ hk)
    rw [readLines_unlines_cons (hls l List.mem_cons_self)] at h ⊢
    split at h
    · -- the line is joined to the next one, so there is one line less
      have hle := length_readLines_le hrest ([] ++ (strip false l).1)
      simp only [List.length_cons] at h
      omega
    · rename_i hend
      rw [if_neg hend, ih hrest (by simpa using h), List.map_cons, List.nil_append]

theorem strip_of_not_mem {l : List UInt8} (h : backslash ∉ l) : strip false l = (l, false) := by
  induction l with
  | nil => rfl
  | cons c l ih =>
    have hc : c ≠ backslash := fun e => h (e ▸ List.mem_cons_self)
    simp [strip, hc, ih (List.not_mem_of_not_mem_cons h)]

theorem readLines_unlines {ls : List (List UInt8)} (hls : ∀ l ∈ ls, newline ∉ l)
    (hb : ∀ l ∈ ls, backslash ∉ l) : readLines [] false (unlines newline ls) = ls := by
  induction ls with
  | nil => rfl
  | cons l ls ih =>
    rw [readLines_unlines_cons (hls l List.mem_cons_self),
      strip_of_not_mem (hb l List.mem_cons_self),
      ih (fun k hk => hls k (List.mem_cons_of_mem _ hk)) fun k hk => hb k (List.mem_cons_of_mem _ hk)]
    simp

theorem count_strip_le (passNext : Bool) (l : List UInt8) :
    (strip passNext l).1.count backslash ≤ l.count backslash := by
  induction l generalizing passNext with
  | nil => exact Nat.le_refl _
  | cons c l ih =>
    rw [strip]
    split
    · exact Nat.le_trans (ih true) (List.count_le_count_cons ..)
    · rw [List.count_cons, List.count_cons]
      exact Nat.add_le_add_right (ih false) _

theorem count_strip_lt {l : List UInt8} (h : backslash ∈ l) :
    (strip false l).1.count backslash < l.count backslash := by
  induction l with
  | nil => exact absurd h (by simp)
  | cons c l ih =>
    by_cases hc : c = backslash
    · have hle := count_strip_le true l
      simp only [strip, hc, Bool.not_false, decide_true, Bool.and_self, if_true,
        List.count_cons_self]
      omega
    · have hlt := ih ((List.mem_cons.mp h).resolve_left (Ne.symm hc))
      simpa [strip, hc, List.count_cons_of_ne hc] using hlt

/-! ### What echo makes of a line -/

def shown (line : List UInt8) : List UInt8 := if echoOption line then [] else line

theorem mem_of_echoOption {line : List UInt8} (h : echoOption line = true) :
    ∀ c ∈ line, c ∈ [(45 : UInt8), 110, 101, 69] := by
  unfold echoOption at h
  split at h
  · rename_i d s
    intro c hc
    rcases List.mem_cons.mp hc with rfl | hc
    · decide
    · exact List.mem_cons_of_mem _ (by simpa using List.all_eq_true.mp h c hc)
  · exact absurd h (by simp)

theorem echoOption_of_dot_mem {line : List UInt8} (h : dot ∈ line) : echoOption line = false := by
  by_contra hopt
  exact absurd (mem_of_echoOption (by simpa using hopt) dot h) (by decide)

theorem count_shown_le (c : UInt8) (line : List UInt8) : (shown line).count c ≤ line.count c := by
  unfold shown
  split
  · simp
  · exact Nat.le_refl _

theorem newline_not_mem_shown {line : List UInt8} (h : newline ∉ line) : newline ∉ shown line := by
  rw [← List.count_eq_zero] at h ⊢
  exact Nat.le_zero.mp (h ▸ count_shown_le newline line)

/-- Of `echo` a line gets at most one newline; where all get theirs, what is shown
are lines. -/
theorem flatMap_echo {lines : List (List UInt8)} (h : ∀ l ∈ lines, newline ∉ l) :
    (lines.flatMap echo).count newline ≤ lines.length ∧
      ((lines.flatMap echo).count newline = lines.length →
        lines.flatMap echo = unlines newline (lines.map shown)) := by
  induction lines with
  | nil => exact ⟨Nat.le_refl _, fun _ => rfl⟩
  | cons l lines ih =>
    obtain ⟨hle, heq⟩ := ih fun k hk => h k (List.mem_cons_of_mem _ hk)
    have hl : l.count newline = 0 := List.count_eq_zero_of_not_mem (h l List.mem_cons_self)
    rw [List.flatMap_cons, List.count_append, List.length_cons, List.map_cons, unlines_cons]
    by_cases hopt : echoOption l = true
    · by_cases hn : 110 ∈ l
      · simp only [echo, hopt, hn, if_true, List.count_nil, Nat.zero_add]
        exact ⟨Nat.le_succ_of_le hle, fun hcount => by omega⟩
      · simp only [echo, shown, hopt, hn, if_true, if_false, List.count_singleton_self]
        refine ⟨by omega, fun hcount => ?_⟩
        rw [heq (by omega)]
        rfl
    · have hecho : echo l = l ++ [newline] := if_neg hopt
      have hshown : shown l = l := if_neg hopt
      rw [hecho, hshown, List.count_append, hl, List.count_singleton_self]
      refine ⟨by omega, fun hcount => ?_⟩
      rw [heq (by omega), List.append_assoc]
      rfl

/-! ### A line and a file -/

theorem not_infix_sed_iff {k : Cut UInt8} {line : List UInt8} (h : cut placeholder line = some k)
    (p : Address) :
    ¬ placeholder <:+: sed placeholder p.text line ↔
      ¬ placeholder <:+: k.after ∧
        ¬ placeholder <:+: k.before.drop (k.before.length - 14) ++ p.text ++ k.after.take 14 := by
  have hbefore := not_infix_before (by decide) h
  have hsed : sed placeholder p.text line = k.before ++ p.text ++ k.after := by rw [sed, h]
  have hlength : placeholder.length = 14 + 1 := rfl
  rw [hsed, infix_append_append_iff hlength]
  tauto

theorem infix_of_cut {k : Cut UInt8} {line : List UInt8} (h : cut placeholder line = some k) :
    placeholder <:+: line :=
  ⟨k.before, k.after, (eq_of_cut h).symm⟩

theorem echoOption_of_occurs {line : List UInt8} (h : placeholder <:+: line) :
    echoOption line = false :=
  echoOption_of_dot_mem (h.subset (by decide))

theorem echoOption_sed {line : List UInt8} (p : Address) (h : echoOption line = false) :
    echoOption (sed placeholder p.text line) = false := by
  unfold sed
  split
  · exact h
  · exact echoOption_of_dot_mem (by simp [p.dot_mem_text])

theorem backslash_not_mem_of_kept {v : Vars} {line : List UInt8}
    (h : Kept line (shown (v.body (strip false line).1).line)) : backslash ∉ line := by
  -- a backslash lost in read cannot come back: addresses have none
  intro hmem
  have hkept := h.count_eq (c := backslash) (by decide) (by decide)
  have hsed := (sed_substituted v.nextIp (strip false line).1).count_eq (c := backslash)
    (by decide) (by decide)
  have hshown := count_shown_le backslash (v.body (strip false line).1).line
  have hlt := count_strip_lt hmem
  rw [Vars.body_line] at hkept hshown
  omega

/-- A line comes out as it should exactly if it is clean. -/
theorem kept_iff_clean (v : Vars) (line : List UInt8) :
    Kept line (shown (v.body (strip false line).1).line) ↔ Clean v line := by
  constructor
  · intro h
    have hb := backslash_not_mem_of_kept h
    rw [strip_of_not_mem hb, Vars.body_line] at h
    have hopt : echoOption line = false := by
      by_contra hopt
      have hopt' : echoOption line = true := by simpa using hopt
      have hnone : ¬ placeholder <:+: line := fun hin => hopt (echoOption_of_occurs hin)
      rw [Kept, if_neg hnone, sed_of_not_occurs hnone, shown, if_pos hopt'] at h
      exact hopt (h ▸ rfl)
    have hmade : ∀ k, cut placeholder line = some k →
        ¬ placeholder <:+: sed placeholder v.nextIp.text line := by
      intro k hk
      rw [Kept, if_pos (infix_of_cut hk), shown, if_neg (by simp [echoOption_sed _ hopt])] at h
      exact h.2
    exact ⟨hb, hopt, fun k hk => ((not_infix_sed_iff hk _).mp (hmade k hk)).1,
      fun k hk => ((not_infix_sed_iff hk _).mp (hmade k hk)).2⟩
  · rintro ⟨hb, hopt, honce, hmade⟩
    rw [strip_of_not_mem hb, Vars.body_line, shown, if_neg (by simp [echoOption_sed _ hopt]), Kept]
    split
    · rename_i hin
      obtain ⟨k, hk⟩ := Option.ne_none_iff_exists'.mp fun hnone => cut_eq_none_iff.mp hnone hin
      exact ⟨sed_substituted _ _, (not_infix_sed_iff hk _).mpr ⟨honce k hk, hmade k hk⟩⟩
    · rename_i hin
      exact sed_of_not_occurs hin

/-- What a file without joined lines and without lost newlines looks like. -/
def Vars.shownLines (v : Vars) (lines : List (List UInt8)) : List (List UInt8) :=
  (v.loop (lines.map fun l => (strip false l).1)).map fun p => shown p.line

theorem forall₂_kept_iff (v : Vars) (lines : List (List UInt8)) :
    List.Forall₂ Kept lines (v.shownLines lines) ↔ Runs.EachStep Vars.next Clean v lines := by
  induction lines generalizing v with
  | nil => exact ⟨fun _ => Runs.eachStep_nil _, fun _ => .nil⟩
  | cons line lines ih =>
    have hcons : v.shownLines (line :: lines) = shown (v.body (strip false line).1).line ::
        (v.body (strip false line).1).vars.shownLines lines := rfl
    rw [hcons, List.forall₂_cons, kept_iff_clean, ih, Runs.eachStep_cons]
    refine and_congr_right fun hclean => ?_
    rw [strip_of_not_mem hclean.noBackslash, Vars.next]

theorem Vars.mem_loop {v : Vars} {lines : List (List UInt8)} {p : Pass} (h : p ∈ v.loop lines) :
    ∃ u : Vars, ∃ l ∈ lines, p = u.body l := by
  induction lines generalizing v with
  | nil => exact absurd h (by simp [Vars.loop])
  | cons line lines ih =>
    rcases List.mem_cons.mp h with rfl | h
    · exact ⟨v, line, List.mem_cons_self, rfl⟩
    · obtain ⟨u, l, hl, rfl⟩ := ih h
      exact ⟨u, l, List.mem_cons_of_mem _ hl, rfl⟩

theorem Vars.length_loop (v : Vars) (lines : List (List UInt8)) :
    (v.loop lines).length = lines.length := by
  induction lines generalizing v with
  | nil => rfl
  | cons line lines ih => rw [Vars.loop, List.length_cons, List.length_cons, ih]

theorem readdress_file (a : Option Address) (f : TextFile) :
    (readdress a f.contents).file =
      (((Vars.start a).loop (readLines [] false (unlines newline f.lines))).map Pass.line).flatMap
        echo := by
  rw [List.flatMap_map]
  rfl

theorem newline_not_mem_of_substituted {old new : List UInt8} (h : Substituted old new)
    (hold : newline ∉ old) : newline ∉ new := by
  rw [← List.count_eq_zero] at hold ⊢
  rw [h.count_eq (by decide) (by decide), hold]

theorem newline_not_mem_of_kept {lines new : List (List UInt8)} (h : List.Forall₂ Kept lines new)
    (hlines : ∀ l ∈ lines, newline ∉ l) : ∀ n ∈ new, newline ∉ n := by
  induction h with
  | nil => simp
  | @cons l n lines new hkept _ ih =>
    intro m hm
    rcases List.mem_cons.mp hm with rfl | hm
    · have hl := hlines l List.mem_cons_self
      rw [← List.count_eq_zero] at hl ⊢
      rw [hkept.count_eq (by decide) (by decide), hl]
    · exact ih (fun k hk => hlines k (List.mem_cons_of_mem _ hk)) m hm

/-- An undamaged file has as many newlines as before, so no line was joined to the
next and none lost its newline. -/
theorem shownLines_of_undamaged {a : Option Address} {f : TextFile} {new : List (List UInt8)}
    (hfile : (readdress a f.contents).file = unlines newline new)
    (hkept : List.Forall₂ Kept f.lines new) : new = (Vars.start a).shownLines f.lines := by
  have hnew := newline_not_mem_of_kept hkept f.newlineFree
  have hreadFree : ∀ l ∈ readLines [] false (unlines newline f.lines), newline ∉ l :=
    newline_not_mem_readLines (by simp)
  have hechoFree : ∀ l ∈ ((Vars.start a).loop
      (readLines [] false (unlines newline f.lines))).map Pass.line, newline ∉ l := by
    intro l hl
    obtain ⟨p, hp, rfl⟩ := List.mem_map.mp hl
    obtain ⟨u, k, hk, rfl⟩ := Vars.mem_loop hp
    rw [Vars.body_line]
    exact newline_not_mem_of_substituted (sed_substituted _ _) (hreadFree k hk)
  -- every line of the file needs a newline, and read and echo make none of their own
  obtain ⟨hle, heq⟩ := flatMap_echo hechoFree
  have hread := length_readLines_le f.newlineFree []
  have hcount := count_unlines hnew
  rw [← hfile, readdress_file, ← hkept.length_eq] at hcount
  rw [List.length_map, Vars.length_loop] at hle heq
  have hmap := readLines_eq_map f.newlineFree (by omega)
  rw [readdress_file, heq (by omega), hmap, List.map_map] at hfile
  rw [hmap] at hechoFree
  refine unlines_inj hnew ?_ hfile.symm
  intro l hl
  obtain ⟨p, hp, rfl⟩ := List.mem_map.mp hl
  exact newline_not_mem_shown (hechoFree _ (List.mem_map_of_mem hp))

theorem file_of_clean {a : Option Address} {f : TextFile}
    (h : Runs.EachStep Vars.next Clean (Vars.start a) f.lines) :
    (readdress a f.contents).file = unlines newline ((Vars.start a).shownLines f.lines) := by
  have hclean : ∀ l ∈ f.lines, backslash ∉ l ∧ echoOption l = false := by
    intro l hl
    obtain ⟨v, hv⟩ := h.exists_of_mem _ hl
    exact ⟨hv.noBackslash, hv.noOption⟩
  have hstrip : f.lines.map (fun l => (strip false l).1) = f.lines := by
    refine List.map_congr_left (fun l hl => ?_) |>.trans (List.map_id _)
    rw [strip_of_not_mem (hclean l hl).1, id]
  rw [readdress_file, readLines_unlines f.newlineFree fun l hl => (hclean l hl).1, Vars.shownLines,
    hstrip, unlines, List.flatMap_map, List.flatMap_map]
  refine List.flatMap_congr fun p hp => ?_
  obtain ⟨u, l, hl, rfl⟩ := Vars.mem_loop hp
  have hopt : echoOption (u.body l).line = false := by
    rw [Vars.body_line]
    exact echoOption_sed _ (hclean l hl).2
  simp [echo, shown, hopt]

def escaped : TextFile where
  lines := [[97, 92, 98]]
  newlineFree := by decide
  nulFree := by decide

end KeepalivedDevel.Readdress
