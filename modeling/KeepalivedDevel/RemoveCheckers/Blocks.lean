import KeepalivedDevel.RemoveCheckers.Code

/-!
# Configurations without their checkers

A configuration as a tree of blocks, written with one brace in a line. On such
files `remove_checkers` removes the blocks of the checkers and nothing else, at
whatever depth they are; a checker that is only named is another matter.
-/

namespace KeepalivedDevel.RemoveCheckers
open CLib

/-! ### Configurations -/

/-- The lines of a configuration: single lines, and blocks with the line that opens
and the line that closes them. -/
inductive Config where
  | nil
  | line (l : Line) (rest : Config)
  | block (head : Line) (inner : Config) (tail : Line) (rest : Config)

namespace Config

def render : Config → List Line
  | .nil => []
  | .line l rest => l :: rest.render
  | .block head inner tail rest => head :: (inner.render ++ tail :: rest.render)

/- How deep the blocks are nested. -/
def height : Config → ℕ
  | .nil => 0
  | .line _ rest => rest.height
  | .block _ inner _ rest => max (inner.height + 1) rest.height

end Config

def Line.opens (l : Line) : Prop := 123 ∈ l.bytes
def Line.closes (l : Line) : Prop := 125 ∈ l.bytes
def Line.names (l : Line) : Bool := namesChecker l.text

instance (l : Line) : Decidable l.opens := inferInstanceAs (Decidable (_ ∈ _))
instance (l : Line) : Decidable l.closes := inferInstanceAs (Decidable (_ ∈ _))

namespace Config

/-- A single line has both braces or none. -/
def Braced : Config → Prop
  | .nil => True
  | .line l rest => (l.opens ↔ l.closes) ∧ rest.Braced
  | .block head inner tail rest =>
    (head.opens ∧ ¬ head.closes) ∧ inner.Braced ∧ (tail.closes ∧ ¬ tail.opens) ∧ rest.Braced

/-- A checker is named where it is opened, and nowhere else outside of the checkers. -/
def Named : Config → Prop
  | .nil => True
  | .line l rest => (l.names = true → l.opens) ∧ rest.Named
  | .block head inner tail rest =>
    (head.names = false → inner.Named ∧ tail.names = false) ∧ rest.Named

/-- The configuration without its checkers. -/
def prune : Config → Config
  | .nil => .nil
  | .line l rest => if l.names then rest.prune else .line l rest.prune
  | .block head inner tail rest =>
    if head.names then rest.prune else .block head inner.prune tail rest.prune

end Config

/-! ### Single lines -/

theorem mem_text_iff {c : UInt8} (hc : c ≠ 10) (l : Line) : c ∈ l.text ↔ c ∈ l.bytes := by
  simp [Line.text, hc]

namespace Filter

variable {f : Filter} {l : Line}

theorem line_outside (hout : f.inChecker = false) (hl : l.names = false) :
    f.line l.text = { f with output := f.output ++ l.text } := by
  have hnames : namesChecker l.text = false := hl
  simp [line, hout, hnames]

theorem line_inside (hin : f.inChecker = true) : f.line l.text = f.braces l.text := by
  simp [line, hin]

theorem line_names (hout : f.inChecker = false) (hl : l.names = true) :
    f.line l.text = { f with inChecker := true }.braces l.text := by
  have hnames : namesChecker l.text = true := hl
  simp [line, hout, hnames]

theorem braces_opens (hopen : l.opens) (hclose : ¬ l.closes) :
    f.braces l.text = { f with depth := f.depth + 1 } := by
  have ho : 123 ∈ l.text := (mem_text_iff (by decide) l).mpr hopen
  have hc : 125 ∉ l.text := fun h => hclose ((mem_text_iff (by decide) l).mp h)
  simp [braces, ho, hc]

theorem braces_closes (hclose : l.closes) (hopen : ¬ l.opens) :
    f.braces l.text =
      { f with depth := f.depth - 1, inChecker := if f.depth - 1 = 0 then false else f.inChecker } := by
  have hc : 125 ∈ l.text := (mem_text_iff (by decide) l).mpr hclose
  have ho : 123 ∉ l.text := fun h => hopen ((mem_text_iff (by decide) l).mp h)
  simp only [braces, ho, hc, ite_true, ite_false]
  split <;> rfl

theorem braces_none (hopen : ¬ l.opens) (hclose : ¬ l.closes) : f.braces l.text = f := by
  have ho : 123 ∉ l.text := fun h => hopen ((mem_text_iff (by decide) l).mp h)
  have hc : 125 ∉ l.text := fun h => hclose ((mem_text_iff (by decide) l).mp h)
  simp [braces, ho, hc]

/- A line with both braces counts for nothing, except where no brace is open. -/
theorem braces_even (heven : l.opens ↔ l.closes) (hdepth : f.depth ≠ 0) : f.braces l.text = f := by
  by_cases hopen : l.opens
  · have ho : 123 ∈ l.text := (mem_text_iff (by decide) l).mpr hopen
    have hc : 125 ∈ l.text := (mem_text_iff (by decide) l).mpr (heven.mp hopen)
    have hback : f.depth + 1 - 1 = f.depth := UInt32.add_sub_cancel ..
    simp [braces, ho, hc, hback, hdepth]
  · exact braces_none hopen fun hclose => hopen (heven.mpr hclose)

theorem lines_append (ls ms : List Line) : f.lines (ls ++ ms) = (f.lines ls).lines ms :=
  List.foldl_append ..

theorem lines_cons (ls : List Line) : f.lines (l :: ls) = (f.line l.text).lines ls := rfl

/-! ### Inside a checker -/

/-- Whole blocks inside a checker leave the filter as it is, as long as their braces do
not bring the depth to zero. -/
theorem lines_inside {c : Config} (hc : c.Braced) (hin : f.inChecker = true)
    (hdepth : ∀ j ≤ c.height, f.depth + UInt32.ofNat j ≠ 0) : f.lines c.render = f := by
  induction c generalizing f with
  | nil => rfl
  | line l rest ih =>
    obtain ⟨heven, hrest⟩ := hc
    have hzero : f.depth ≠ 0 := by simpa using hdepth 0 (Nat.zero_le _)
    rw [Config.render, lines_cons, line_inside hin, braces_even heven hzero]
    exact ih hrest hin hdepth
  | block head inner tail rest ihi ihr =>
    obtain ⟨⟨hopen, hnot⟩, hinner, ⟨hclose, hnot'⟩, hrest⟩ := hc
    have hzero : f.depth ≠ 0 := by simpa using hdepth 0 (Nat.zero_le _)
    have hdeeper : ∀ j ≤ inner.height, f.depth + 1 + UInt32.ofNat j ≠ 0 := by
      intro j hj
      have hnext := hdepth (j + 1) (le_trans (by omega) (le_max_left ..))
      rwa [UInt32.ofNat_add, UInt32.add_comm (UInt32.ofNat j), ← UInt32.add_assoc] at hnext
    have hback : f.depth + 1 - 1 = f.depth := UInt32.add_sub_cancel ..
    have hinside : { f with depth := f.depth + 1 }.lines inner.render = { f with depth := f.depth + 1 } :=
      ihi hinner hin hdeeper
    rw [Config.render, lines_cons, line_inside hin, braces_opens hopen hnot, lines_append, hinside,
      lines_cons, line_inside (by exact hin), braces_closes hclose hnot']
    simp only [hback, hzero, ite_false]
    exact ihr hrest hin fun j hj => hdepth j (hj.trans (le_max_right ..))

/-! ### Outside -/

theorem ofNat_ne_zero {n : ℕ} (hpos : 0 < n) (hn : n < 4294967296) : UInt32.ofNat n ≠ 0 := by
  intro h
  have hval := congrArg UInt32.toNat h
  rw [UInt32.toNat_ofNat'] at hval
  simp at hval
  omega

/-- A checker that is opened is removed with all that is in it. -/
theorem lines_checker {head tail : Line} {inner : Config} (hout : f.inChecker = false)
    (hdepth : f.depth = 0) (hname : head.names = true) (hhead : head.opens ∧ ¬ head.closes)
    (hinner : inner.Braced) (htail : tail.closes ∧ ¬ tail.opens)
    (hheight : inner.height < 4294967295) :
    f.lines (head :: (inner.render ++ [tail])) = f := by
  obtain ⟨inChecker, depth, output⟩ := f
  subst hout hdepth
  have hinside : (⟨true, 1, output⟩ : Filter).lines inner.render = ⟨true, 1, output⟩ := by
    refine lines_inside hinner rfl fun j hj => ?_
    have hne := ofNat_ne_zero (n := 1 + j) (by omega) (by omega)
    rwa [UInt32.ofNat_add] at hne
  have hopened : (⟨false, 0, output⟩ : Filter).line head.text = ⟨true, 1, output⟩ := by
    rw [line_names rfl hname, braces_opens hhead.1 hhead.2]
    rfl
  have hclosed : (⟨true, 1, output⟩ : Filter).line tail.text = ⟨false, 0, output⟩ := by
    rw [line_inside rfl, braces_closes htail.1 htail.2]
    simp
  rw [lines_cons, hopened, lines_append, hinside, lines_cons, hclosed]
  rfl

/- So is a checker in one line. -/
theorem line_checker (hout : f.inChecker = false) (hdepth : f.depth = 0) (hname : l.names = true)
    (hopen : l.opens) (heven : l.opens ↔ l.closes) : f.line l.text = f := by
  obtain ⟨inChecker, depth, output⟩ := f
  subst hout hdepth
  have ho : 123 ∈ l.text := (mem_text_iff (by decide) l).mpr hopen
  have hc : 125 ∈ l.text := (mem_text_iff (by decide) l).mpr (heven.mp hopen)
  rw [line_names rfl hname]
  simp [braces, ho, hc]

theorem lines_render {c : Config} (hbraced : c.Braced) (hnamed : c.Named)
    (hheight : c.height < 4294967296) (output : List UInt8) :
    (⟨false, 0, output⟩ : Filter).lines c.render = ⟨false, 0, output ++ file c.prune.render⟩ := by
  induction c generalizing output with
  | nil => simp [Config.render, Config.prune, lines, file, unlines]
  | line l rest ih =>
    obtain ⟨heven, hbraced⟩ := hbraced
    obtain ⟨hname, hnamed⟩ := hnamed
    rw [Config.render, lines_cons, Config.prune]
    by_cases hl : l.names = true
    · rw [line_checker rfl rfl hl (hname hl) heven, ih hbraced hnamed hheight, if_pos hl]
    · rw [line_outside rfl (by simpa using hl), if_neg hl, ih hbraced hnamed hheight, Config.render,
        file_cons]
      simp [Line.text]
  | block head inner tail rest ihi ihr =>
    obtain ⟨hhead, hinner, htail, hrest⟩ := hbraced
    obtain ⟨hnblock, hnrest⟩ := hnamed
    have hi : inner.height + 1 < 4294967296 := lt_of_le_of_lt (le_max_left ..) hheight
    have hr : rest.height < 4294967296 := lt_of_le_of_lt (le_max_right ..) hheight
    rw [Config.render, Config.prune]
    by_cases hl : head.names = true
    · have hsplit : head :: (inner.render ++ tail :: rest.render) =
          (head :: (inner.render ++ [tail])) ++ rest.render := by simp
      rw [hsplit, lines_append, lines_checker rfl rfl hl hhead hinner htail (by omega), if_pos hl]
      exact ihr hrest hnrest hr output
    · have hplain : head.names = false := by simpa using hl
      obtain ⟨hninner, hntail⟩ := hnblock hplain
      rw [lines_cons, line_outside rfl hplain, lines_append, ihi hinner hninner (by omega), lines_cons, line_outside rfl hntail, ihr hrest hnrest hr,
        if_neg hl, Config.render, file_cons, file_append, file_cons]
      simp [Line.text]

end Filter

/- "v {", "TCP_CHECK {", "#TCP_CHECK", "}" and "y". -/
def openLine : Line := ⟨[118, 32, 123], by decide, by decide, by decide⟩
def checkerLine : Line :=
  ⟨[84, 67, 80, 95, 67, 72, 69, 67, 75, 32, 123], by decide, by decide, by decide⟩
def commentLine : Line := ⟨[35, 84, 67, 80, 95, 67, 72, 69, 67, 75], by decide, by decide, by decide⟩
def closeLine : Line := ⟨[125], by decide, by decide, by decide⟩
def plainLine : Line := ⟨[121], by decide, by decide, by decide⟩

/- The number of lines with a closing brace. -/
def closings (lines : List Line) : ℕ := lines.countP fun l => decide l.closes

namespace Filter

theorem zero_sub_ofNat_succ (n : ℕ) :
    (0 : UInt32) - UInt32.ofNat n - 1 = 0 - UInt32.ofNat (n + 1) := by
  rw [UInt32.ofNat_add]
  grind

theorem zero_sub_ofNat_add {n j : ℕ} (h : j < n) (hn : n < 4294967296) :
    (0 : UInt32) - UInt32.ofNat n + UInt32.ofNat j ≠ 0 := by
  have hsplit : UInt32.ofNat n = UInt32.ofNat (n - j) + UInt32.ofNat j := by
    rw [← UInt32.ofNat_add]
    congr 1
    omega
  have hne := ofNat_ne_zero (n := n - j) (by omega) (by omega)
  grind

/-- Lines that open nothing, behind a checker's name: every line with a closing brace takes
the depth one further below zero. -/
theorem lines_closing (lines : List Line) (hlines : ∀ l ∈ lines, ¬ l.opens) (n : ℕ)
    (output : List UInt8) (hn : n + closings lines < 4294967296) :
    (⟨true, 0 - UInt32.ofNat n, output⟩ : Filter).lines lines =
      ⟨true, 0 - UInt32.ofNat (n + closings lines), output⟩ := by
  induction lines generalizing n with
  | nil => rfl
  | cons l lines ih =>
    obtain ⟨hopen, hrest⟩ := List.forall_mem_cons.mp hlines
    rw [lines_cons, line_inside rfl]
    by_cases hclose : l.closes
    · have hcount : closings (l :: lines) = closings lines + 1 :=
        List.countP_cons_of_pos (by simpa using hclose)
      have hzero : (0 : UInt32) - UInt32.ofNat (n + 1) ≠ 0 := by
        simpa using zero_sub_ofNat_add (n := n + 1) (j := 0) (by omega) (by omega)
      rw [braces_closes hclose hopen]
      simp only [zero_sub_ofNat_succ, hzero, ite_false]
      rw [ih hrest (n + 1) (by omega), hcount, Nat.add_right_comm, Nat.add_assoc]
    · have hcount : closings (l :: lines) = closings lines :=
        List.countP_cons_of_neg (by simpa using hclose)
      rw [braces_none hopen hclose, hcount]
      rw [hcount] at hn
      exact ih hrest n hn

end Filter

/-! ### The blocks around a line -/

/-- A block that is not closed yet: what stands before it, and the line that opens it. -/
structure Frame where
  before : Config
  head : Line

namespace Frame

def render (fr : Frame) : List Line := fr.before.render ++ [fr.head]

def prune (fr : Frame) : List Line := fr.before.prune.render ++ [fr.head]

structure Proper (fr : Frame) : Prop where
  braced : fr.before.Braced
  named : fr.before.Named
  height : fr.before.height < 4294967296
  head : fr.head.names = false

end Frame

theorem Filter.lines_frames (frames : List Frame) (hframes : ∀ fr ∈ frames, fr.Proper)
    (output : List UInt8) :
    (⟨false, 0, output⟩ : Filter).lines (frames.flatMap Frame.render) =
      ⟨false, 0, output ++ file (frames.flatMap Frame.prune)⟩ := by
  induction frames generalizing output with
  | nil => simp [Filter.lines, file, unlines]
  | cons fr frames ih =>
    obtain ⟨hfr, hrest⟩ := List.forall_mem_cons.mp hframes
    rw [List.flatMap_cons, List.flatMap_cons, Filter.lines_append, Frame.render, Filter.lines_append,
      Filter.lines_render hfr.braced hfr.named hfr.height, Filter.lines_cons,
      Filter.line_outside rfl hfr.head]
    show (⟨false, 0, output ++ file fr.before.prune.render ++ fr.head.text⟩ : Filter).lines _ = _
    rw [ih hrest, Frame.prune, file_append, file_append, file_cons]
    simp [Line.text, file, unlines]

end KeepalivedDevel.RemoveCheckers
