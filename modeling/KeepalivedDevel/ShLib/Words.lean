import KeepalivedDevel.ShLib.Expansion
import Mathlib.Data.List.Infix
import Mathlib.Data.List.Nodup
import Mathlib.Data.List.Range

/-!
# Lists of words in a variable of the shell

A script that keeps a list in a variable appends to it with `list="$list $word"`, goes
through it by an unquoted `$list`, and looks for a word by matching `" $list "` against
`" $word "`. It also takes words apart by removing what is in front of a byte. Other lists
are the names that a pattern stands for, which come in order, and the numbers of `seq`.
-/

namespace ShLib

/- Space, tab and newline. -/
def ifs : List UInt8 := [32, 9, 10]

/-- The words of an unquoted expansion. -/
def words (s : List UInt8) : List (List UInt8) := (s.splitOnP (· ∈ ifs)).filter (· ≠ [])

structure IsWord (w : List UInt8) : Prop where
  ne_nil : w ≠ []
  not_mem_ifs : ∀ b ∈ w, b ∉ ifs

/- The value of a variable to which words have been appended. -/
def wordList (ws : List (List UInt8)) : List UInt8 := ws.flatMap (32 :: ·)

/-- The test `[[ " $list " =~ " $word " ]]`: quoted text is looked for as it is. -/
def listed (list word : List UInt8) : Bool := 32 :: (word ++ [32]) <:+: 32 :: (list ++ [32])

theorem words_append_cons (a : List UInt8) {c : UInt8} (hc : c ∈ ifs) (b : List UInt8) :
    words (a ++ c :: b) = words a ++ words b := by
  rw [words, List.splitOnP_append_cons _ _ (by simpa using hc), List.filter_append]
  rfl

theorem IsWord.words_eq {w : List UInt8} (hw : IsWord w) : words w = [w] := by
  rw [words, List.splitOnP_eq_singleton (by simpa using hw.not_mem_ifs)]
  simp [hw.ne_nil]

theorem words_nil : words [] = [] := rfl

theorem words_space (s : List UInt8) : words (32 :: s) = words s :=
  words_append_cons [] (by decide) s

theorem words_wordList {ws : List (List UInt8)} (h : ∀ w ∈ ws, IsWord w) :
    words (wordList ws) = ws := by
  induction ws using List.reverseRecOn with
  | nil => rfl
  | append_singleton ws w ih =>
    have hws : ∀ v ∈ ws, IsWord v := fun v hv => h v (List.mem_append_left _ hv)
    have hw : IsWord w := h w (by simp)
    rw [wordList, List.flatMap_append, List.flatMap_singleton, words_append_cons _ (by decide),
      hw.words_eq]
    rw [wordList] at ih
    rw [ih hws]

theorem words_intercalate {ws : List (List UInt8)} (h : ∀ w ∈ ws, IsWord w) :
    words ([32].intercalate ws) = ws := by
  induction ws with
  | nil => rfl
  | cons w ws ih =>
    obtain ⟨hw, hws⟩ := List.forall_mem_cons.mp h
    cases ws with
    | nil => simpa using hw.words_eq
    | cons v ws =>
      rw [List.intercalate_cons_cons, List.append_assoc, List.singleton_append,
        words_append_cons _ (by decide), hw.words_eq, ih hws]
      rfl

theorem wordList_append (ws : List (List UInt8)) (w : List UInt8) :
    wordList (ws ++ [w]) = wordList ws ++ 32 :: w := by
  rw [wordList, wordList, List.flatMap_append, List.flatMap_singleton]

/- A list of words is followed by a space, which is the one in front of its first word
or the one behind the list. -/
theorem exists_wordList_space (ws : List (List UInt8)) : ∃ rest, wordList ws ++ [32] = 32 :: rest := by
  cases ws with
  | nil => exact ⟨[], rfl⟩
  | cons w ws => exact ⟨w ++ wordList ws ++ [32], by simp [wordList]⟩

/-- A word is found in a list exactly if it is one of its words, not a part of one. -/
theorem listed_wordList {ws : List (List UInt8)} (hws : ∀ w ∈ ws, IsWord w) {w : List UInt8}
    (hw : IsWord w) : listed (wordList ws) w = true ↔ w ∈ ws := by
  rw [listed, decide_eq_true_eq]
  constructor
  · rintro ⟨u, v, h⟩
    have hfound : words (u ++ 32 :: (w ++ [32]) ++ v) = words u ++ (w :: words v) := by
      rw [List.append_assoc, List.cons_append, words_append_cons u (by decide), List.append_assoc,
        List.singleton_append, words_append_cons w (by decide), hw.words_eq]
      rfl
    have hall : words (32 :: (wordList ws ++ [32])) = ws := by
      rw [words_space, words_append_cons _ (by decide), words_wordList hws, words_nil,
        List.append_nil]
    rw [← hall, ← h, hfound]
    simp
  · intro hmem
    obtain ⟨us, vs, rfl⟩ := List.append_of_mem hmem
    obtain ⟨rest, hrest⟩ := exists_wordList_space vs
    refine ⟨32 :: wordList us, rest, ?_⟩
    have hlist : wordList (us ++ w :: vs) ++ [32] = wordList us ++ 32 :: (w ++ 32 :: rest) := by
      rw [← hrest]
      simp [wordList]
    rw [hlist]
    simp

/-! ### Removing what is in front -/

/-- The expansion `${s#p}`. -/
def removeFront (p : List Glob) (s : List UInt8) : List UInt8 :=
  match (List.range (s.length + 1)).find? fun n => globMatch p (s.take n) with
  | some n => s.drop n
  | none => s

theorem globMatch_star_char (c : UInt8) (s : List UInt8) :
    globMatch [.star, .char c] s = true ↔ [c] <:+ s := by
  rw [globMatch, List.any_eq_true]
  constructor
  · rintro ⟨t, ht, hm⟩
    have hsub := (List.mem_tails ..).mp ht
    cases t with
    | nil => cases hm
    | cons d t =>
      rw [globMatch, Bool.and_eq_true, decide_eq_true_eq] at hm
      have hnil : t = [] := by simpa [globMatch] using hm.2
      rwa [← hm.1, hnil] at hsub
  · intro h
    exact ⟨[c], (List.mem_tails ..).mpr h, by simp [globMatch]⟩

/-- With `*c` everything goes up to the first `c`. -/
theorem removeFront_star_char {c : UInt8} {a : List UInt8} (ha : c ∉ a) (b : List UInt8) :
    removeFront [.star, .char c] (a ++ c :: b) = b := by
  have hfind : (List.range ((a ++ c :: b).length + 1)).find?
      (fun n => globMatch [.star, .char c] ((a ++ c :: b).take n)) = some (a.length + 1) := by
    rw [List.find?_range_eq_some]
    refine ⟨?_, ?_, ?_⟩
    · rw [globMatch_star_char, List.take_append, List.take_of_length_le (by omega)]
      simp
    · simp
    · intro j hj
      have htake : (a ++ c :: b).take j = a.take j := List.take_append_of_le_length (by omega)
      rw [Bool.not_eq_true', Bool.eq_false_iff, ne_eq, globMatch_star_char, htake]
      intro h
      exact ha (List.mem_of_mem_take (h.mem (List.mem_singleton_self c)))
  rw [removeFront, hfind]
  simp

/-! ### Names in order -/

/- Texts of one length decide what they are the beginnings of. -/
theorem append_lt_append {a b : List UInt8} (h : a < b) (hlen : a.length = b.length)
    (s t : List UInt8) : a ++ s < b ++ t := by
  induction a generalizing b with
  | nil =>
    cases b with
    | nil => exact absurd h (List.lt_irrefl _)
    | cons d b => cases hlen
  | cons c a ih =>
    cases b with
    | nil => cases hlen
    | cons d b =>
      rw [List.cons_append, List.cons_append, List.cons_lt_cons_iff]
      rcases List.cons_lt_cons_iff.mp h with hcd | ⟨hcd, hab⟩
      · exact .inl hcd
      · exact .inr ⟨hcd, ih hab (Nat.succ.inj hlen)⟩

section

variable {α : Type} {name : α → List UInt8}

theorem pairwise_mergeSort_name (files : List α) :
    (files.mergeSort fun f g => name f ≤ name g).Pairwise fun f g => name f ≤ name g := by
  have htrans : ∀ f g k : α, decide (name f ≤ name g) = true →
      decide (name g ≤ name k) = true → decide (name f ≤ name k) = true := by
    simp only [decide_eq_true_eq]
    exact fun f g k hfg hgk => List.le_trans hfg hgk
  have htotal : ∀ f g : α, (decide (name f ≤ name g) || decide (name g ≤ name f)) = true := by
    simp only [Bool.or_eq_true, decide_eq_true_eq]
    exact fun f g => List.le_total (name f) (name g)
  exact (List.pairwise_mergeSort htrans htotal files).imp fun hle => of_decide_eq_true hle

/-- The names in a directory come in their order, in whatever order they were made. -/
theorem mergeSort_name_eq {files sorted : List α}
    (hsorted : sorted.Pairwise fun f g => name f < name g) (hperm : files.Perm sorted) :
    (files.mergeSort fun f g => name f ≤ name g) = sorted := by
  have hmem := (List.mergeSort_perm files fun f g => name f ≤ name g).trans hperm
  refine hmem.eq_of_pairwise ?_ (pairwise_mergeSort_name files)
    (hsorted.imp fun hlt => List.le_of_lt hlt)
  intro f g hf hg hfg hgf
  have hnames : (sorted.map name).Nodup := by
    refine List.pairwise_map.mpr (hsorted.imp ?_)
    intro f g hlt heq
    rw [heq] at hlt
    exact List.lt_irrefl _ hlt
  exact List.inj_on_of_nodup_map hnames (hmem.mem_iff.mp hf) hg (List.le_antisymm hfg hgf)

end

/-! ### `seq` -/

/- `seq first $((past - 1))` -/
def seqTo (first past : ℕ) : List ℕ := List.range' first (past - first)

theorem mem_seqTo {first past i : ℕ} : i ∈ seqTo first past ↔ first ≤ i ∧ i < past := by
  rw [seqTo, List.mem_range'_1]
  omega

theorem nodup_seqTo (first past : ℕ) : (seqTo first past).Nodup := List.nodup_range'

theorem seqTo_append {a b c : ℕ} (hab : a ≤ b) (hbc : b ≤ c) :
    seqTo a b ++ seqTo b c = seqTo a c := by
  have happend := List.range'_append_1 (s := a) (m := b - a) (n := c - b)
  rw [Nat.add_sub_cancel' hab] at happend
  rw [seqTo, seqTo, seqTo, happend]
  congr 1
  omega

end ShLib
