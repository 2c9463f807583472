import KeepalivedDevel.Script1173.Addresses
import KeepalivedDevel.ShLib.Words

/-!
# The configurations of `configs/1173.sh`

For each address of a range the script writes one file. Values that a keyword can be given
on the command line are looked up by the text of the keyword and an equals sign, anywhere
in a word.
-/

namespace KeepalivedDevel.Script1173
open CLib ShLib

/-! ### Looking up a value (`1173.sh:45-61`) -/

/- The words of OTHER_ARGS are taken as they are: the shell would also put file names in the
place of those that are patterns. -/
def akReadPair (otherArgs tmpKey defVal : List UInt8) : List UInt8 :=
  match (words otherArgs).find? fun tmpPair => tmpKey ++ [61] <:+: tmpPair with
  | some tmpPair => tmpPair.map fun b => if b = 61 then 32 else b
  | none =>
    if defVal ≠ [] then tmpKey ++ 32 :: defVal else 35 :: (tmpKey ++ [32, 88, 88, 88])

/- The keywords that are looked up. -/
inductive Key where
  | connectTimeout
  | delayBeforeRetry
  | retry
  | bindto
  | weight
  | delayLoop
  | persistenceTimeout
  | dev
  deriving DecidableEq

def Key.text : Key → List UInt8
  | .connectTimeout => [99, 111, 110, 110, 101, 99, 116, 95, 116, 105, 109, 101, 111, 117, 116]
  | .delayBeforeRetry => [100, 101, 108, 97, 121, 95, 98, 101, 102, 111, 114, 101, 95, 114, 101, 116, 114, 121]
  | .retry => [114, 101, 116, 114, 121]
  | .bindto => [98, 105, 110, 100, 116, 111]
  | .weight => [119, 101, 105, 103, 104, 116]
  | .delayLoop => [100, 101, 108, 97, 121, 95, 108, 111, 111, 112]
  | .persistenceTimeout => [112, 101, 114, 115, 105, 115, 116, 101, 110, 99, 101, 95, 116, 105, 109, 101, 111, 117, 116]
  | .dev => [100, 101, 118]

/- The values of RANDOM. -/
structure Draw where
  connectTimeout : ℕ
  delayBeforeRetry : ℕ
  retry : ℕ

/-- The lines of a checker (`1173.sh:67-71`). -/
def hcArgs (otherArgs hcPort : List UInt8) (random : Draw) : List (List UInt8) :=
  -- connect_port
  [[99, 111, 110, 110, 101, 99, 116, 95, 112, 111, 114, 116] ++ 32 :: hcPort,
    akReadPair otherArgs Key.connectTimeout.text (numeral (random.connectTimeout % 1000 + 1)),
    akReadPair otherArgs Key.delayBeforeRetry.text (numeral (random.delayBeforeRetry % 10 + 1)),
    akReadPair otherArgs Key.retry.text (numeral (random.retry % 3 + 1)),
    akReadPair otherArgs Key.bindto.text []]

/-! ### What is given on the command line -/

structure Pair where
  key : Key
  value : List UInt8
  noEquals : 61 ∉ value
  noBlank : ∀ b ∈ value, b ∉ ifs

def Pair.text (p : Pair) : List UInt8 := p.key.text ++ 61 :: p.value

def Pair.line (p : Pair) : List UInt8 := p.key.text ++ 32 :: p.value

/-- A value for a keyword, or a word without an equals sign. -/
inductive Arg where
  | pair (p : Pair)
  | flag (w : List UInt8) (word : IsWord w) (noEquals : 61 ∉ w)

def Arg.text : Arg → List UInt8
  | .pair p => p.text
  | .flag w _ _ => w

def Arg.pair? : Arg → Option Pair
  | .pair p => some p
  | .flag _ _ _ => none

/- OTHER_ARGS="$*" -/
def otherArgs (args : List Arg) : List UInt8 := [32].intercalate (args.map Arg.text)

def pairs (args : List Arg) : List Pair := args.filterMap Arg.pair?

def defaultLine (key : Key) (defVal : List UInt8) : List UInt8 :=
  if defVal ≠ [] then key.text ++ 32 :: defVal else 35 :: (key.text ++ [32, 88, 88, 88])

/-- The line that is meant: the first value given for the keyword itself. -/
def meant (args : List Arg) (key : Key) (defVal : List UInt8) : List UInt8 :=
  (((pairs args).find? (·.key = key)).map Pair.line).getD (defaultLine key defVal)

theorem Key.text_bytes (key : Key) : key.text ≠ [] ∧ 61 ∉ key.text ∧ ∀ b ∈ key.text, b ∉ ifs := by
  cases key <;> simp [Key.text, ifs]

/- One keyword is the end of another. -/
theorem Key.suffix_iff (a b : Key) :
    a.text <:+ b.text ↔ a = b ∨ a = .retry ∧ b = .delayBeforeRetry := by
  cases a <;> cases b <;> decide

theorem Pair.isWord (p : Pair) : IsWord p.text where
  ne_nil := by simp [Pair.text]
  not_mem_ifs b hb := by
    rw [Pair.text, List.mem_append, List.mem_cons] at hb
    rcases hb with hb | rfl | hb
    · exact p.key.text_bytes.2.2 b hb
    · decide
    · exact p.noBlank b hb

theorem Arg.isWord (a : Arg) : IsWord a.text := by
  cases a with
  | pair p => exact p.isWord
  | flag w word _ => exact word

/- With one equals sign in the word, the keyword has to end in front of it. -/
theorem infix_pair_iff {key k v : List UInt8} (hk : 61 ∉ k) (hv : 61 ∉ v) (hkey : 61 ∉ key) :
    key ++ [61] <:+: k ++ 61 :: v ↔ key <:+ k := by
  constructor
  · rintro ⟨s, t, h⟩
    have hcount := congrArg (List.count 61) h
    simp only [List.count_append, List.count_cons_self, List.count_nil,
      List.count_eq_zero_of_not_mem hk, List.count_eq_zero_of_not_mem hv,
      List.count_eq_zero_of_not_mem hkey] at hcount
    have hs : 61 ∉ s := List.count_eq_zero.mp (by omega)
    have hsplit : (s ++ key) ++ 61 :: t = k ++ 61 :: v := by simpa using h
    have hfront : 61 ∉ s ++ key := by simp [hs, hkey]
    exact ⟨s, (append_cons_inj hfront hk hsplit).1⟩
  · rintro ⟨s, rfl⟩
    exact ⟨s, v, by simp⟩

theorem Pair.found_iff (p : Pair) (key : Key) :
    key.text ++ [61] <:+: p.text ↔ p.key = key ∨ key = .retry ∧ p.key = .delayBeforeRetry := by
  rw [Pair.text, infix_pair_iff p.key.text_bytes.2.1 p.noEquals key.text_bytes.2.1, Key.suffix_iff,
    eq_comm]

theorem Pair.shown (p : Pair) : (p.text.map fun b => if b = 61 then 32 else b) = p.line := by
  have hkeep : ∀ s : List UInt8, 61 ∉ s → (s.map fun b => if b = 61 then 32 else b) = s := by
    intro s hs
    refine (List.map_congr_left fun b hb => if_neg ?_).trans (List.map_id' s)
    exact fun heq => hs (heq ▸ hb)
  rw [Pair.text, List.map_append, List.map_cons, hkeep _ p.key.text_bytes.2.1, hkeep _ p.noEquals]
  rfl

/-! ### What is found -/

/- The keyword itself, or the longer one that ends with it. -/
def taken (key : Key) (p : Pair) : Bool := p.key = key || (key = .retry && p.key = .delayBeforeRetry)

theorem taken_iff (key : Key) (p : Pair) :
    taken key p = true ↔ p.key = key ∨ key = .retry ∧ p.key = .delayBeforeRetry := by
  simp [taken]

theorem words_otherArgs (args : List Arg) : words (otherArgs args) = args.map Arg.text := by
  refine words_intercalate ?_
  rw [List.forall_mem_map]
  exact fun a _ => a.isWord

theorem find_words (args : List Arg) (key : Key) :
    ((words (otherArgs args)).find? fun w => key.text ++ [61] <:+: w) =
      ((pairs args).find? (taken key)).map Pair.text := by
  rw [words_otherArgs]
  induction args with
  | nil => rfl
  | cons a args ih =>
    cases a with
    | pair p =>
      have hpairs : pairs (.pair p :: args) = p :: pairs args := rfl
      rw [List.map_cons, hpairs, Arg.text]
      by_cases htaken : taken key p = true
      · have hoccurs := (p.found_iff key).mpr ((taken_iff key p).mp htaken)
        rw [List.find?_cons_of_pos (by simpa using hoccurs), List.find?_cons_of_pos htaken,
          Option.map_some]
      · have hnot : ¬ key.text ++ [61] <:+: p.text := fun hoccurs =>
          htaken ((taken_iff key p).mpr ((p.found_iff key).mp hoccurs))
        rw [List.find?_cons_of_neg (by simpa using hnot), List.find?_cons_of_neg htaken, ih]
    | flag w word noEquals =>
      have hpairs : pairs (.flag w word noEquals :: args) = pairs args := rfl
      have hnot : ¬ key.text ++ [61] <:+: w := fun hoccurs =>
        noEquals (hoccurs.subset (by simp))
      rw [List.map_cons, hpairs, Arg.text, List.find?_cons_of_neg (by simpa using hnot), ih]

theorem akReadPair_eq (args : List Arg) (key : Key) (defVal : List UInt8) :
    akReadPair (otherArgs args) key.text defVal =
      (((pairs args).find? (taken key)).map Pair.line).getD (defaultLine key defVal) := by
  rw [akReadPair, find_words]
  cases (pairs args).find? (taken key) with
  | none => rfl
  | some p => simp only [Option.map_some, p.shown, Option.getD_some]

theorem taken_of_ne {key : Key} (h : key ≠ .retry) : taken key = fun p => decide (p.key = key) := by
  funext p
  simp [taken, h]

theorem defaultLine_head (key : Key) (defVal : List UInt8) :
    (defaultLine key defVal).head? = key.text.head? ∨ (defaultLine key defVal).head? = some 35 := by
  have hne := key.text_bytes.1
  rw [defaultLine]
  split
  · exact .inl (List.head?_append_of_ne_nil _ hne)
  · exact .inr rfl

/- The first byte tells the two keywords apart. -/
theorem head_meant_retry (args : List Arg) (defVal : List UInt8) :
    (meant args .retry defVal).head? = some 114 ∨ (meant args .retry defVal).head? = some 35 := by
  rw [meant]
  cases hfind : (pairs args).find? (·.key = Key.retry) with
  | none => exact defaultLine_head .retry defVal
  | some p =>
    have hkey : p.key = .retry := by simpa using List.find?_some hfind
    rw [Option.map_some, Option.getD_some, Pair.line, hkey]
    exact .inl rfl

/- What is found first among more is found first among less, if it is there. -/
theorem find_of_imp {α : Type} {P Q : α → Bool} (h : ∀ x, P x = true → Q x = true) {xs : List α}
    {x : α} (hx : xs.find? Q = some x) (hP : P x = true) : xs.find? P = some x := by
  rw [List.find?_eq_some_iff_append] at hx ⊢
  obtain ⟨-, before, behind, hxs, hbefore⟩ := hx
  refine ⟨hP, before, behind, hxs, fun y hy => ?_⟩
  have hnot := hbefore y hy
  rw [Bool.not_eq_true', Bool.eq_false_iff] at hnot ⊢
  exact fun hy => hnot (h y hy)

theorem find_none_of_imp {α : Type} {P Q : α → Bool} (h : ∀ x, P x = true → Q x = true)
    {xs : List α} (hxs : xs.find? Q = none) : xs.find? P = none := by
  rw [List.find?_eq_none] at hxs ⊢
  exact fun x hx hP => hxs x hx (h x hP)

theorem akReadPair_retry (args : List Arg) (defVal : List UInt8) :
    akReadPair (otherArgs args) Key.retry.text defVal = meant args .retry defVal ↔
      ¬ ∃ p ∈ (pairs args).find? (taken .retry), p.key = .delayBeforeRetry := by
  have himp : ∀ p : Pair, decide (p.key = .retry) = true → taken .retry p = true := by
    intro p hp
    exact (taken_iff _ p).mpr (.inl (of_decide_eq_true hp))
  rw [akReadPair_eq]
  cases hfind : (pairs args).find? (taken .retry) with
  | none =>
    rw [meant, find_none_of_imp himp hfind]
    simp
  | some p =>
    rcases (taken_iff _ p).mp (List.find?_some hfind) with hkey | ⟨-, hkey⟩
    · rw [meant, find_of_imp himp hfind (decide_eq_true hkey)]
      simp [hkey]
    · refine iff_of_false (fun heq => ?_) (fun hnot => hnot ⟨p, rfl, hkey⟩)
      have hhead := head_meant_retry args defVal
      rw [← heq, Option.map_some, Option.getD_some, Pair.line, hkey] at hhead
      simp [Key.text] at hhead

/- No other keyword's line starts with `retry`. -/
theorem not_retry_line (args : List Arg) {key : Key} (hkey : key ≠ .retry) (defVal : List UInt8) :
    ¬ Key.retry.text <+: akReadPair (otherArgs args) key.text defVal := by
  have hkeyHead : key.text.head? ≠ some 114 := by
    cases key with
    | retry => exact absurd rfl hkey
    | _ => decide
  have hhead : (akReadPair (otherArgs args) key.text defVal).head? = key.text.head? ∨
      (akReadPair (otherArgs args) key.text defVal).head? = some 35 := by
    rw [akReadPair_eq, taken_of_ne hkey]
    cases hfind : (pairs args).find? fun p => decide (p.key = key) with
    | none => exact defaultLine_head key defVal
    | some p =>
      have hp : p.key = key := by simpa using List.find?_some hfind
      rw [Option.map_some, Option.getD_some, Pair.line, hp]
      exact .inl (List.head?_append_of_ne_nil _ key.text_bytes.1)
  intro hprefix
  obtain ⟨rest, hrest⟩ := hprefix
  rw [← hrest] at hhead
  rcases hhead with hhead | hhead
  · exact hkeyHead hhead.symm
  · cases hhead

/- Where a value for `delay_before_retry` comes first, both keywords get its line. -/
theorem akReadPair_delay_first {args : List Arg} {p : Pair}
    (hp : (pairs args).find? (taken .retry) = some p) (hkey : p.key = .delayBeforeRetry)
    (defVal : List UInt8) :
    akReadPair (otherArgs args) Key.delayBeforeRetry.text defVal = p.line ∧
      akReadPair (otherArgs args) Key.retry.text defVal = p.line := by
  have hdelay : (pairs args).find? (taken .delayBeforeRetry) = some p := by
    refine find_of_imp (fun q hq => ?_) hp ((taken_iff _ p).mpr (.inl hkey))
    rw [taken_iff] at hq ⊢
    exact .inr ⟨rfl, hq.resolve_right (by simp)⟩
  rw [akReadPair_eq, akReadPair_eq, hdelay, hp]
  exact ⟨rfl, rfl⟩

/-- A keyword gets the first value given for it, unless it is `retry` and one for
`delay_before_retry` comes first: then its line is that of the other keyword, which is there
twice among the arguments of a checker, and no line is for `retry`. -/
theorem values_found_iff (args : List Arg) (key : Key) (defVal : List UInt8) :
    (akReadPair (otherArgs args) key.text defVal = meant args key defVal ↔
      ¬ (key = .retry ∧ ∃ p ∈ (pairs args).find? (taken .retry), p.key = .delayBeforeRetry)) ∧
    ∀ p ∈ (pairs args).find? (taken .retry), p.key = .delayBeforeRetry →
      ∀ hcPort random, (hcArgs (otherArgs args) hcPort random)[2]? = some p.line ∧
        (hcArgs (otherArgs args) hcPort random)[3]? = some p.line ∧
        ∀ line ∈ hcArgs (otherArgs args) hcPort random, ¬ Key.retry.text <+: line := by
  refine ⟨?_, fun p hp hkey hcPort random => ?_⟩
  · by_cases hretry : key = .retry
    · subst hretry
      rw [akReadPair_retry]
      simp
    · rw [akReadPair_eq, taken_of_ne hretry]
      exact iff_of_true rfl fun h => hretry h.1
  · have hline := fun defVal => (akReadPair_delay_first hp hkey defVal).1
    have hretry := fun defVal => (akReadPair_delay_first hp hkey defVal).2
    have hnot : ¬ Key.retry.text <+: p.line := by
      rw [← hline []]
      exact not_retry_line args (by decide) []
    refine ⟨congrArg some (hline _), congrArg some (hretry _), fun line hmem => ?_⟩
    simp only [hcArgs, List.mem_cons, List.not_mem_nil, or_false, hline, hretry] at hmem
    rcases hmem with rfl | rfl | rfl | rfl | rfl
    · intro hprefix
      simp [Key.text] at hprefix
    · exact not_retry_line args (by decide) _
    · exact hnot
    · exact hnot
    · exact not_retry_line args (by decide) _

/-! ### Ranges of addresses (`1173.sh:143-152`) -/

/- `printf %.5d`. -/
def fiveDigits (z : ℤ) : List UInt8 :=
  if z < 0 then 45 :: zeroPadded 5 z.natAbs else zeroPadded 5 z.natAbs

structure Naming where
  confDir : List UInt8
  proto : List UInt8
  vipPort : List UInt8
  lbKind : List UInt8
  hcType : List UInt8
  hcPort : List UInt8

/- The name ends in `.conf`. -/
def Naming.tmpConf (c : Naming) (nv : ℤ) (vip : List UInt8) : List UInt8 :=
  c.confDir ++ 47 :: (fiveDigits nv ++ 95 :: (c.proto ++ 95 :: (vip ++ 95 :: (c.vipPort ++
    95 :: (c.lbKind ++ 95 :: (c.hcType ++ 95 :: (c.hcPort ++ [46, 99, 111, 110, 102])))))))

/- The files and the addresses they are for; each file is written by a job of its own. -/
def akStsConf (c : Naming) (vipStart : ℤ) (num : ℕ) (vipNet : List UInt8) :
    List (List UInt8 × List UInt8) :=
  (List.range num).map fun (k : ℕ) =>
    (c.tmpConf (vipStart + k) (numToIp (vipStart + k) vipNet), numToIp (vipStart + k) vipNet)

theorem fiveDigits_bytes (z : ℤ) : 95 ∉ fiveDigits z := by
  have hpadded := not_mem_zeroPadded (show isdigit 95 = false by decide) 5 z.natAbs
  rw [fiveDigits]
  split
  · rw [List.mem_cons, not_or]
    exact ⟨by decide, hpadded⟩
  · exact hpadded

theorem fiveDigits_inj {y z : ℤ} (h : fiveDigits y = fiveDigits z) : y = z := by
  have hminus : ∀ n, (zeroPadded 5 n).head? ≠ some 45 := by
    intro n hhead
    exact not_mem_zeroPadded (by decide) 5 n (List.mem_of_mem_head? hhead)
  have hhead := congrArg List.head? h
  unfold fiveDigits at h hhead
  split at h <;> split at h
  · have hnum := zeroPadded_inj (List.cons.inj h).2
    omega
  · rw [if_pos ‹y < 0›, if_neg ‹¬ z < 0›] at hhead
    exact absurd hhead.symm (hminus _)
  · rw [if_neg ‹¬ y < 0›, if_pos ‹z < 0›] at hhead
    exact absurd hhead (hminus _)
  · have hnum := zeroPadded_inj h
    omega

theorem Naming.tmpConf_inj (c : Naming) {y z : ℤ} {vip vip' : List UInt8}
    (h : c.tmpConf y vip = c.tmpConf z vip') : y = z := by
  have hbehind := (List.cons.inj (List.append_cancel_left h)).2
  exact fiveDigits_inj (append_cons_inj (fiveDigits_bytes y) (fiveDigits_bytes z) hbehind).1

theorem akStsConf_getElem {c : Naming} {start : ℤ} {num k : ℕ} (hk : k < num) (net : List UInt8) :
    ((akStsConf c start num net).map Prod.snd)[k]? = some (numToIp (start + k) net) := by
  rw [akStsConf, List.map_map, List.getElem?_map, List.getElem?_range hk]
  rfl

theorem nodup_akStsConf (c : Naming) (start : ℤ) (num : ℕ) (net : List UInt8) :
    ((akStsConf c start num net).map Prod.fst).Nodup := by
  rw [akStsConf, List.map_map]
  refine List.nodup_range.map_on ?_
  intro j _ k _ heq
  have hnum := c.tmpConf_inj heq
  omega

theorem V4.ipToNum_text (x : V4) : ipToNum x.text = some (((x.c : ℤ) - 1) * 256 + x.d) := by
  rw [x.text_eq, ipToNum_dotted x.net_bytes.2]

theorem V6.ipToNum_text (x : V6) : ipToNum x.text = some (((x.h : ℤ) - 1) * 65536 + x.l) := by
  obtain ⟨-, hh, hl⟩ := x.words
  rw [V6.text, ipToNum_groups, printfD_hexNumeral (n := x.h) (by omega),
    printfD_hexNumeral (n := x.l) (by omega)]

/-- No two jobs write one file. The address of the k-th is the k-th behind the one given, except
where the third part of it is 0 and the last is not, and where the same is so of the last two
groups. -/
theorem range_addresses (c : Naming) (num k : ℕ) (hk : k < num) :
    (∀ start net, ((akStsConf c start num net).map Prod.fst).Nodup) ∧
    (∀ x y : V4, y.a = x.a → y.b = x.b → y.c * 256 + y.d = x.c * 256 + x.d + k →
      ∃ start, ipToNum x.text = some start ∧
        (((akStsConf c start num (netOf x.text)).map Prod.snd)[k]? = some y.text ↔
          y.c ≠ 0 ∨ y.d = 0)) ∧
    ∀ x y : V6, y.groups = x.groups → y.h * 65536 + y.l = x.h * 65536 + x.l + k →
      ∃ start, ipToNum x.text = some start ∧
        (((akStsConf c start num (netOf x.text)).map Prod.snd)[k]? = some y.text ↔
          y.h ≠ 0 ∨ y.l = 0) := by
  refine ⟨fun start net => nodup_akStsConf c start num net, ?_, ?_⟩
  · intro x y ha hb hy
    have hnet : netOf x.text = netOf y.text := by
      rw [x.netOf_text, y.netOf_text, V4.net, V4.net, ha, hb]
    have hback := y.numToIp_ipToNum
    rw [y.ipToNum_text, Option.map_some, Option.some.injEq] at hback
    refine ⟨_, x.ipToNum_text, ?_⟩
    have hnum : ((x.c : ℤ) - 1) * 256 + x.d + k = ((y.c : ℤ) - 1) * 256 + y.d := by omega
    rw [akStsConf_getElem hk, hnum, hnet, Option.some.injEq]
    exact hback
  · intro x y hgroups hy
    have hnet : netOf x.text = netOf y.text := by
      rw [x.netOf_text, y.netOf_text, V6.net, V6.net, hgroups]
    have hback := y.numToIp_ipToNum
    rw [y.ipToNum_text, Option.map_some, Option.some.injEq] at hback
    refine ⟨_, x.ipToNum_text, ?_⟩
    have hnum : ((x.h : ℤ) - 1) * 65536 + x.l + k = ((y.h : ℤ) - 1) * 65536 + y.l := by omega
    rw [akStsConf_getElem hk, hnum, hnet, Option.some.injEq]
    exact hback

/- 22.22.1.255, and the second address behind it. -/
def lastOfNet : V4 := ⟨22, 22, 1, 255, by decide⟩

def secondOfNext : V4 := ⟨22, 22, 2, 1, by decide⟩

theorem range_addresses_carry :
    ∃ start, ipToNum lastOfNet.text = some start ∧
      ((akStsConf ⟨[46], [], [], [], [], []⟩ start 3 (netOf lastOfNet.text)).map Prod.snd)[2]? =
        some secondOfNext.text := by
  obtain ⟨start, hstart, hiff⟩ := (range_addresses ⟨[46], [], [], [], [], []⟩ 3 2 (by decide)).2.1
    lastOfNet secondOfNext rfl rfl (by decide)
  exact ⟨start, hstart, hiff.mpr (.inl (by decide))⟩

end KeepalivedDevel.Script1173
