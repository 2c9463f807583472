import KeepalivedDevel.CLib.Text
import KeepalivedDevel.ShLib.Words
import Mathlib.Data.List.Chain

/-!
# The interfaces of `configs/barak_adam3a.sh`

The script makes keepalived reload with ever fewer interfaces and then with ever more.
Before each reload it writes the configuration and then creates or deletes the
interfaces that have come or gone since the one before.
-/

namespace KeepalivedDevel.BarakAdam
open CLib ShLib

/- The variables set at the top. -/
structure Settings where
  ifPrefix : List UInt8
  digits : ℕ
  scriptType : ℕ
  vrrpPerIf : ℕ
  totalIf : ℕ

variable (p : Settings)

def ifName (i : ℕ) : List UInt8 := p.ifPrefix ++ zeroPadded p.digits i

/-! ### `write_config` (`barak_adam3a.sh:23-76`) -/

/-- A `vrrp_instance`, with the last two bytes of its address. -/
structure Instance where
  name : List UInt8
  interface : List UInt8
  virtualRouterId : ℕ
  net : ℕ
  ip : ℕ
  priority : ℕ
  notify : List UInt8
  deriving DecidableEq

-- VI_
def instanceName (i j : ℕ) : List UInt8 :=
  [86, 73, 95] ++ ifName p i ++ 95 :: numeral (i * p.vrrpPerIf + j + 1)

def script (i j : ℕ) : List UInt8 :=
  if p.scriptType = 1 then
    34 :: ("/home/quentin/keepalived/utils/configs/scripts/vs.sh ".toUTF8.toList ++
      instanceName p i j ++ [34])
  else "/usr/local/nbase/sbin/svrrp_notify".toUTF8.toList

def vrrpInstance (i j : ℕ) : Instance where
  name := instanceName p i j
  interface := ifName p i
  virtualRouterId := i * p.vrrpPerIf + j + 1
  net := i + 1
  ip := if i ≤ 6 then i * p.vrrpPerIf + j + 3 else j + 1
  priority := if i = 0 ∧ j = 1 then 101 else if i = 0 ∧ j = 0 then 99 else 100
  notify := script p i j

def config (numIf : ℕ) : List Instance :=
  (seqTo (p.totalIf - numIf) p.totalIf).flatMap fun i =>
    (seqTo 0 p.vrrpPerIf).map fun j => vrrpInstance p i j

/-! ### `make_ifs` (`barak_adam3a.sh:78-111`) -/

structure Link where
  name : List UInt8
  address : List UInt8
  deriving DecidableEq

-- 1.1.1.2
def link (i : ℕ) : Link := ⟨ifName p i, [49, 46, 49, 46, 49, 46, 50] ++ zeroPadded 2 i⟩

/-- The links of namespace `low`, the file `/tmp/vif.conf`, and the number of `ip` commands
that have failed. -/
structure State where
  links : List Link
  curIfs : ℕ
  vifConf : List Instance
  failed : ℕ

def mkIf (s : State) (i : ℕ) : State :=
  if ifName p i ∈ s.links.map Link.name then { s with failed := s.failed + 1 }
  else { s with links := s.links ++ [link p i] }

def delIf (s : State) (i : ℕ) : State :=
  if ifName p i ∈ s.links.map Link.name then
    { s with links := s.links.filter fun l => l.name ≠ ifName p i }
  else { s with failed := s.failed + 1 }

def makeIfs (s : State) (numIf : ℕ) : State :=
  let t :=
    if numIf > s.curIfs then
      (seqTo (p.totalIf - numIf) (p.totalIf - s.curIfs)).foldl (mkIf p) s
    else if numIf < s.curIfs then
      (seqTo (p.totalIf - s.curIfs) (p.totalIf - numIf)).foldl (delIf p) s
    else s
  { t with curIfs := numIf }

def writeConfig (s : State) (numIf : ℕ) : State := { s with vifConf := config p numIf }

/-- What is done before keepalived is told to reload. -/
def change (s : State) (numIf : ℕ) : State := makeIfs p (writeConfig p s numIf) numIf

/- One round of the loop (`barak_adam3a.sh:120-150`), and the first rounds of it. -/
def round : List ℕ := (seqTo 0 p.totalIf).reverse ++ seqTo 1 (p.totalIf + 1)

def rounds (r : ℕ) : List ℕ := (List.replicate r (round p)).flatten

/-! ### Names -/

theorem ifName_inj {i k : ℕ} (h : ifName p i = ifName p k) : i = k :=
  zeroPadded_inj (List.append_cancel_left h)

theorem ifName_mem_iff {i : ℕ} {is : List ℕ} :
    ifName p i ∈ (is.map (link p)).map Link.name ↔ i ∈ is := by
  rw [List.map_map, List.mem_map]
  constructor
  · rintro ⟨k, hk, hname⟩
    exact ifName_inj p hname ▸ hk
  · intro hi
    exact ⟨i, hi, rfl⟩

/-! ### The links that are there -/

/-- The links are those of the interfaces `is`, and no command has failed. -/
structure State.Has (s : State) (is : List ℕ) : Prop where
  links : s.links.Perm (is.map (link p))
  failed : s.failed = 0

variable {p}

theorem State.Has.mem_names {s : State} {is : List ℕ} (h : s.Has p is) (i : ℕ) :
    ifName p i ∈ s.links.map Link.name ↔ i ∈ is := by
  rw [(h.links.map Link.name).mem_iff, ifName_mem_iff]

theorem State.Has.perm {s : State} {is ks : List ℕ} (h : s.Has p is) (hperm : is.Perm ks) :
    s.Has p ks :=
  ⟨h.links.trans (hperm.map _), h.failed⟩

theorem State.Has.mkIf {s : State} {is : List ℕ} (h : s.Has p is) {i : ℕ} (hi : i ∉ is) :
    (mkIf p s i).Has p (is ++ [i]) := by
  rw [BarakAdam.mkIf, if_neg (mt (h.mem_names i).mp hi)]
  refine ⟨?_, h.failed⟩
  rw [List.map_append]
  exact h.links.append_right _

theorem State.Has.delIf {s : State} {i : ℕ} {is : List ℕ} (h : s.Has p (i :: is)) (hi : i ∉ is) :
    (delIf p s i).Has p is := by
  rw [BarakAdam.delIf, if_pos ((h.mem_names i).mpr List.mem_cons_self)]
  refine ⟨(h.links.filter _).trans ?_, h.failed⟩
  have hothers : ∀ l ∈ is.map (link p), decide (l.name ≠ ifName p i) = true := by
    intro l hl
    obtain ⟨k, hk, rfl⟩ := List.mem_map.mp hl
    rw [decide_eq_true_eq]
    exact fun hname => hi (ifName_inj p hname ▸ hk)
  rw [List.map_cons, List.filter_cons_of_neg (by simp [link]), List.filter_eq_self.mpr hothers]

theorem State.Has.mkIfs {s : State} {is ks : List ℕ} (h : s.Has p is) (hnd : (is ++ ks).Nodup) :
    (ks.foldl (BarakAdam.mkIf p) s).Has p (is ++ ks) := by
  induction ks generalizing s is with
  | nil => rwa [List.append_nil]
  | cons k ks ih =>
    have hk : k ∉ is := fun hmem => (List.disjoint_of_nodup_append hnd) hmem List.mem_cons_self
    have hnext : (is ++ [k] ++ ks).Nodup := by simpa using hnd
    have hrest := ih (h.mkIf hk) hnext
    rwa [List.append_assoc, List.singleton_append] at hrest

theorem State.Has.delIfs {s : State} {is ks : List ℕ} (h : s.Has p (ks ++ is))
    (hnd : (ks ++ is).Nodup) : (ks.foldl (BarakAdam.delIf p) s).Has p is := by
  induction ks generalizing s with
  | nil => exact h
  | cons k ks ih =>
    rw [List.cons_append, List.nodup_cons] at hnd
    exact ih (h.delIf hnd.1) hnd.2

theorem foldl_vifConf {f : State → ℕ → State} (hf : ∀ s i, (f s i).vifConf = s.vifConf) (s : State)
    (ks : List ℕ) : (ks.foldl f s).vifConf = s.vifConf := by
  induction ks generalizing s with
  | nil => rfl
  | cons k ks ih => rw [List.foldl_cons, ih, hf]

theorem vifConf_makeIfs (s : State) (numIf : ℕ) : (makeIfs p s numIf).vifConf = s.vifConf := by
  have hmk : ∀ s i, (mkIf p s i).vifConf = s.vifConf := by
    intro s i
    rw [mkIf]
    split <;> rfl
  have hdel : ∀ s i, (delIf p s i).vifConf = s.vifConf := by
    intro s i
    rw [delIf]
    split <;> rfl
  simp only [makeIfs]
  split
  · exact foldl_vifConf hmk s _
  · split
    · exact foldl_vifConf hdel s _
    · rfl

variable (p)

/-- The interfaces that are there are the last `curIfs` ones. -/
structure State.Ready (s : State) : Prop where
  le : s.curIfs ≤ p.totalIf
  has : s.Has p (seqTo (p.totalIf - s.curIfs) p.totalIf)

variable {p}

/- Which interfaces come or go is decided by the two numbers alone. -/
theorem State.Ready.makeIfs {s : State} (h : s.Ready p) {n : ℕ} (hn : n ≤ p.totalIf) :
    (makeIfs p s n).Ready p := by
  have hle := h.le
  refine ⟨hn, ?_⟩
  suffices hhas : (BarakAdam.makeIfs p s n).Has p (seqTo (p.totalIf - n) p.totalIf) from hhas
  rw [BarakAdam.makeIfs]
  rcases Nat.lt_trichotomy n s.curIfs with hlt | heq | hgt
  · have hsplit := seqTo_append (a := p.totalIf - s.curIfs) (b := p.totalIf - n) (c := p.totalIf)
      (by omega) (by omega)
    have hhas := h.has
    rw [← hsplit] at hhas
    have hdel := hhas.delIfs (hsplit ▸ nodup_seqTo _ _)
    rw [if_neg (by omega), if_pos hlt]
    exact ⟨hdel.links, hdel.failed⟩
  · rw [if_neg (by omega), if_neg (by omega), heq]
    exact ⟨h.has.links, h.has.failed⟩
  · have hsplit := seqTo_append (a := p.totalIf - n) (b := p.totalIf - s.curIfs) (c := p.totalIf)
      (by omega) (by omega)
    have hnd : (seqTo (p.totalIf - n) (p.totalIf - s.curIfs) ++
        seqTo (p.totalIf - s.curIfs) p.totalIf).Nodup := hsplit ▸ nodup_seqTo _ _
    have hmk := (h.has.mkIfs (List.nodup_append_comm.mp hnd)).perm List.perm_append_comm
    rw [hsplit] at hmk
    rw [if_pos hgt]
    exact ⟨hmk.links, hmk.failed⟩

theorem State.Ready.change {s : State} (h : s.Ready p) {n : ℕ} (hn : n ≤ p.totalIf) :
    (change p s n).Ready p := by
  have hwritten : (writeConfig p s n).Ready p := ⟨h.le, h.has.links, h.has.failed⟩
  exact hwritten.makeIfs hn

theorem State.Ready.run {s : State} (h : s.Ready p) {nums : List ℕ}
    (hnums : ∀ n ∈ nums, n ≤ p.totalIf) : (nums.foldl (BarakAdam.change p) s).Ready p := by
  induction nums generalizing s with
  | nil => exact h
  | cons n nums ih =>
    obtain ⟨hn, hrest⟩ := List.forall_mem_cons.mp hnums
    exact ih (h.change hn) hrest

theorem interface_mem_config {n : ℕ} (hper : 0 < p.vrrpPerIf) (name : List UInt8) :
    name ∈ (config p n).map Instance.interface ↔
      ∃ i ∈ seqTo (p.totalIf - n) p.totalIf, ifName p i = name := by
  simp only [config, List.mem_map, List.mem_flatMap]
  constructor
  · rintro ⟨_, ⟨i, hi, j, -, rfl⟩, rfl⟩
    exact ⟨i, hi, rfl⟩
  · rintro ⟨i, hi, rfl⟩
    exact ⟨vrrpInstance p i 0, ⟨i, hi, 0, mem_seqTo.mpr ⟨Nat.le_refl 0, hper⟩, rfl⟩, rfl⟩

theorem curIfs_change (s : State) (n : ℕ) : (change p s n).curIfs = n := rfl

theorem vifConf_change (s : State) (n : ℕ) : (change p s n).vifConf = config p n := by
  rw [change, vifConf_makeIfs, writeConfig]

/-- Whatever numbers it is taken through, at each reload the interfaces named in the
configuration are exactly those that there are, and no interface has been created that
was there or deleted that was not. -/
theorem reload_finds_interfaces (p : Settings) (hper : 0 < p.vrrpPerIf) (s : State)
    (hs : s.Ready p) (nums : List ℕ) (n : ℕ) (hnums : ∀ m ∈ nums ++ [n], m ≤ p.totalIf) :
    let t := (nums ++ [n]).foldl (change p) s
    t.failed = 0 ∧ t.links.Perm ((seqTo (p.totalIf - n) p.totalIf).map (link p)) ∧
      ∀ name, name ∈ t.vifConf.map Instance.interface ↔ name ∈ t.links.map Link.name := by
  intro t
  have hstep : t = change p (nums.foldl (change p) s) n := List.foldl_concat ..
  have hhas : t.Has p (seqTo (p.totalIf - t.curIfs) p.totalIf) := (hs.run hnums).has
  rw [hstep, curIfs_change, ← hstep] at hhas
  refine ⟨hhas.failed, hhas.links, fun name => ?_⟩
  rw [hstep, vifConf_change, ← hstep, interface_mem_config hper,
    (hhas.links.map Link.name).mem_iff, List.map_map, List.mem_map]
  rfl

/- The settings of the script, with all interfaces there. -/
def settings : Settings := ⟨[118, 105, 102, 49], 2, 1, 1, 2⟩

def started : State := ⟨[link settings 0, link settings 1], 2, [], 0⟩

theorem ready_started : started.Ready settings := ⟨Nat.le_refl 2, .refl _, rfl⟩

theorem reload_finds_interfaces_started :
    ([1, 0, 1].foldl (change settings) started).failed = 0 :=
  (reload_finds_interfaces settings (by decide) started ready_started [1, 0] 1 (by decide)).1

/-! ### The rounds -/

theorem seqTo_succ {n : ℕ} (hn : n < p.totalIf) :
    seqTo (p.totalIf - (n + 1)) p.totalIf =
      (p.totalIf - (n + 1)) :: seqTo (p.totalIf - n) p.totalIf := by
  rw [← seqTo_append (a := p.totalIf - (n + 1)) (b := p.totalIf - n) (by omega) (by omega)]
  have hone : p.totalIf - n - (p.totalIf - (n + 1)) = 1 := by omega
  rw [seqTo, hone]
  rfl

theorem config_succ {n : ℕ} (hn : n < p.totalIf) :
    config p (n + 1) =
      (seqTo 0 p.vrrpPerIf).map (vrrpInstance p (p.totalIf - (n + 1))) ++ config p n := by
  rw [config, seqTo_succ hn, List.flatMap_cons, config]

theorem round_le {n : ℕ} (h : n ∈ round p) : n ≤ p.totalIf := by
  simp only [round, List.mem_append, List.mem_reverse, mem_seqTo] at h
  omega

theorem rounds_le {r n : ℕ} (h : n ∈ rounds p r) : n ≤ p.totalIf := by
  rw [rounds, List.mem_flatten] at h
  obtain ⟨l, hl, hn⟩ := h
  exact round_le ((List.mem_replicate.mp hl).2 ▸ hn)

def Adjacent (a b : ℕ) : Prop := b = a + 1 ∨ a = b + 1

/- A round goes down to 0 and back to where it started from. -/
theorem round_chain : (p.totalIf :: round p).IsChain Adjacent := by
  have hdown : p.totalIf :: (seqTo 0 p.totalIf).reverse =
      (List.range' 0 (p.totalIf + 1)).reverse := by
    rw [List.range'_concat, List.reverse_append, seqTo]
    simp
  have hchain : (List.range' 0 (p.totalIf + 1)).reverse.IsChain Adjacent := by
    rw [List.isChain_reverse]
    exact (List.isChain_range' 0 _ 1).imp fun a b hab => .inr hab
  rw [round, ← List.cons_append, hdown, List.isChain_append]
  refine ⟨hchain, (List.isChain_range' 1 _ 1).imp fun a b hab => .inl hab, ?_⟩
  intro a ha b hb
  rw [List.getLast?_reverse, List.head?_range'] at ha
  rw [seqTo, List.head?_range'] at hb
  split at hb
  · cases hb
  · simp only [Nat.add_eq_zero_iff, one_ne_zero, and_false, ite_false, Option.mem_some_iff] at ha hb
    exact .inl (by omega)

theorem round_last (a : ℕ) (h : a ∈ (p.totalIf :: round p).getLast?) : a = p.totalIf := by
  rw [round, ← List.cons_append, List.getLast?_append, seqTo, List.getLast?_range'] at h
  by_cases hzero : p.totalIf = 0
  · simp [seqTo, hzero] at h
    omega
  · rw [if_neg (by omega)] at h
    simp at h
    omega

theorem rounds_chain (r : ℕ) : (p.totalIf :: rounds p r).IsChain Adjacent := by
  induction r with
  | zero => exact .singleton _
  | succ r ih =>
    have hrounds : rounds p (r + 1) = round p ++ rounds p r := by
      rw [rounds, List.replicate_succ, List.flatten_cons, rounds]
    rw [hrounds, ← List.cons_append, List.isChain_append]
    refine ⟨round_chain, ih.tail, ?_⟩
    intro a ha b hb
    rw [round_last a ha]
    cases hrest : rounds p r with
    | nil =>
      rw [hrest] at hb
      cases hb
    | cons c rest =>
      rw [hrest] at hb ih
      exact Option.some.inj hb ▸ (List.isChain_cons_cons.mp ih).1

/-- Between two reloads of the loop one interface is created or deleted, and its instances
are put in front of a configuration that otherwise stays as it is, or taken away there. -/
theorem one_interface_at_a_time (p : Settings) (s : State) (hs : s.Ready p) (r : ℕ)
    (us : List ℕ) (a b : ℕ) (vs : List ℕ) (hrounds : rounds p r = us ++ a :: b :: vs) :
    let t := (us ++ [a]).foldl (change p) s
    let u := change p t b
    ∃ i < p.totalIf,
      (u.links.Perm (link p i :: t.links) ∧
        u.vifConf = (seqTo 0 p.vrrpPerIf).map (vrrpInstance p i) ++ t.vifConf) ∨
      (t.links.Perm (link p i :: u.links) ∧
        t.vifConf = (seqTo 0 p.vrrpPerIf).map (vrrpInstance p i) ++ u.vifConf) := by
  intro t u
  have hmem : ∀ m, m ∈ us ++ a :: b :: vs → m ≤ p.totalIf := fun m hm => rounds_le (hrounds ▸ hm)
  have ha : a ≤ p.totalIf := hmem a (by simp)
  have hb : b ≤ p.totalIf := hmem b (by simp)
  have ht : t.Ready p := hs.run fun m hm => by
    refine hmem m ?_
    simp only [List.mem_append, List.mem_cons] at hm ⊢
    tauto
  have hstep : t = change p (us.foldl (change p) s) a := List.foldl_concat ..
  have hat : t.curIfs = a := by rw [hstep, curIfs_change]
  have hta : t.vifConf = config p a := by rw [hstep, vifConf_change]
  have hub : u.vifConf = config p b := vifConf_change t b
  have htl : t.links.Perm ((seqTo (p.totalIf - a) p.totalIf).map (link p)) := hat ▸ ht.has.links
  have hul : u.links.Perm ((seqTo (p.totalIf - b) p.totalIf).map (link p)) :=
    (ht.change hb).has.links
  have hadjacent : Adjacent a b := by
    have hchain := (rounds_chain (p := p) r).tail
    rw [List.tail_cons, hrounds] at hchain
    exact (List.isChain_cons_cons.mp hchain.right_of_append).1
  rw [hta, hub]
  rcases hadjacent with rfl | rfl
  · refine ⟨p.totalIf - (a + 1), by omega, .inl ⟨?_, config_succ (by omega)⟩⟩
    rw [seqTo_succ (by omega), List.map_cons] at hul
    exact hul.trans (htl.symm.cons _)
  · refine ⟨p.totalIf - (b + 1), by omega, .inr ⟨?_, config_succ (by omega)⟩⟩
    rw [seqTo_succ (by omega), List.map_cons] at htl
    exact htl.trans (hul.symm.cons _)

theorem one_interface_at_a_time_started :
    ∃ i < 2, (([1, 0].foldl (change settings) started).links.Perm
        (link settings i :: ([1].foldl (change settings) started).links) ∧
          ([1, 0].foldl (change settings) started).vifConf =
            (seqTo 0 1).map (vrrpInstance settings i) ++
              ([1].foldl (change settings) started).vifConf) ∨
      (([1].foldl (change settings) started).links.Perm
        (link settings i :: ([1, 0].foldl (change settings) started).links) ∧
          ([1].foldl (change settings) started).vifConf =
            (seqTo 0 1).map (vrrpInstance settings i) ++
              ([1, 0].foldl (change settings) started).vifConf) :=
  one_interface_at_a_time settings started ready_started 1 [] 1 0 [1, 2] (by decide)

/-! ### The instances -/

theorem virtualRouterId_inj {i j k l : ℕ} (hj : j < p.vrrpPerIf) (hl : l < p.vrrpPerIf)
    (h : i * p.vrrpPerIf + j = k * p.vrrpPerIf + l) : i = k ∧ j = l := by
  have hdiv := congrArg (· / p.vrrpPerIf) h
  have hper : 0 < p.vrrpPerIf := by omega
  simp only [Nat.mul_comm _ p.vrrpPerIf, Nat.mul_add_div hper, Nat.div_eq_of_lt hj,
    Nat.div_eq_of_lt hl, Nat.add_zero] at hdiv
  subst hdiv
  exact ⟨rfl, by omega⟩

/- The number of the router is what is behind the last underscore. -/
theorem instanceName_inj {i j k l : ℕ} (h : instanceName p i j = instanceName p k l) :
    i * p.vrrpPerIf + j = k * p.vrrpPerIf + l := by
  have hreverse := congrArg List.reverse h
  simp only [instanceName, List.reverse_append, List.reverse_cons, List.append_assoc,
    List.singleton_append] at hreverse
  have hnumeral : ∀ n, (95 : UInt8) ∉ (numeral n).reverse := fun n hmem =>
    not_mem_numeral (by decide) n (List.mem_reverse.mp hmem)
  have hdigits := (append_cons_inj (hnumeral _) (hnumeral _) hreverse).1
  have hnum := numeral_inj (List.reverse_injective hdigits)
  omega

theorem nodup_config_map {α : Type} {key : Instance → α}
    (hkey : ∀ i j k l, j < p.vrrpPerIf → l < p.vrrpPerIf →
      key (vrrpInstance p i j) = key (vrrpInstance p k l) → i = k ∧ j = l) (n : ℕ) :
    ((config p n).map key).Nodup := by
  rw [config, List.map_flatMap, List.nodup_flatMap]
  constructor
  · intro i _
    rw [List.map_map]
    refine (nodup_seqTo 0 _).map_on ?_
    intro j hj l hl heq
    exact (hkey i j i l (mem_seqTo.mp hj).2 (mem_seqTo.mp hl).2 heq).2
  · refine (nodup_seqTo _ _).imp ?_
    intro i k hne x hi hk
    simp only [List.mem_map, exists_exists_and_eq_and, mem_seqTo] at hi hk
    obtain ⟨j, hj, rfl⟩ := hi
    obtain ⟨l, hl, heq⟩ := hk
    exact hne (hkey i j k l hj.2 hl.2 heq.symm).1

theorem mem_config {n : ℕ} {x : Instance} (h : x ∈ config p n) :
    ∃ i < p.totalIf, ∃ j < p.vrrpPerIf, x = vrrpInstance p i j := by
  simp only [config, List.mem_flatMap, List.mem_map, mem_seqTo] at h
  obtain ⟨i, hi, j, hj, rfl⟩ := h
  exact ⟨i, hi.2, j, hj.2, rfl⟩

/-- No two instances of a configuration share a name, a router number or an address, and an
instance has the same settings in every configuration it is in. -/
theorem instances_told_apart (p : Settings) (n : ℕ) :
    ((config p n).map Instance.name).Nodup ∧
    ((config p n).map Instance.virtualRouterId).Nodup ∧
    ((config p n).map fun x => (x.net, x.ip)).Nodup ∧
    (∀ x ∈ config p n, 1 ≤ x.virtualRouterId ∧ x.virtualRouterId ≤ p.totalIf * p.vrrpPerIf) ∧
    ∀ m, ∀ x ∈ config p n, ∀ y ∈ config p m, x.name = y.name → x = y := by
  refine ⟨nodup_config_map ?_ n, nodup_config_map ?_ n, nodup_config_map ?_ n, ?_, ?_⟩
  · intro i j k l hj hl heq
    exact virtualRouterId_inj hj hl (instanceName_inj heq)
  · intro i j k l hj hl heq
    exact virtualRouterId_inj hj hl (Nat.succ.inj heq)
  · intro i j k l hj hl heq
    obtain ⟨hnet, hip⟩ := Prod.mk.inj heq
    obtain rfl : i = k := Nat.succ.inj hnet
    simp only [vrrpInstance] at hip
    split at hip
    · exact ⟨rfl, by omega⟩
    · exact ⟨rfl, by omega⟩
  · intro x hx
    obtain ⟨i, hi, j, hj, rfl⟩ := mem_config hx
    have hmul := Nat.mul_le_mul_right p.vrrpPerIf (Nat.succ_le_of_lt hi)
    rw [Nat.succ_mul] at hmul
    exact ⟨Nat.succ_le_succ (Nat.zero_le _), by simp only [vrrpInstance]; omega⟩
  · intro m x hx y hy hname
    obtain ⟨i, -, j, hj, rfl⟩ := mem_config hx
    obtain ⟨k, -, l, hl, rfl⟩ := mem_config hy
    obtain ⟨rfl, rfl⟩ := virtualRouterId_inj hj hl (instanceName_inj hname)
    rfl

end KeepalivedDevel.BarakAdam
