import KeepalivedDevel.DnsTest.Buffer
import Mathlib.Data.Nat.Find
import Mathlib.Data.Fintype.EquivFin

/-!
# The sockets of `code_test/dns_test.c`

In each round `main` makes one query on a socket that it keeps, bound to a fixed port, and
then some on sockets that are closed right after the query. There is no timeout: a query
whose reply never comes is the last one.
-/

namespace KeepalivedDevel.DnsTest
open CLib CLib.While

inductive Reply where
  | bytes (n : ℕ)
  | error
  | never
  deriving DecidableEq

/-- What the system does for one call of `do_query`. -/
structure Answers where
  random : UInt16
  socket : Bool
  bind : Bool
  sent : Bool
  reply : Reply

structure Socket where
  fd : ℕ
  port : ℤ
  deriving DecidableEq

/-- A call of `do_query`: the descriptor used, what is sent, and how many sockets there are. -/
structure Call where
  fd : ℤ
  query : List UInt8
  opened : ℕ

structure State where
  fd : ℤ
  iter : ℤ
  sockets : List Socket
  calls : List Call

theorem exists_unused (sockets : List Socket) : ∃ n, n ∉ sockets.map Socket.fd := by
  obtain ⟨n, hn⟩ := Infinite.exists_notMem_finset (sockets.map Socket.fd).toFinset
  exact ⟨n, by simpa using hn⟩

/- The lowest descriptor that is not in use. -/
def unused (sockets : List Socket) : ℕ := Nat.find (exists_unused sockets)

theorem unused_not_mem (sockets : List Socket) : unused sockets ∉ sockets.map Socket.fd :=
  Nat.find_spec (exists_unused sockets)

/-- The command line. With a name whose query does not fit, `do_query` would leave its buffer. -/
structure Options where
  name : CString
  fits : ∀ o random, (doQuery o random name).1.length ≤ bufSize
  queriesPerLoop : ℤ
  localPort : ℤ

variable (o : ByteOrder) (options : Options) (answers : ℕ → Answers)

def State.add (s : State) (k : Socket) : State := { s with sockets := s.sockets ++ [k] }

/- A socket that cannot be bound is used as it is. -/
def State.newSocket (s : State) (port : ℤ) (a : Answers) : Socket :=
  ⟨unused s.sockets, if port ≠ 0 ∧ a.bind then port else 0⟩

def State.record (s : State) (fd : ℤ) (query : List UInt8) : State :=
  { s with calls := s.calls ++ [⟨fd, query, s.sockets.length⟩] }

/- `dns_test.c:170-181`; none if no reply ever comes. -/
def State.exchange (s : State) (fd : ℤ) : Option (ℤ × State) :=
  let a := answers s.calls.length
  if a.sent ∧ a.reply = .never then none
  else some (fd, s.record fd (doQuery o a.random options.name).1)

/- `do_query` (`dns_test.c:147-182`). -/
def State.doQuery (s : State) (fd port : ℤ) : Option (ℤ × State) :=
  let a := answers s.calls.length
  if fd ≤ -1 then
    if a.socket then
      (s.add (s.newSocket port a)).exchange o options answers (s.newSocket port a).fd
    else some (-1, s.record (-1) [])
  else s.exchange o options answers fd

def State.close (s : State) (fd : ℤ) : State :=
  { s with sockets := s.sockets.filter fun k => (k.fd : ℤ) ≠ fd }

/- `close(do_query(-1, ...))` -/
def State.closeQuery (s : State) : Option State :=
  (s.doQuery o options answers (-1) 0).map fun r => r.2.close r.1

def State.closeQueries : ℕ → State → Option State
  | 0, s => some s
  | n + 1, s => (s.closeQuery o options answers).bind (State.closeQueries n)

/- A round of `main` (`dns_test.c:237-247`); none if it waits for ever. -/
def mainBody (s : State) : Pass State (Option State) :=
  match s.doQuery o options answers s.fd options.localPort with
  | none => .leave none
  | some (fd, t) =>
    match State.closeQueries o options answers (options.queriesPerLoop - 1).toNat
        { t with fd := fd } with
    | none => .leave none
    | some u =>
      if u.iter = 0 then .again u
      else if u.iter - 1 = 0 then .leave (some (({ u with iter := u.iter - 1 }).close u.fd))
      else .again { u with iter := u.iter - 1 }

def start (iter : ℤ) (sockets : List Socket) : State := ⟨-1, iter, sockets, []⟩

/-! ### One query -/

/-- Every query that is sent is replied to, or there is an error. -/
def Replied : Prop := ∀ n, (answers n).sent = true → (answers n).reply ≠ .never

/-- The calls made between two states. -/
structure Made (n bound : ℕ) (s t : State) : Prop where
  calls : ∃ made, t.calls = s.calls ++ made ∧ made.length = n ∧ ∀ c ∈ made, c.opened ≤ bound
  iter : t.iter = s.iter

theorem Made.refl (bound : ℕ) (s : State) : Made 0 bound s s :=
  ⟨⟨[], by simp⟩, rfl⟩

theorem Made.trans {m n bound : ℕ} {s t u : State} (hst : Made m bound s t)
    (htu : Made n bound t u) : Made (m + n) bound s u := by
  obtain ⟨first, hfirst, hm, hfirstLe⟩ := hst.calls
  obtain ⟨second, hsecond, hn, hsecondLe⟩ := htu.calls
  refine ⟨⟨first ++ second, ?_, ?_, ?_⟩, htu.iter.trans hst.iter⟩
  · rw [hsecond, hfirst, List.append_assoc]
  · rw [List.length_append, hm, hn]
  · intro c hc
    exact (List.mem_append.mp hc).elim (hfirstLe c) (hsecondLe c)

theorem Made.opened_le {n bound : ℕ} {s t : State} (h : Made n bound s t)
    (hs : ∀ c ∈ s.calls, c.opened ≤ bound) : ∀ c ∈ t.calls, c.opened ≤ bound := by
  obtain ⟨made, hcalls, -, hmade⟩ := h.calls
  intro c hc
  rw [hcalls] at hc
  exact (List.mem_append.mp hc).elim (hs c) (hmade c)

variable {answers}

theorem Made.record {s : State} {bound : ℕ} (h : s.sockets.length ≤ bound) (fd : ℤ)
    (query : List UInt8) : Made 1 bound s (s.record fd query) := by
  refine ⟨⟨[⟨fd, query, s.sockets.length⟩], rfl, rfl, ?_⟩, rfl⟩
  intro c hc
  rw [List.mem_singleton.mp hc]
  exact h

theorem exchange_replied (h : Replied answers) (s : State) (fd : ℤ) :
    ∃ query, s.exchange o options answers fd = some (fd, s.record fd query) := by
  have hreplied := h s.calls.length
  rw [State.exchange, if_neg fun hnever => hreplied hnever.1 hnever.2]
  exact ⟨_, rfl⟩

/-- A query without a socket opens one, which is not in use, or fails. -/
theorem doQuery_new (h : Replied answers) (s : State) (port : ℤ) :
    (∃ k query, k.fd ∉ s.sockets.map Socket.fd ∧
      s.doQuery o options answers (-1) port = some ((k.fd : ℤ), (s.add k).record k.fd query)) ∨
    s.doQuery o options answers (-1) port = some (-1, s.record (-1) []) := by
  rw [State.doQuery, if_pos (Int.le_refl _)]
  split
  · left
    obtain ⟨query, hquery⟩ := exchange_replied o options h
      (s.add (s.newSocket port (answers s.calls.length)))
      (s.newSocket port (answers s.calls.length)).fd
    exact ⟨s.newSocket port (answers s.calls.length), query, unused_not_mem s.sockets, hquery⟩
  · right
    rfl

theorem doQuery_open (h : Replied answers) (s : State) {fd : ℤ} (hfd : 0 ≤ fd) (port : ℤ) :
    ∃ query, s.doQuery o options answers fd port = some (fd, s.record fd query) := by
  rw [State.doQuery, if_neg (by omega)]
  exact exchange_replied o options h s fd

theorem close_unused {sockets : List Socket} {fd : ℤ} (h : fd < 0) :
    sockets.filter (fun l => decide ((l.fd : ℤ) ≠ fd)) = sockets := by
  refine List.filter_eq_self.mpr ?_
  intro l _
  rw [decide_eq_true_eq]
  omega

theorem close_last {sockets : List Socket} {k : Socket} (h : k.fd ∉ sockets.map Socket.fd) :
    (sockets ++ [k]).filter (fun l => decide ((l.fd : ℤ) ≠ k.fd)) = sockets := by
  have hothers : ∀ l ∈ sockets, decide ((l.fd : ℤ) ≠ k.fd) = true := by
    intro l hl
    rw [decide_eq_true_eq]
    exact fun heq => h (List.mem_map.mpr ⟨l, hl, Int.ofNat.inj heq⟩)
  rw [List.filter_append, List.filter_eq_self.mpr hothers]
  simp

/-- A query on a socket of its own leaves the sockets as they were. -/
theorem closeQuery_replied (h : Replied answers) (s : State) :
    ∃ t, s.closeQuery o options answers = some t ∧ Made 1 (s.sockets.length + 1) s t ∧
      t.sockets = s.sockets ∧ t.fd = s.fd := by
  rcases doQuery_new o options h s 0 with ⟨k, query, hk, heq⟩ | heq
  · refine ⟨((s.add k).record k.fd query).close k.fd, ?_, ?_, close_last hk, rfl⟩
    · rw [State.closeQuery, heq, Option.map_some]
    · have hlength : (s.add k).sockets.length ≤ s.sockets.length + 1 := by simp [State.add]
      obtain ⟨hcalls, hiter⟩ := Made.record hlength k.fd query
      exact ⟨hcalls, hiter⟩
  · refine ⟨(s.record (-1) []).close (-1), ?_, ?_, close_unused (by decide), rfl⟩
    · rw [State.closeQuery, heq, Option.map_some]
    · obtain ⟨hcalls, hiter⟩ := Made.record (Nat.le_succ s.sockets.length) (-1) []
      exact ⟨hcalls, hiter⟩

theorem closeQueries_replied (h : Replied answers) (n : ℕ) (s : State) :
    ∃ t, State.closeQueries o options answers n s = some t ∧ Made n (s.sockets.length + 1) s t ∧
      t.sockets = s.sockets ∧ t.fd = s.fd := by
  induction n generalizing s with
  | zero => exact ⟨s, rfl, .refl _ s, rfl, rfl⟩
  | succ n ih =>
    obtain ⟨t, heq, hmade, hsockets, hfd⟩ := closeQuery_replied o options h s
    obtain ⟨u, hrest, hmore, hsockets', hfd'⟩ := ih t
    rw [hsockets] at hmore
    refine ⟨u, ?_, ?_, hsockets'.trans hsockets, hfd'.trans hfd⟩
    · rw [State.closeQueries, heq, Option.bind_some, hrest]
    · rw [Nat.add_comm n 1]
      exact hmade.trans hmore

/-! ### A round -/

/-- Of the program's own sockets there is none but the one it keeps. -/
def Holds (base : List Socket) (s : State) : Prop :=
  (s.fd = -1 ∧ s.sockets = base) ∨
    ∃ k : Socket, s.fd = k.fd ∧ s.sockets = base ++ [k] ∧ k.fd ∉ base.map Socket.fd

/- The number of queries of a round. -/
def perRound : ℕ := 1 + (options.queriesPerLoop - 1).toNat

theorem Made.mono {n bound bound' : ℕ} {s t : State} (h : Made n bound s t) (hle : bound ≤ bound') :
    Made n bound' s t := by
  obtain ⟨made, hcalls, hn, hopened⟩ := h.calls
  exact ⟨⟨made, hcalls, hn, fun c hc => (hopened c hc).trans hle⟩, h.iter⟩

/-- The query on the socket that is kept, which is opened if there is none. -/
theorem doQuery_holds (h : Replied answers) {base : List Socket} {s : State} (hs : Holds base s)
    (port : ℤ) :
    ∃ fd t, s.doQuery o options answers s.fd port = some (fd, t) ∧
      Made 1 (base.length + 1) s t ∧ Holds base { t with fd := fd } ∧
      (0 ≤ s.fd → fd = s.fd ∧ t.sockets = s.sockets) := by
  rcases hs with ⟨hfd, hsockets⟩ | ⟨k, hfd, hsockets, hk⟩
  · rw [hfd]
    rcases doQuery_new o options h s port with ⟨k, query, hk, heq⟩ | heq
    · have hlength : (s.add k).sockets.length ≤ base.length + 1 := by simp [State.add, hsockets]
      obtain ⟨hcalls, hiter⟩ := Made.record hlength k.fd query
      refine ⟨_, _, heq, ⟨hcalls, hiter⟩, .inr ⟨k, rfl, ?_, hsockets ▸ hk⟩, by omega⟩
      simp [State.record, State.add, hsockets]
    · have hlength : s.sockets.length ≤ base.length + 1 := by simp [hsockets]
      exact ⟨_, _, heq, .record hlength _ _, .inl ⟨rfl, hsockets⟩, by omega⟩
  · have hlength : s.sockets.length ≤ base.length + 1 := by simp [hsockets]
    have hopen : 0 ≤ s.fd := by omega
    obtain ⟨query, heq⟩ := doQuery_open o options h s hopen port
    exact ⟨_, _, heq, .record hlength _ _, .inr ⟨k, hfd, hsockets, hk⟩, fun _ => ⟨rfl, rfl⟩⟩

/-- A round makes its queries with at most two sockets of the program open, and whether it is the
last is decided by `iter`. -/
theorem mainBody_round (h : Replied answers) {base : List Socket} {s : State} (hs : Holds base s) :
    ∃ u, Made (perRound options) (base.length + 2) s u ∧ Holds base u ∧
      (0 ≤ s.fd → u.fd = s.fd ∧ u.sockets = s.sockets) ∧
      mainBody o options answers s =
        if u.iter = 0 then .again u
        else if u.iter - 1 = 0 then .leave (some (({ u with iter := u.iter - 1 }).close u.fd))
        else .again { u with iter := u.iter - 1 } := by
  obtain ⟨fd, t, heq, hmade, hholds, hkept⟩ := doQuery_holds o options h hs options.localPort
  obtain ⟨u, hrest, hmore, hsockets, hfd⟩ := closeQueries_replied o options h
    (options.queriesPerLoop - 1).toNat { t with fd := fd }
  have hlength : t.sockets.length ≤ base.length + 1 := by
    rcases hholds with ⟨_, ht⟩ | ⟨k, _, ht, _⟩
    · exact ht ▸ Nat.le_succ _
    · rw [ht, List.length_append, List.length_singleton]
  have hfirst : Made 1 (base.length + 2) s { t with fd := fd } := by
    obtain ⟨hcalls, hiter⟩ := hmade.mono (Nat.le_succ _)
    exact ⟨hcalls, hiter⟩
  refine ⟨u, hfirst.trans (hmore.mono (Nat.succ_le_succ hlength)), ?_, ?_, ?_⟩
  · unfold Holds at hholds ⊢
    rw [hsockets, hfd]
    exact hholds
  · intro hpos
    obtain ⟨hfdEq, htEq⟩ := hkept hpos
    exact ⟨hfd.trans hfdEq, hsockets.trans htEq⟩
  · simp only [mainBody, heq, hrest]

theorem Holds.close {base : List Socket} {s : State} (h : Holds base s) :
    (s.close s.fd).sockets = base := by
  rcases h with ⟨hfd, hsockets⟩ | ⟨k, hfd, hsockets, hk⟩
  · rw [State.close, hsockets]
    exact close_unused (by omega)
  · simp only [State.close, hsockets, hfd]
    exact close_last hk

/-! ### Whole runs -/

theorem main_ends (h : Replied answers) {base : List Socket} (n : ℕ) {s : State}
    (hs : Holds base s) (hiter : s.iter = n + 1) :
    ∃ t, Ends (mainBody o options answers) s (some t) ∧ t.sockets = base ∧
      Made ((n + 1) * perRound options) (base.length + 2) s { t with iter := s.iter } := by
  induction n generalizing s with
  | zero =>
    obtain ⟨u, hmade, hholds, -, hbody⟩ := mainBody_round o options h hs
    have huiter := hmade.iter
    rw [if_neg (by omega), if_pos (by omega)] at hbody
    refine ⟨_, (ends_leave hbody).mpr rfl, hholds.close, ?_⟩
    rw [Nat.zero_add, Nat.one_mul]
    exact ⟨hmade.calls, rfl⟩
  | succ n ih =>
    obtain ⟨u, hmade, hholds, -, hbody⟩ := mainBody_round o options h hs
    have huiter := hmade.iter
    rw [if_neg (by omega), if_neg (by omega)] at hbody
    have hnext : Holds base { u with iter := u.iter - 1 } := hholds
    obtain ⟨t, hends, hsockets, hmore⟩ := ih hnext (by simp only; omega)
    refine ⟨t, (ends_again hbody).mpr hends, hsockets, ?_⟩
    have hall : Made (perRound options + (n + 1) * perRound options) (base.length + 2) s
        { t with iter := s.iter } := by
      have hsecond : Made ((n + 1) * perRound options) (base.length + 2) u
          { t with iter := u.iter } := ⟨hmore.calls, rfl⟩
      exact ⟨(hmade.trans hsecond).calls, rfl⟩
    rwa [Nat.add_comm, ← Nat.succ_mul] at hall

/- The next state, if there is another round. -/
theorem mainBody_again (h : Replied answers) {base : List Socket} {s t : State}
    (hs : Holds base s) (hb : mainBody o options answers s = .again t) :
    Holds base t ∧ (0 ≤ s.fd → t.fd = s.fd ∧ t.sockets = s.sockets) ∧
      Made (perRound options) (base.length + 2) s { t with iter := s.iter } := by
  obtain ⟨u, hmade, hholds, hkept, hbody⟩ := mainBody_round o options h hs
  rw [hb] at hbody
  split at hbody
  · cases hbody
    exact ⟨hholds, hkept, hmade.calls, rfl⟩
  · split at hbody
    · cases hbody
    · cases hbody
      exact ⟨hholds, hkept, hmade.calls, rfl⟩

/- What holds before each round, whether there is a last one or not. -/
theorem holds_of_reaches (h : Replied answers) {base : List Socket} {s t : State}
    (hs : Holds base s) (hcalls : ∀ c ∈ s.calls, c.opened ≤ base.length + 2)
    (ht : Reaches (mainBody o options answers) s t) :
    Holds base t ∧ ∀ c ∈ t.calls, c.opened ≤ base.length + 2 := by
  induction ht with
  | enter => exact ⟨hs, hcalls⟩
  | pass _ hb ih =>
    obtain ⟨hholds, -, hmade⟩ := mainBody_again o options h ih.1 hb
    exact ⟨hholds, hmade.opened_le ih.2⟩

theorem holds_start (iter : ℤ) (base : List Socket) : Holds base (start iter base) := .inl ⟨rfl, rfl⟩

/-- If nothing that is sent stays without a reply, `iter` rounds are made, and with 0 rounds
for ever. All sockets are closed at the end, there are never more than two of the program's
own in a call, whether the rounds come to an end or not, and the one that is kept stays the
same once there is one. -/
theorem rounds_close_sockets (answers : ℕ → Answers) (h : Replied answers) (base : List Socket)
    (iter : ℤ) :
    (0 < iter → ∃ t, Ends (mainBody o options answers) (start iter base) (some t) ∧
      t.sockets = base ∧ (t.calls.length : ℤ) = iter * max 1 options.queriesPerLoop ∧
      ∀ c ∈ t.calls, c.opened ≤ base.length + 2) ∧
    (iter = 0 → ∀ r, ¬ Ends (mainBody o options answers) (start iter base) r) ∧
    ∀ s, Reaches (mainBody o options answers) (start iter base) s →
      (∀ c ∈ s.calls, c.opened ≤ base.length + 2) ∧
      ∀ t, mainBody o options answers s = .again t → 0 ≤ s.fd →
        t.fd = s.fd ∧ t.sockets = s.sockets := by
  refine ⟨fun hpos => ?_, fun hzero r => ?_, fun s hs => ?_⟩
  · obtain ⟨n, rfl⟩ : ∃ n : ℕ, iter = n + 1 := ⟨(iter - 1).toNat, by omega⟩
    obtain ⟨t, hends, hsockets, hmade⟩ := main_ends o options h n (holds_start (n + 1) base) rfl
    obtain ⟨made, hcalls, hlength, hopened⟩ := hmade.calls
    have hmadeEq : t.calls = made := hcalls
    refine ⟨t, hends, hsockets, ?_, hmadeEq ▸ hopened⟩
    have hper : (perRound options : ℤ) = max 1 options.queriesPerLoop := by
      unfold perRound
      omega
    rw [hmadeEq, hlength, ← hper]
    push_cast
    rfl
  · refine not_ends (I := fun s => Holds base s ∧ s.iter = 0) ?_ ⟨holds_start iter base, hzero⟩ r
    rintro s ⟨hs, hiter⟩
    obtain ⟨u, hmade, hholds, -, hbody⟩ := mainBody_round o options h hs
    have huiter : u.iter = 0 := hmade.iter.trans hiter
    rw [if_pos huiter] at hbody
    exact ⟨u, hbody, hholds, huiter⟩
  · obtain ⟨hholds, hopened⟩ :=
      holds_of_reaches o options h (holds_start iter base) (by simp [start]) hs
    exact ⟨hopened, fun t hb hfd => (mainBody_again o options h hholds hb).2.1 hfd⟩

/- The root, two rounds of five queries. -/
def defaults : Options where
  name := DomainName.text ⟨[], true, by decide⟩
  fits o random := by
    rw [doQuery_length]
    decide
  queriesPerLoop := 5
  localPort := 50000

theorem rounds_close_sockets_defaults :
    ∃ t, Ends (mainBody .little defaults fun _ => ⟨7, true, true, true, .bytes 17⟩) (start 2 [])
      (some t) ∧ t.sockets = [] ∧ (t.calls.length : ℤ) = 10 := by
  obtain ⟨t, hends, hsockets, hlength, -⟩ := (rounds_close_sockets .little defaults
    (fun _ => ⟨7, true, true, true, .bytes 17⟩) (by simp [Replied]) [] 2).1 (by decide)
  exact ⟨t, hends, hsockets, hlength⟩

end KeepalivedDevel.DnsTest
