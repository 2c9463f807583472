import KeepalivedDevel.Uds.Safety
import Mathlib.Algebra.BigOperators.Group.Finset.Basic
import Mathlib.Data.Fintype.Basic

/-!
# Every client of the summing server is answered

Where no client sends a command among its arguments and none is killed, every
interleaving comes to an end, and then all clients have printed their sums. A client goes through a
fixed order of places, and every system call takes one client one step further.
-/

namespace KeepalivedDevel.Uds
open CLib ShLib

variable {ι : Type}

/-! ### Requests of numbers only -/

/-- No argument that a client writes is a command as the server sees it. -/
def Setup.Plain (σ : Setup ι) : Prop :=
  ∀ c, ∀ a ∈ σ.request c, seen a ≠ downWord.bytes ∧ seen a ≠ endWord.bytes

theorem commandOf_plain {text : List UInt8} (hdown : text ≠ downWord.bytes)
    (hend : text ≠ endWord.bytes) : commandOf text = .add (CInt.wrap (atoi text)) := by
  rw [commandOf, if_neg hdown, if_neg hend]

theorem commandOf_endWord : commandOf (seen endWord) = .finish := by decide

/-- What a connected client has not had read yet. -/
def Pending (σ : Setup ι) (c : ι) (words : List CString) : Prop :=
  words ≠ [] ∧ words <:+ σ.request c ++ [endWord]

theorem Pending.getLast {σ : Setup ι} {c : ι} {words : List CString} {w : CString}
    (h : Pending σ c (words ++ [w])) : w = endWord := by
  obtain ⟨-, done, hsuffix⟩ := h
  have hlast := congrArg List.getLast? hsuffix
  rw [← List.append_assoc, List.getLast?_concat, List.getLast?_concat] at hlast
  exact Option.some.inj hlast

/- The word END ends the request, and nothing else does. -/
theorem Pending.cases {σ : Setup ι} (plain : σ.Plain) {c : ι} {w : CString} {words : List CString}
    (h : Pending σ c (w :: words)) :
    ((∃ n, commandOf (seen w) = .add n) ∧ Pending σ c words) ∨ w = endWord ∧ words = [] := by
  rcases List.eq_nil_or_concat words with rfl | ⟨front, last, rfl⟩
  · have hlast : Pending σ c ([] ++ [w]) := h
    exact .inr ⟨hlast.getLast, rfl⟩
  · obtain ⟨-, done, hsuffix⟩ := h
    have hargs : done ++ w :: front = σ.request c := by
      have hfront := congrArg List.dropLast hsuffix
      rw [List.dropLast_concat, List.concat_eq_append, ← List.cons_append,
        ← List.append_assoc, List.dropLast_concat] at hfront
      exact hfront
    have hmem : w ∈ σ.request c := by rw [← hargs]; simp
    obtain ⟨hdown, hend⟩ := plain c w hmem
    exact .inl ⟨⟨_, commandOf_plain hdown hend⟩, by simp, done ++ [w], by simpa using hsuffix⟩

/-! ### Where the connection of a client is -/

/-- A client whose connection is `data_socket`, by the server's next system call. -/
inductive Served (σ : Setup ι) (s : System ι) (c : ι) : Server ι → Prop where
  | reading {unsent : List CString} {result : ℤ} (h : s.client c = .connected unsent)
      (opened : s.isOpen c = true) (silent : s.reply c = none)
      (pending : Pending σ c (s.inbox c ++ σ.flow unsent)) : Served σ s c (.reading c result)
  | writing {result : ℤ} (h : s.client c = .connected []) (opened : s.isOpen c = true)
      (silent : s.reply c = none) (empty : s.inbox c = []) : Served σ s c (.writing c result)
  | closing {reply : Buffer} (h : s.client c = .connected []) (answered : s.reply c = some reply)
      (empty : s.inbox c = []) : Served σ s c (.closing c)
  | finishing {text : List UInt8} (h : s.client c = .printed text) (empty : s.inbox c = []) :
      Served σ s c (.closing c)

/-- The places of a client, in the order it goes through them. -/
inductive Place (σ : Setup ι) (s : System ι) (c : ι) : Prop where
  | fresh (h : s.client c = .start)
  | queued {unsent : List CString} (h : s.client c = .connected unsent) (waits : c ∈ s.backlog)
      (opened : s.isOpen c = true) (silent : s.reply c = none)
      (pending : Pending σ c (s.inbox c ++ σ.flow unsent))
  | served (current : s.server.current = some c) (h : Served σ s c s.server)
  | closed {reply : Buffer} (h : s.client c = .connected []) (left : c ∉ s.backlog)
      (unserved : s.server.current ≠ some c) (answered : s.reply c = some reply)
      (empty : s.inbox c = [])
  | finished {text : List UInt8} (h : s.client c = .printed text) (left : c ∉ s.backlog)
      (unserved : s.server.current ≠ some c)

section

variable {σ : Setup ι} {s t : System ι} {c d : ι}

theorem Served.frame {x : Server ι} (h : Served σ s d x) (hclient : t.client d = s.client d)
    (hinbox : t.inbox d = s.inbox d) (hreply : t.reply d = s.reply d)
    (hopen : t.isOpen d = s.isOpen d) : Served σ t d x := by
  cases h with
  | reading h ho hr hp => exact .reading (hclient ▸ h) (hopen ▸ ho) (hreply ▸ hr) (hinbox ▸ hp)
  | writing h ho hr he => exact .writing (hclient ▸ h) (hopen ▸ ho) (hreply ▸ hr) (hinbox ▸ he)
  | closing h hr he => exact .closing (hclient ▸ h) (hreply ▸ hr) (hinbox ▸ he)
  | finishing h he => exact .finishing (hclient ▸ h) (hinbox ▸ he)

theorem Place.frame (h : Place σ s d) (hclient : t.client d = s.client d)
    (hinbox : t.inbox d = s.inbox d) (hreply : t.reply d = s.reply d)
    (hopen : t.isOpen d = s.isOpen d) (hbacklog : d ∈ t.backlog ↔ d ∈ s.backlog)
    (hserver : t.server = s.server ∨ s.server.current ≠ some d ∧ t.server.current ≠ some d) :
    Place σ t d := by
  have hnot : s.server.current ≠ some d → t.server.current ≠ some d := by
    intro hs
    rcases hserver with heq | ⟨-, hne⟩
    · exact heq ▸ hs
    · exact hne
  cases h with
  | fresh h => exact .fresh (hclient ▸ h)
  | queued h hw ho hr hp =>
    exact .queued (hclient ▸ h) (hbacklog.mpr hw) (hopen ▸ ho) (hreply ▸ hr) (hinbox ▸ hp)
  | served hc h =>
    rcases hserver with heq | ⟨hne, -⟩
    · exact .served (heq ▸ hc) (heq ▸ h.frame hclient hinbox hreply hopen)
    · exact absurd hc hne
  | closed h hl hu hr he =>
    exact .closed (hclient ▸ h) (fun hd => hl (hbacklog.mp hd)) (hnot hu) (hreply ▸ hr) (hinbox ▸ he)
  | finished h hl hu => exact .finished (hclient ▸ h) (fun hd => hl (hbacklog.mp hd)) (hnot hu)

/-- The server serves, and every client has its place. -/
structure Live (σ : Setup ι) (s : System ι) : Prop where
  safe : Safe σ s
  serves : s.server ≠ .stopping ∧ s.server.listening = true
  upright : s.downFlag = false
  intact : ∀ c, s.isReset c = false
  place : ∀ c, Place σ s c

theorem Server.serves_of_current {x : Server ι} {c : ι} (h : x.current = some c) :
    x ≠ .stopping ∧ x.listening = true := by
  cases x with
  | reading _ _ => exact ⟨nofun, rfl⟩
  | writing _ _ => exact ⟨nofun, rfl⟩
  | closing _ => exact ⟨nofun, rfl⟩
  | _ => cases h

theorem System.handle_downFlag {s : System ι} {c : ι} {result : ℤ} {b : Buffer}
    (h : b.command ≠ .down) : (s.handle c result b).downFlag = s.downFlag := by
  cases hb : b.command with
  | down => exact absurd hb h
  | finish => simp only [System.handle, hb]
  | add n => simp only [System.handle, hb]

theorem Live.init (σ : Setup ι) : Live σ σ.init :=
  ⟨Safe.init σ, ⟨nofun, rfl⟩, rfl, fun _ => rfl, fun _ => .fresh rfl⟩

theorem Live.queued (h : Live σ s) (hc : c ∈ s.backlog) :
    ∃ unsent, s.client c = .connected unsent ∧ s.isOpen c = true ∧ s.reply c = none ∧
      Pending σ c (s.inbox c ++ σ.flow unsent) := by
  cases h.place c with
  | fresh h' => exact absurd hc ((h.safe.sound c).fresh h').1
  | queued h' _ ho hr hp => exact ⟨_, h', ho, hr, hp⟩
  | served hcurrent _ => exact absurd hcurrent (h.safe.queue.apart c hc)
  | closed _ hl _ _ _ => exact absurd hc hl
  | finished _ hl _ => exact absurd hc hl

theorem Live.served {x : Server ι} (h : Live σ s) (hs : s.server = x) (hx : x.current = some c) :
    Served σ s c x := by
  subst hs
  cases h.place c with
  | fresh h' => exact absurd hx ((h.safe.sound c).fresh h').2.1
  | queued _ hw _ _ _ => exact absurd hx (h.safe.queue.apart c hw)
  | served _ h' => exact h'
  | closed _ _ hu _ _ => exact absurd hx hu
  | finished _ _ hu => exact absurd hx hu

/-- A client with words to write has an open connection. -/
theorem Live.sending {w : CString} {ws : List CString} (h : Live σ s)
    (hc : s.client c = .connected (w :: ws)) :
    s.isOpen c = true ∧ s.reply c = none ∧ Pending σ c (s.inbox c ++ σ.flow (w :: ws)) ∧
      (c ∈ s.backlog ∨ ∃ result, s.server = .reading c result) := by
  have hwords : ∀ {u : List CString}, s.client c = .connected u → u = w :: ws := by
    intro u hu
    rw [hc] at hu
    exact (Client.connected.inj hu).symm
  cases h.place c with
  | fresh h' => rw [hc] at h'; cases h'
  | queued h' hw ho hr hp =>
    obtain rfl := hwords h'
    exact ⟨ho, hr, hp, .inl hw⟩
  | served hcurrent h' =>
    cases hs : s.server with
    | reading d r =>
      rw [hs] at hcurrent h'
      obtain rfl := Option.some.inj hcurrent
      cases h' with
      | reading h' ho hr hp =>
        obtain rfl := hwords h'
        exact ⟨ho, hr, hp, .inr ⟨r, rfl⟩⟩
    | writing d r =>
      rw [hs] at h'
      cases h' with
      | writing h' _ _ _ => cases hwords h'
    | closing d =>
      rw [hs] at h'
      cases h' with
      | closing h' _ _ => cases hwords h'
      | finishing h' _ => rw [hc] at h'; cases h'
    | _ => rw [hs] at hcurrent; cases hcurrent
  | closed h' _ _ _ _ => cases hwords h'
  | finished h' _ _ => rw [hc] at h'; cases h'

/-- A client with an answer to read: all its words have been read. -/
theorem Live.answered {reply : Buffer} {unsent : List CString} (h : Live σ s)
    (hc : s.client c = .connected unsent) (hreply : s.reply c = some reply) :
    unsent = [] ∧ s.inbox c = [] ∧
      (s.server = .closing c ∨ c ∉ s.backlog ∧ s.server.current ≠ some c) := by
  have hsilent : s.reply c ≠ none := by simp [hreply]
  have hwords : s.client c = .connected [] → unsent = [] := by
    intro h'
    rw [hc] at h'
    exact Client.connected.inj h'
  cases h.place c with
  | fresh h' => rw [hc] at h'; cases h'
  | queued _ _ _ hr _ => exact absurd hr hsilent
  | served hcurrent h' =>
    cases hs : s.server with
    | closing d =>
      rw [hs] at hcurrent h'
      obtain rfl := Option.some.inj hcurrent
      cases h' with
      | closing h' _ he => exact ⟨hwords h', he, .inl rfl⟩
      | finishing h' _ => rw [hc] at h'; cases h'
    | reading d r =>
      rw [hs] at h'
      cases h' with
      | reading _ _ hr _ => exact absurd hr hsilent
    | writing d r =>
      rw [hs] at h'
      cases h' with
      | writing _ _ hr _ => exact absurd hr hsilent
    | _ => rw [hs] at hcurrent; cases hcurrent
  | closed h' hl hu _ he => exact ⟨hwords h', he, .inr ⟨hl, hu⟩⟩
  | finished h' _ _ => rw [hc] at h'; cases h'

end

/-! ### Every step takes one client one place further -/

section

variable [DecidableEq ι] {σ : Setup ι} {s t : System ι} {c : ι}

theorem Live.place_connect (h : Live σ s) (hc : s.client c = .start) (d : ι) :
    Place σ { s.setClient c (.connected (σ.words c)) with
      isOpen := Function.update s.isOpen c true
      backlog := s.backlog ++ [c] } d := by
  by_cases hd : d = c
  · subst hd
    obtain ⟨-, -, hempty, hnone⟩ := (h.safe.sound d).fresh hc
    refine .queued (Function.update_self ..) (by simp) (by simp) hnone ?_
    simp only [System.setClient, hempty, List.nil_append, σ.flow_words]
    exact ⟨by simp, List.suffix_refl _⟩
  · exact (h.place d).frame (by simp [System.setClient, hd]) rfl rfl (by simp [hd]) (by simp [hd])
      (.inl rfl)

/-- A client that is still writing keeps its place with what is left to write. -/
theorem Live.place_writing {w : CString} {ws unsent : List CString} {inbox : ι → List CString}
    (h : Live σ s) (hc : s.client c = .connected (w :: ws))
    (hself : inbox c ++ σ.flow unsent = s.inbox c ++ σ.flow (w :: ws))
    (hother : ∀ d, d ≠ c → inbox d = s.inbox d) (d : ι) :
    Place σ { s.setClient c (.connected unsent) with inbox := inbox } d := by
  by_cases hd : d = c
  · subst hd
    obtain ⟨hopen, hnone, hpending, hwhere⟩ := h.sending hc
    have hclient : (s.setClient d (.connected unsent)).client d = .connected unsent :=
      Function.update_self ..
    rw [← hself] at hpending
    rcases hwhere with hmem | ⟨r, hs⟩
    · exact .queued hclient hmem hopen hnone hpending
    · have hcurrent : s.server.current = some d := by rw [hs]; rfl
      refine .served hcurrent ?_
      show Served σ _ d s.server
      rw [hs]
      exact .reading hclient hopen hnone hpending
  · exact (h.place d).frame (by simp [System.setClient, hd]) (hother d hd) rfl rfl Iff.rfl (.inl rfl)

theorem Live.place_send {w : CString} {ws : List CString} (h : Live σ s)
    (hc : s.client c = .connected (w :: ws)) (taken : σ.takes w = true) (d : ι) :
    Place σ { s.setClient c (.connected ws) with
      inbox := Function.update s.inbox c (s.inbox c ++ [w]) } d :=
  h.place_writing hc (by simp [σ.flow_taken taken]) (fun d hd => by simp [hd]) d

theorem Live.place_sendFails {a w : CString} {ws : List CString} (h : Live σ s)
    (hc : s.client c = .connected (a :: w :: ws)) (refused : σ.takes a = false) (d : ι) :
    Place σ (s.setClient c (.connected [endWord])) d := by
  have hself : s.inbox c ++ σ.flow [endWord] = s.inbox c ++ σ.flow (a :: w :: ws) := by
    rw [σ.flow_refused refused]
    rfl
  exact h.place_writing hc hself (fun _ _ => rfl) d

theorem Live.place_receive {reply : Buffer} (h : Live σ s) (hc : s.client c = .connected [])
    (hreply : s.reply c = some reply) (text : List UInt8) (d : ι) :
    Place σ (s.setClient c (.printed text)) d := by
  by_cases hd : d = c
  · subst hd
    have hclient : (s.setClient d (.printed text)).client d = .printed text := Function.update_self ..
    obtain ⟨-, hempty, hs | ⟨hl, hu⟩⟩ := h.answered hc hreply
    · have hcurrent : s.server.current = some d := by rw [hs]; rfl
      refine .served hcurrent ?_
      show Served σ _ d s.server
      rw [hs]
      exact .finishing hclient hempty
    · exact .finished hclient hl hu
  · exact (h.place d).frame (by simp [System.setClient, hd]) rfl rfl rfl Iff.rfl (.inl rfl)

theorem Live.place_accept {backlog : List ι} (h : Live σ s) (hs : s.server = .accepting)
    (first : s.backlog = c :: backlog) (d : ι) :
    Place σ { s with server := .reading c 0, backlog := backlog } d := by
  by_cases hd : d = c
  · subst hd
    obtain ⟨u, hu, hopen, hnone, hpending⟩ := h.queued (c := d) (by rw [first]; simp)
    exact .served rfl (.reading hu hopen hnone hpending)
  · refine (h.place d).frame rfl rfl rfl rfl (by simp [first, hd]) (.inr ⟨by simp [hs, Server.current], ?_⟩)
    exact fun heq => hd (Option.some.inj heq).symm

theorem Live.place_read {result : ℤ} {w : CString} {ws : List CString} (plain : σ.Plain)
    (h : Live σ s) (hs : s.server = .reading c result) (first : s.inbox c = w :: ws) (d : ι) :
    Place σ ({ s with inbox := Function.update s.inbox c ws }.handle c result
      (s.buffer.receive (w.bytes ++ [0]))) d := by
  have hcommand := s.buffer.command_receive_word w
  by_cases hd : d = c
  · subst hd
    cases h.served hs rfl with
    | @reading unsent _ hu hopen hnone hpending =>
      rw [first, List.cons_append] at hpending
      refine .served (System.handle_current ..) ?_
      rcases hpending.cases plain with ⟨⟨n, hn⟩, hrest⟩ | ⟨rfl, hrest⟩
      · rw [System.handle_add (hcommand.trans hn)]
        refine .reading hu hopen hnone ?_
        show Pending σ d (Function.update s.inbox d ws d ++ σ.flow unsent)
        rw [Function.update_self]
        exact hrest
      · obtain ⟨rfl, hflow⟩ := List.append_eq_nil_iff.mp hrest
        obtain rfl := σ.flow_eq_nil hflow
        rw [System.handle_command (by rw [hcommand, commandOf_endWord]; exact fun n => nofun)]
        exact .writing (by simpa using hu) (by simpa using hopen) (by simpa using hnone) (by simp)
  · refine (h.place d).frame (by simp) (by simp [hd]) (by simp) (by simp) (by simp) (.inr ?_)
    rw [System.handle_current, hs]
    have hne : some c ≠ some d := fun heq => hd (Option.some.inj heq).symm
    exact ⟨hne, hne⟩

theorem Live.place_write {result : ℤ} (h : Live σ s) (hs : s.server = .writing c result)
    (b : Buffer) (d : ι) :
    Place σ { s with buffer := b, reply := Function.update s.reply c (some b), server := .closing c } d := by
  by_cases hd : d = c
  · subst hd
    cases h.served hs rfl with
    | writing hu _ _ hempty => exact .served rfl (.closing hu (Function.update_self ..) hempty)
  · have hne : some c ≠ some d := fun heq => hd (Option.some.inj heq).symm
    refine (h.place d).frame rfl rfl (by simp [hd]) rfl Iff.rfl (.inr ⟨?_, hne⟩)
    rw [hs]
    exact hne

theorem Live.place_close (h : Live σ s) (hs : s.server = .closing c) (reset : Bool) (d : ι) :
    Place σ { s with
      isOpen := Function.update s.isOpen c false
      isReset := Function.update s.isReset c reset
      server := .accepting } d := by
  by_cases hd : d = c
  · subst hd
    have hout : d ∉ s.backlog := h.safe.not_mem_backlog (by rw [hs]; rfl)
    cases h.served hs rfl with
    | closing hu hr he => exact .closed hu hout nofun hr he
    | finishing hu _ => exact .finished hu hout nofun
  · refine (h.place d).frame rfl rfl rfl (by simp [hd]) Iff.rfl (.inr ⟨?_, nofun⟩)
    rw [hs]
    exact fun heq => hd (Option.some.inj heq).symm

/-- The steps that are left when no client is killed: each takes a client further. -/
inductive Advance (σ : Setup ι) (s : System ι) : System ι → Prop where
  | connect {c : ι} (h : s.client c = .start) :
      Advance σ s { s.setClient c (.connected (σ.words c)) with
        isOpen := Function.update s.isOpen c true
        backlog := s.backlog ++ [c] }
  | send {c : ι} {w : CString} {ws : List CString} (h : s.client c = .connected (w :: ws))
      (taken : σ.takes w = true) :
      Advance σ s { s.setClient c (.connected ws) with
        inbox := Function.update s.inbox c (s.inbox c ++ [w]) }
  | sendFails {c : ι} {a w : CString} {ws : List CString}
      (h : s.client c = .connected (a :: w :: ws)) (refused : σ.takes a = false) :
      Advance σ s (s.setClient c (.connected [endWord]))
  | receive {c : ι} {reply : Buffer} (h : s.client c = .connected [])
      (hreply : s.reply c = some reply) :
      Advance σ s (s.setClient c (.printed ((System.endBuffer σ c).receive reply.bytes).str))
  | accept {c : ι} {backlog : List ι} (h : s.server = .accepting)
      (first : s.backlog = c :: backlog) :
      Advance σ s { s with server := .reading c 0, backlog := backlog }
  | read {c : ι} {result : ℤ} {w : CString} {ws : List CString} (h : s.server = .reading c result)
      (first : s.inbox c = w :: ws) :
      Advance σ s ({ s with inbox := Function.update s.inbox c ws }.handle c result
        (s.buffer.receive (w.bytes ++ [0])))
  | write {c : ι} {result : ℤ} {b : Buffer} (h : s.server = .writing c result) :
      Advance σ s
        { s with buffer := b, reply := Function.update s.reply c (some b), server := .closing c }
  | close {c : ι} (h : s.server = .closing c) :
      Advance σ s { s with
        isOpen := Function.update s.isOpen c false
        isReset := Function.update s.isReset c (decide (s.inbox c ≠ []))
        server := .accepting }

theorem Live.advance {e : Event ι} (alive : ∀ c, e ≠ .kill c) (h : Live σ s)
    (hstep : Step σ s e t) : Advance σ s t := by
  cases hstep with
  | connect hc _ _ => exact .connect hc
  | refused _ hl => exact absurd h.serves.2 (by simp [hl])
  | send hc _ taken _ => exact .send hc taken
  | @sendFails _ w ws hc fails =>
    obtain ⟨hopen, -, hpending, -⟩ := h.sending hc
    have hrefused : σ.takes w = false := fails.resolve_left (by simp [hopen])
    cases ws with
    | nil =>
      have hend : w = endWord := hpending.getLast
      rw [hend, σ.takes_endWord] at hrefused
      cases hrefused
    | cons w' ws => exact .sendFails hc hrefused
  | reset _ hr => cases (h.intact _).symm.trans hr
  | receive hc hreply => exact .receive hc hreply
  | receiveEnd hc hr hreply ho =>
    rcases ((h.safe.sound _).balance _ hc).closed ho with hne | hreset
    · exact absurd hreply hne
    · exact absurd hr (by simp [hreset])
  | kill _ => exact absurd rfl (alive _)
  | accept hs first => exact .accept hs first
  | read hs first => exact .read hs first
  | readEnd hs _ ho =>
    cases h.served hs rfl with
    | reading hu _ _ _ => exact absurd ho (by simp [hu, Client.over])
  | write hs _ _ => exact .write hs
  | writeFails hs ho =>
    cases h.served hs rfl with
    | writing hu _ _ _ => exact absurd ho (by simp [hu, Client.over])
  | close hs =>
    have hserver : (if s.downFlag then Server.stopping else Server.accepting : Server ι) = .accepting := by
      rw [h.upright]
      rfl
    rw [hserver]
    exact .close hs
  | stop hs => exact absurd hs h.serves.1

theorem Live.step {e : Event ι} (plain : σ.Plain) (alive : ∀ c, e ≠ .kill c) (h : Live σ s)
    (hstep : Step σ s e t) : Live σ t := by
  have hsafe := h.safe.step hstep
  cases h.advance alive hstep with
  | connect hc => exact ⟨hsafe, h.serves, h.upright, h.intact, h.place_connect hc⟩
  | send hc taken => exact ⟨hsafe, h.serves, h.upright, h.intact, h.place_send hc taken⟩
  | sendFails hc refused =>
    exact ⟨hsafe, h.serves, h.upright, h.intact, h.place_sendFails hc refused⟩
  | receive hc hreply => exact ⟨hsafe, h.serves, h.upright, h.intact, h.place_receive hc hreply _⟩
  | accept hs first => exact ⟨hsafe, ⟨by simp, rfl⟩, h.upright, h.intact, h.place_accept hs first⟩
  | @read c _ w ws hs first =>
    have hplace := h.place_read plain hs first
    refine ⟨hsafe, ?_, ?_, by simpa using h.intact, hplace⟩
    · exact Server.serves_of_current (System.handle_current ..)
    · have hdown : (s.buffer.receive (w.bytes ++ [0])).command ≠ .down := by
        rw [s.buffer.command_receive_word]
        cases h.served hs rfl with
        | reading _ _ _ hpending =>
          rw [first, List.cons_append] at hpending
          rcases hpending.cases plain with ⟨⟨n, hn⟩, -⟩ | ⟨rfl, -⟩
          · rw [hn]
            simp
          · rw [commandOf_endWord]
            simp
      rw [System.handle_downFlag hdown]
      exact h.upright
  | write hs => exact ⟨hsafe, ⟨by simp, rfl⟩, h.upright, h.intact, h.place_write hs _⟩
  | @close c hs =>
    have hempty : s.inbox c = [] := by
      cases h.served hs rfl with
      | closing _ _ he => exact he
      | finishing _ he => exact he
    refine ⟨hsafe, ⟨by simp, rfl⟩, h.upright, fun d => ?_, h.place_close hs _⟩
    by_cases hd : d = c
    · simp [hd, hempty]
    · simp [hd, h.intact d]

/-! ### The number of steps that are left -/

/- The calls of the server that the connection of `c` still takes: `accept`, one
`write` and `close`, without its reads. -/
def Server.due (x : Server ι) (c : ι) : ℕ :=
  match x with
  | .reading d _ | .writing d _ => if d = c then 2 else 0
  | .closing d => if d = c then 1 else 0
  | _ => 0

def System.calls (s : System ι) (c : ι) : ℕ := (if c ∈ s.backlog then 3 else 0) + s.server.due c

def Setup.left (σ : Setup ι) (s : System ι) (c : ι) : ℕ :=
  match s.client c with
  | .start => 2 * (σ.words c).length + 5
  | .connected unsent => 2 * unsent.length + (s.inbox c).length + s.calls c + 1
  | .printed _ | .gone => s.calls c

def Setup.rank [Fintype ι] (σ : Setup ι) (s : System ι) : ℕ := ∑ c, σ.left s c

theorem Server.due_of_current_ne {x : Server ι} (h : x.current ≠ some c) : x.due c = 0 := by
  cases x with
  | reading d _ => exact if_neg fun hd => h (congrArg some hd)
  | writing d _ => exact if_neg fun hd => h (congrArg some hd)
  | closing d => exact if_neg fun hd => h (congrArg some hd)
  | _ => rfl

theorem System.calls_congr {d : ι} (hbacklog : d ∈ t.backlog ↔ d ∈ s.backlog)
    (hserver : t.server.due d = s.server.due d) : t.calls d = s.calls d := by
  simp only [System.calls, hbacklog, hserver]

theorem System.calls_queued (h : c ∈ s.backlog) (hcurrent : s.server.current ≠ some c) :
    s.calls c = 3 := by
  rw [System.calls, if_pos h, Server.due_of_current_ne hcurrent]

theorem System.calls_unqueued (h : c ∉ s.backlog) : s.calls c = s.server.due c := by
  rw [System.calls, if_neg h, Nat.zero_add]

theorem Setup.left_congr {d : ι} (hclient : t.client d = s.client d)
    (hinbox : t.inbox d = s.inbox d) (hcalls : t.calls d = s.calls d) : σ.left t d = σ.left s d := by
  simp only [Setup.left, hclient, hinbox, hcalls]

theorem Setup.left_connected {unsent : List CString} (h : s.client c = .connected unsent) :
    σ.left s c = 2 * unsent.length + (s.inbox c).length + s.calls c + 1 := by
  simp only [Setup.left, h]

theorem Setup.left_printed {text : List UInt8} (h : s.client c = .printed text) :
    σ.left s c = s.calls c := by
  simp only [Setup.left, h]

theorem rank_step [Fintype ι] (c : ι) (hother : ∀ d, d ≠ c → σ.left t d = σ.left s d)
    (hself : σ.left t c + 1 ≤ σ.left s c) : σ.rank t + 1 ≤ σ.rank s := by
  have ht := Finset.add_sum_erase Finset.univ (fun d => σ.left t d) (Finset.mem_univ c)
  have hs := Finset.add_sum_erase Finset.univ (fun d => σ.left s d) (Finset.mem_univ c)
  have hrest : ∑ d ∈ Finset.univ.erase c, σ.left t d = ∑ d ∈ Finset.univ.erase c, σ.left s d :=
    Finset.sum_congr rfl fun d hd => hother d (Finset.ne_of_mem_erase hd)
  simp only [Setup.rank]
  omega

theorem Live.rank_connect [Fintype ι] (h : Live σ s) (hc : s.client c = .start) :
    σ.rank { s.setClient c (.connected (σ.words c)) with
      isOpen := Function.update s.isOpen c true
      backlog := s.backlog ++ [c] } + 1 ≤ σ.rank s := by
  obtain ⟨-, hcurrent, hempty, -⟩ := (h.safe.sound c).fresh hc
  refine rank_step c (fun d hd => ?_) ?_
  · exact Setup.left_congr (by simp [System.setClient, hd]) rfl (System.calls_congr (by simp [hd]) rfl)
  · have hcalls := System.calls_queued (c := c) (s := { s with backlog := s.backlog ++ [c] })
      (by simp) hcurrent
    rw [Setup.left_connected (Function.update_self ..)]
    show 2 * (σ.words c).length + (s.inbox c).length +
      ({ s with backlog := s.backlog ++ [c] } : System ι).calls c + 1 + 1 ≤ _
    rw [hcalls, hempty, Setup.left, hc]
    simp only [List.length_nil, Nat.add_zero, le_refl]

theorem rank_send [Fintype ι] {w : CString} {ws : List CString}
    (hc : s.client c = .connected (w :: ws)) :
    σ.rank { s.setClient c (.connected ws) with
      inbox := Function.update s.inbox c (s.inbox c ++ [w]) } + 1 ≤ σ.rank s := by
  refine rank_step c (fun d hd => ?_) ?_
  · exact Setup.left_congr (by simp [System.setClient, hd]) (by simp [hd]) rfl
  · rw [Setup.left_connected (Function.update_self ..), Setup.left_connected hc]
    show 2 * ws.length + (Function.update s.inbox c (s.inbox c ++ [w]) c).length + s.calls c + 1 + 1 ≤ _
    simp only [Function.update_self, List.length_append, List.length_cons, List.length_nil]
    omega

theorem rank_sendFails [Fintype ι] {a w : CString} {ws : List CString}
    (hc : s.client c = .connected (a :: w :: ws)) :
    σ.rank (s.setClient c (.connected [endWord])) + 1 ≤ σ.rank s := by
  refine rank_step c (fun d hd => ?_) ?_
  · exact Setup.left_congr (by simp [System.setClient, hd]) rfl rfl
  · rw [Setup.left_connected (Function.update_self ..), Setup.left_connected hc]
    show 2 * [endWord].length + (s.inbox c).length + s.calls c + 1 + 1 ≤ _
    simp only [List.length_cons, List.length_nil]
    omega

theorem Live.rank_receive [Fintype ι] {reply : Buffer} (h : Live σ s)
    (hc : s.client c = .connected []) (hreply : s.reply c = some reply) (text : List UInt8) :
    σ.rank (s.setClient c (.printed text)) + 1 ≤ σ.rank s := by
  obtain ⟨-, hempty, -⟩ := h.answered hc hreply
  refine rank_step c (fun d hd => ?_) ?_
  · exact Setup.left_congr (by simp [System.setClient, hd]) rfl rfl
  · rw [Setup.left_printed (Function.update_self ..), Setup.left_connected hc, hempty]
    show s.calls c + 1 ≤ _
    simp only [List.length_nil]
    omega

theorem Live.rank_accept [Fintype ι] {backlog : List ι} (h : Live σ s) (hs : s.server = .accepting)
    (first : s.backlog = c :: backlog) :
    σ.rank { s with server := .reading c 0, backlog := backlog } + 1 ≤ σ.rank s := by
  have hmem : c ∈ s.backlog := by rw [first]; exact List.mem_cons_self
  have hnodup := h.safe.queue.nodup
  rw [first] at hnodup
  obtain ⟨u, hu, -⟩ := h.queued hmem
  refine rank_step c (fun d hd => ?_) ?_
  · refine Setup.left_congr rfl rfl (System.calls_congr (by simp [first, hd]) ?_)
    rw [hs]
    exact if_neg fun heq => hd heq.symm
  · have hcalls := System.calls_unqueued (s := { s with server := .reading c 0, backlog := backlog })
      (List.nodup_cons.mp hnodup).1
    have hbefore := System.calls_queued hmem (h.safe.queue.apart c hmem)
    simp only [Server.due, ite_true] at hcalls
    simp only [Setup.left, hu, hcalls, hbefore]
    omega

theorem Live.rank_read [Fintype ι] {result : ℤ} {w : CString} {ws : List CString}
    (h : Live σ s) (hs : s.server = .reading c result) (first : s.inbox c = w :: ws) (b : Buffer) :
    σ.rank ({ s with inbox := Function.update s.inbox c ws }.handle c result b) + 1 ≤ σ.rank s := by
  have hout : c ∉ s.backlog := h.safe.not_mem_backlog (by rw [hs]; rfl)
  have hdue : ∀ d, ({ s with inbox := Function.update s.inbox c ws }.handle c result b).server.due d =
      s.server.due d := by
    intro d
    rw [hs]
    unfold System.handle
    split <;> rfl
  cases h.served hs rfl with
  | reading hu _ _ _ =>
    refine rank_step c (fun d hd => ?_) ?_
    · exact Setup.left_congr (by simp) (by simp [hd]) (System.calls_congr (by simp) (hdue d))
    · have hcalls := System.calls_congr (s := s) (by simp) (hdue c)
      simp only [Setup.left, System.handle_client, System.handle_inbox, hu, hcalls, first,
        Function.update_self, List.length_cons]
      omega

theorem Live.rank_write [Fintype ι] {result : ℤ} (h : Live σ s) (hs : s.server = .writing c result)
    (b : Buffer) :
    σ.rank { s with buffer := b, reply := Function.update s.reply c (some b), server := .closing c } + 1 ≤
      σ.rank s := by
  have hout : c ∉ s.backlog := h.safe.not_mem_backlog (by rw [hs]; rfl)
  cases h.served hs rfl with
  | writing hu _ _ _ =>
    refine rank_step c (fun d hd => ?_) ?_
    · refine Setup.left_congr rfl rfl (System.calls_congr Iff.rfl ?_)
      rw [hs]
      simp [Server.due, Ne.symm hd]
    · have hcalls := System.calls_unqueued (s := { s with
        buffer := b, reply := Function.update s.reply c (some b), server := .closing c }) hout
      have hbefore := System.calls_unqueued hout
      simp only [hs, Server.due, ite_true] at hcalls hbefore
      simp only [Setup.left, hu, hcalls, hbefore]
      omega

theorem Live.rank_close [Fintype ι] (h : Live σ s) (hs : s.server = .closing c) (reset : Bool) :
    σ.rank { s with
      isOpen := Function.update s.isOpen c false
      isReset := Function.update s.isReset c reset
      server := .accepting } + 1 ≤ σ.rank s := by
  have hout : c ∉ s.backlog := h.safe.not_mem_backlog (by rw [hs]; rfl)
  refine rank_step c (fun d hd => ?_) ?_
  · refine Setup.left_congr rfl rfl (System.calls_congr Iff.rfl ?_)
    rw [hs]
    exact (if_neg fun heq => hd heq.symm).symm
  · have hcalls := System.calls_unqueued (s := { s with
      isOpen := Function.update s.isOpen c false
      isReset := Function.update s.isReset c reset
      server := .accepting }) hout
    have hbefore := System.calls_unqueued hout
    simp only [hs, Server.due, ite_true] at hcalls hbefore
    cases h.served hs rfl with
    | closing hu _ _ =>
      simp only [Setup.left, hu, hcalls, hbefore]
      omega
    | finishing hu _ => simp only [Setup.left, hu, hcalls, hbefore, Nat.zero_add, le_refl]

theorem Live.rank_lower [Fintype ι] {e : Event ι} (alive : ∀ c, e ≠ .kill c)
    (h : Live σ s) (hstep : Step σ s e t) : σ.rank t + 1 ≤ σ.rank s := by
  cases h.advance alive hstep with
  | connect hc => exact h.rank_connect hc
  | send hc _ => exact rank_send hc
  | sendFails hc _ => exact rank_sendFails hc
  | receive hc hreply => exact h.rank_receive hc hreply _
  | accept hs first => exact h.rank_accept hs first
  | read hs first => exact h.rank_read hs first _
  | write hs => exact h.rank_write hs _
  | close hs => exact h.rank_close hs _

/-! ### No deadlock -/

/-- As long as a client has no result, some process can move. -/
theorem Live.progress (h : Live σ s) (hc : ∀ text, s.client c ≠ .printed text) :
    ∃ e, (∀ d, e ≠ .kill d) ∧ (σ.step s e).isSome = true := by
  cases hs : s.server with
  | accepting =>
    cases hb : s.backlog with
    | cons d backlog => exact ⟨.accept, by simp, by simp [Setup.step, System.accept, hs, hb]⟩
    | nil =>
      cases h.place c with
      | fresh h' =>
        refine ⟨.connect c, by simp, ?_⟩
        simp [Setup.step, System.connect, h', hs, Server.listening, hb]
      | queued _ hw _ _ _ => rw [hb] at hw; cases hw
      | served hcurrent _ => rw [hs] at hcurrent; cases hcurrent
      | closed h' _ _ hr _ =>
        refine ⟨.receive c, by simp, ?_⟩
        simp [Setup.step, System.receive, h', h.intact c, hr]
      | finished h' _ _ => exact absurd h' (hc _)
  | reading d r =>
    cases hi : s.inbox d with
    | cons w ws => exact ⟨.read, by simp, by simp [Setup.step, System.read, hs, hi]⟩
    | nil =>
      cases h.served hs rfl with
      | @reading unsent _ hu ho _ hp =>
        rw [hi, List.nil_append] at hp
        cases unsent with
        | nil => exact absurd rfl hp.1
        | cons w ws =>
          refine ⟨.send d, by simp, ?_⟩
          cases ht : σ.takes w with
          | true => simp [Setup.step, System.send, hu, ho, hi, ht, σ.room_nil]
          | false => simp [Setup.step, System.send, hu, ht]
  | writing d r =>
    cases h.served hs rfl with
    | writing hu _ _ _ =>
      obtain rfl := ((h.safe.sound d).balance _ hu).writing r hs
      obtain ⟨b, hb, -⟩ := s.buffer.exists_sprintfD (σ.inRange_answer d)
      exact ⟨.write, by simp, by simp [Setup.step, System.write, hs, hb]⟩
  | closing d => exact ⟨.close, by simp, by simp [Setup.step, System.close, hs]⟩
  | stopping => exact absurd hs h.serves.1
  | stopped => exact absurd h.serves.2 (by simp [hs, Server.listening])
  | failed => exact absurd h.serves.2 (by simp [hs, Server.listening])

theorem total_plain {args : List CString}
    (h : ∀ a ∈ args, seen a ≠ downWord.bytes ∧ seen a ≠ endWord.bytes) :
    total (args ++ [endWord]) = (args.map fun a => CInt.wrap (atoi (seen a))).sum := by
  induction args with
  | nil => decide
  | cons a args ih =>
    obtain ⟨hdown, hend⟩ := h a List.mem_cons_self
    rw [List.cons_append, total_cons_add (commandOf_plain hdown hend),
      ih fun b hb => h b (List.mem_cons_of_mem _ hb), List.map_cons, List.sum_cons]

/-- Where no client writes a command before END and none is killed, every interleaving is
over after a fixed number of system calls, and one that cannot go on has left every client
with the sum of its arguments, up to the first that is too large for the socket. -/
theorem every_client_answered [Fintype ι] (σ : Setup ι) (plain : σ.Plain) (events : List (Event ι))
    (s : System ι) (h : σ.run events = some s) (alive : ∀ c, .kill c ∉ events) :
    events.length ≤ ∑ c, (2 * (σ.args c).length + 7) ∧
      ((∀ e, (∀ c, e ≠ .kill c) → σ.step s e = none) →
        ∀ c, s.client c = .printed
          (decimalText (CInt.wrap
            (((σ.args c).takeWhile σ.takes).map fun a => CInt.wrap (atoi (seen a))).sum))) := by
  have hallowed : ∀ e ∈ events, ∀ c, e ≠ .kill c := fun e he c hec => alive c (hec ▸ he)
  have hkeep : ∀ s e t, (∀ c, e ≠ .kill c) → Live σ s → σ.step s e = some t → Live σ t :=
    fun s e t he hs hstep => hs.step plain he (Setup.step_spec hstep)
  have hlive := Trace.run_invariant hkeep (Live.init σ) hallowed h
  refine ⟨?_, fun hend c => ?_⟩
  · have hrank := Trace.length_add_rank (r := σ.rank) hkeep
      (fun s e t he hs hstep => hs.rank_lower he (Setup.step_spec hstep)) (Live.init σ) hallowed h
    have hinit : σ.rank σ.init = ∑ c, (2 * (σ.args c).length + 7) := by
      refine Finset.sum_congr rfl fun c _ => ?_
      simp only [Setup.left, Setup.init, Setup.words, List.length_append, List.length_singleton]
      omega
    omega
  · by_cases hc : ∃ text, s.client c = .printed text
    · obtain ⟨text, hc⟩ := hc
      rw [hc, (hlive.safe.sound c).printed text hc, Setup.answer, total_plain (plain c)]
      rfl
    · obtain ⟨e, he, hsome⟩ := hlive.progress fun text ht => hc ⟨text, ht⟩
      rw [hend e he] at hsome
      cases hsome

end

theorem every_client_answered_twoClients :
    twoClients.Plain ∧ ∃ s, twoClients.run twoClientsEvents = some s ∧
      twoClientsEvents.length ≤ ∑ c, (2 * (twoClients.args c).length + 7) ∧
      ((∀ e, (∀ c, e ≠ .kill c) → twoClients.step s e = none) →
        ∀ c, s.client c = .printed (decimalText (CInt.wrap
          (((twoClients.args c).takeWhile twoClients.takes).map fun a =>
            CInt.wrap (atoi (seen a))).sum))) := by
  have hplain : twoClients.Plain := by
    unfold Setup.Plain
    decide
  exact ⟨hplain, _, rfl, every_client_answered twoClients hplain twoClientsEvents _ rfl (by decide)⟩

end KeepalivedDevel.Uds
