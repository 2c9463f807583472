import KeepalivedDevel.Uds.System

/-!
# What the clients of the summing server print

In every interleaving a result that a client prints is the sum of its own
numbers. The invariant is a balance for each connected client: what the server
has added up and what it has still to read give the client's answer. Nothing is
asked of clients that are gone, although the server may still be busy with them.
-/

namespace KeepalivedDevel.Uds
open CLib ShLib

variable {ι : Type}

/-! ### The words that get through -/

/-- The arguments that a client writes: the first one that the socket does not take ends
its loop. -/
def Setup.request (σ : Setup ι) (c : ι) : List CString := (σ.args c).takeWhile σ.takes

/-- What an open connection gets of the words that are still to be written. -/
def Setup.flow (σ : Setup ι) : List CString → List CString
  | a :: w :: ws => if σ.takes a then a :: σ.flow (w :: ws) else [endWord]
  | ws => ws

section

variable (σ : Setup ι)

theorem Setup.flow_taken {w : CString} (h : σ.takes w = true) (ws : List CString) :
    σ.flow (w :: ws) = w :: σ.flow ws := by
  cases ws with
  | nil => rfl
  | cons w' ws => rw [Setup.flow, if_pos h]

theorem Setup.flow_refused {a : CString} (h : σ.takes a = false) (w : CString) (ws : List CString) :
    σ.flow (a :: w :: ws) = [endWord] := by
  rw [Setup.flow, h]
  rfl

theorem Setup.flow_eq_nil {ws : List CString} (h : σ.flow ws = []) : ws = [] := by
  fun_cases Setup.flow σ ws with
  | case1 a w ws ht => simp [Setup.flow, ht] at h
  | case2 a w ws ht => simp [Setup.flow, ht] at h
  | case3 => simpa [Setup.flow] using h

theorem Setup.flow_words (c : ι) : σ.flow (σ.words c) = σ.request c ++ [endWord] := by
  unfold Setup.words Setup.request
  induction σ.args c with
  | nil => rfl
  | cons a args ih =>
    cases ht : σ.takes a with
    | true =>
      rw [List.cons_append, σ.flow_taken ht, ih, List.takeWhile_cons_of_pos ht, List.cons_append]
    | false =>
      obtain ⟨w, ws, hargs⟩ := List.exists_cons_of_ne_nil (l := args ++ [endWord]) (by simp)
      rw [List.cons_append, hargs, σ.flow_refused ht, List.takeWhile_cons_of_neg (by simp [ht]),
        List.nil_append]

end

/-- The sum a client asks for, as an `int`. -/
def Setup.answer (σ : Setup ι) (c : ι) : ℤ := CInt.wrap (total (σ.request c ++ [endWord]))

theorem Setup.inRange_answer (σ : Setup ι) (c : ι) : CInt.InRange (σ.answer c) :=
  CInt.wrap_inRange _

theorem total_cons_add {w : CString} {n : ℤ} (h : commandOf (seen w) = .add n) (ws : List CString) :
    total (w :: ws) = n + total ws := by
  simp only [total, h]

theorem total_cons_command {w : CString} (h : ∀ n, commandOf (seen w) ≠ .add n) (ws : List CString) :
    total (w :: ws) = 0 := by
  cases hw : commandOf (seen w) with
  | add n => exact absurd hw (h n)
  | down => simp only [total, hw]
  | finish => simp only [total, hw]

/-! ### What handling a packet leaves alone -/

namespace System

variable (s : System ι) (c : ι) (result : ℤ) (b : Buffer)

@[simp] theorem handle_client : (s.handle c result b).client = s.client := by
  unfold handle; split <;> rfl

@[simp] theorem handle_inbox : (s.handle c result b).inbox = s.inbox := by
  unfold handle; split <;> rfl

@[simp] theorem handle_reply : (s.handle c result b).reply = s.reply := by
  unfold handle; split <;> rfl

@[simp] theorem handle_isOpen : (s.handle c result b).isOpen = s.isOpen := by
  unfold handle; split <;> rfl

@[simp] theorem handle_isReset : (s.handle c result b).isReset = s.isReset := by
  unfold handle; split <;> rfl

@[simp] theorem handle_backlog : (s.handle c result b).backlog = s.backlog := by
  unfold handle; split <;> rfl

@[simp] theorem handle_current : (s.handle c result b).server.current = some c := by
  unfold handle; split <;> rfl

variable {s c result b}

theorem handle_add {n : ℤ} (h : b.command = .add n) :
    s.handle c result b = { s with buffer := b, server := .reading c (CInt.wrap (result + n)) } := by
  simp only [handle, h]

theorem handle_command (h : ∀ n, b.command ≠ .add n) :
    (s.handle c result b).server = .writing c result := by
  cases hb : b.command with
  | add n => exact absurd hb (h n)
  | down => simp only [handle, hb]
  | finish => simp only [handle, hb]

end System

/-! ### The invariant -/

/-- Where a connected client stands, with the words it has still to write. -/
structure Balance (σ : Setup ι) (s : System ι) (c : ι) (unsent : List CString) : Prop where
  queued : c ∈ s.backlog → CInt.wrap (total (s.inbox c ++ σ.flow unsent)) = σ.answer c
  reading : ∀ result, s.server = .reading c result →
    CInt.InRange result ∧ CInt.wrap (result + total (s.inbox c ++ σ.flow unsent)) = σ.answer c
  writing : ∀ result, s.server = .writing c result → result = σ.answer c
  closing : s.server = .closing c → s.reply c ≠ none
  replied : ∀ b, s.reply c = some b → b.str = decimalText (σ.answer c)
  closed : s.isOpen c = false → s.reply c ≠ none ∨ s.isReset c = true
  left : s.isOpen c = false → c ∉ s.backlog ∧ s.server.current ≠ some c

structure Sound (σ : Setup ι) (s : System ι) (c : ι) : Prop where
  fresh : s.client c = .start →
    c ∉ s.backlog ∧ s.server.current ≠ some c ∧ s.inbox c = [] ∧ s.reply c = none
  balance : ∀ unsent, s.client c = .connected unsent → Balance σ s c unsent
  printed : ∀ text, s.client c = .printed text → text = decimalText (σ.answer c)

/-- No connection is in two places. -/
structure Queue (s : System ι) : Prop where
  nodup : s.backlog.Nodup
  apart : ∀ c ∈ s.backlog, s.server.current ≠ some c

structure Safe (σ : Setup ι) (s : System ι) : Prop where
  queue : Queue s
  sound : ∀ c, Sound σ s c

theorem Safe.init (σ : Setup ι) : Safe σ σ.init := by
  refine ⟨⟨List.nodup_nil, by simp [Setup.init]⟩, fun c => ⟨?_, ?_, ?_⟩⟩
  · intro _
    simp [Setup.init, Server.current]
  · intro unsent h
    simp [Setup.init] at h
  · intro text h
    simp [Setup.init] at h

section

variable {σ : Setup ι} {s t : System ι} {c d : ι}

theorem Sound.of_over (hover : (t.client c).over = true)
    (hprinted : ∀ text, t.client c = .printed text → text = decimalText (σ.answer c)) :
    Sound σ t c := by
  refine ⟨?_, ?_, hprinted⟩
  · intro h
    simp [h, Client.over] at hover
  · intro unsent h
    simp [h, Client.over] at hover

theorem Sound.of_connected {unsent : List CString} (hclient : t.client c = .connected unsent)
    (hb : Balance σ t c unsent) : Sound σ t c := by
  refine ⟨?_, ?_, ?_⟩
  · intro h
    rw [hclient] at h
    cases h
  · intro words h
    rw [hclient] at h
    cases h
    exact hb
  · intro text h
    rw [hclient] at h
    cases h

/-- A client keeps its balance while nothing happens at its connection. -/
theorem Sound.frame (h : Sound σ s d) (hclient : t.client d = s.client d)
    (hinbox : t.inbox d = s.inbox d) (hreply : t.reply d = s.reply d)
    (hclosed : t.isOpen d = false →
      t.isReset d = true ∧ d ∉ t.backlog ∧ t.server.current ≠ some d ∨
        s.isOpen d = false ∧ t.isReset d = s.isReset d)
    (hbacklog : d ∈ t.backlog → d ∈ s.backlog)
    (hserver : t.server = s.server ∨ t.server.current ≠ some d) : Sound σ t d := by
  have hat : ∀ {x : Server ι}, x.current = some d → t.server = x → s.server = x := by
    intro x hx ht
    rcases hserver with heq | hne
    · rw [← heq, ht]
    · exact absurd (ht ▸ hx) hne
  have hserved : s.server.current ≠ some d → t.server.current ≠ some d := by
    intro hs
    rcases hserver with heq | hne
    · exact heq ▸ hs
    · exact hne
  refine ⟨?_, ?_, ?_⟩
  · intro hstart
    obtain ⟨hqueue, hcurrent, hempty, hnone⟩ := h.fresh (hclient ▸ hstart)
    exact ⟨fun hd => hqueue (hbacklog hd), hserved hcurrent, hinbox ▸ hempty, hreply ▸ hnone⟩
  · intro unsent hu
    have hb := h.balance unsent (hclient ▸ hu)
    refine ⟨?_, ?_, ?_, ?_, ?_, ?_, ?_⟩
    · intro hd
      rw [hinbox]
      exact hb.queued (hbacklog hd)
    · intro r hr
      rw [hinbox]
      exact hb.reading r (hat rfl hr)
    · intro r hr
      exact hb.writing r (hat rfl hr)
    · intro hs
      rw [hreply]
      exact hb.closing (hat rfl hs)
    · intro b hreplied
      exact hb.replied b (hreply ▸ hreplied)
    · intro ho
      rcases hclosed ho with ⟨hreset, -⟩ | ⟨hopen, hreset⟩
      · exact .inr hreset
      · rw [hreply, hreset]
        exact hb.closed hopen
    · intro ho
      rcases hclosed ho with ⟨-, hleft⟩ | ⟨hopen, -⟩
      · exact hleft
      · obtain ⟨hqueue, hcurrent⟩ := hb.left hopen
        exact ⟨fun hd => hqueue (hbacklog hd), hserved hcurrent⟩
  · intro text htext
    exact h.printed text (hclient ▸ htext)

theorem Safe.ne_start (h : Safe σ s) (hc : s.server.current = some c) : s.client c ≠ .start :=
  fun hstart => ((h.sound c).fresh hstart).2.1 hc

theorem Safe.not_mem_backlog (h : Safe σ s) (hc : s.server.current = some c) : c ∉ s.backlog :=
  fun hmem => h.queue.apart c hmem hc

theorem Queue.handle (h : Queue s) (hcurrent : s.server.current = some c) (result : ℤ) (b : Buffer) :
    Queue (s.handle c result b) := by
  refine ⟨by simpa using h.nodup, ?_⟩
  intro d hd
  rw [System.handle_current, ← hcurrent]
  exact h.apart d (by simpa using hd)

theorem Sound.handle (h : Sound σ s d) (hd : d ≠ c) (result : ℤ) (b : Buffer) :
    Sound σ (s.handle c result b) d := by
  refine h.frame (by simp) (by simp) (by simp) ?_ (by simp) ?_
  · intro ho
    exact .inr ⟨by simpa using ho, by simp⟩
  · rw [System.handle_current]
    exact .inr fun heq => hd (Option.some.inj heq).symm

end

section

variable [DecidableEq ι] {σ : Setup ι} {s t : System ι} {c d : ι}

/-! ### The steps of a client -/

theorem Sound.setClient (h : Sound σ s d) (hd : d ≠ c) (client : Client) :
    Sound σ (s.setClient c client) d :=
  h.frame (by simp [System.setClient, hd]) rfl rfl (fun ho => .inr ⟨ho, rfl⟩) (fun hb => hb) (.inl rfl)

theorem Safe.finish (h : Safe σ s) {client : Client} (hover : client.over = true)
    (hprinted : ∀ text, client = .printed text → text = decimalText (σ.answer c)) :
    Safe σ (s.setClient c client) := by
  refine ⟨⟨h.queue.nodup, h.queue.apart⟩, fun d => ?_⟩
  by_cases hd : d = c
  · subst hd
    have hself : (s.setClient d client).client d = client := Function.update_self ..
    exact .of_over (by rw [hself, hover]) (by rw [hself]; exact hprinted)
  · exact (h.sound d).setClient hd client

theorem Safe.gone (h : Safe σ s) (c : ι) : Safe σ (s.setClient c .gone) :=
  h.finish rfl fun _ hgone => by cases hgone

theorem Safe.print (h : Safe σ s) {text : List UInt8} (ht : text = decimalText (σ.answer c)) :
    Safe σ (s.setClient c (.printed text)) :=
  h.finish rfl fun _ hprinted => by cases hprinted; exact ht

theorem Safe.connect (h : Safe σ s) (hc : s.client c = .start) :
    Safe σ { s.setClient c (.connected (σ.words c)) with
      isOpen := Function.update s.isOpen c true
      backlog := s.backlog ++ [c] } := by
  obtain ⟨hfresh, hcurrent, hempty, hnone⟩ := (h.sound c).fresh hc
  refine ⟨⟨?_, ?_⟩, fun d => ?_⟩
  · refine List.nodup_append.mpr ⟨h.queue.nodup, by simp, ?_⟩
    intro a ha b hb hab
    rw [List.mem_singleton.mp hb] at hab
    exact hfresh (hab ▸ ha)
  · intro d hd
    rcases List.mem_append.mp hd with hd | hd
    · exact h.queue.apart d hd
    · rw [List.mem_singleton.mp hd]
      exact hcurrent
  · by_cases hd : d = c
    · subst hd
      have hnot : ∀ {x : Server ι}, x.current = some d → s.server ≠ x := by
        intro x hx hs
        exact hcurrent (hs ▸ hx)
      refine .of_connected (Function.update_self ..) ⟨?_, ?_, ?_, ?_, ?_, ?_, ?_⟩
      · intro _
        simp only [System.setClient, hempty, List.nil_append, σ.flow_words]
        rfl
      · intro r hr
        exact absurd hr (hnot rfl)
      · intro r hr
        exact absurd hr (hnot rfl)
      · intro hs
        exact absurd hs (hnot rfl)
      · intro b hb
        simp [System.setClient, hnone] at hb
      · intro ho
        simp at ho
      · intro ho
        simp at ho
    · refine (h.sound d).frame (by simp [System.setClient, hd]) rfl rfl ?_ ?_ (.inl rfl)
      · intro ho
        exact .inr ⟨by simpa [hd] using ho, rfl⟩
      · intro hmem
        simpa [hd] using hmem

theorem Safe.send {w : CString} {ws : List CString} (h : Safe σ s)
    (hc : s.client c = .connected (w :: ws)) (taken : σ.takes w = true) :
    Safe σ { s.setClient c (.connected ws) with
      inbox := Function.update s.inbox c (s.inbox c ++ [w]) } := by
  refine ⟨⟨h.queue.nodup, h.queue.apart⟩, fun d => ?_⟩
  by_cases hd : d = c
  · subst hd
    have hb := (h.sound d).balance _ hc
    have hwords : Function.update s.inbox d (s.inbox d ++ [w]) d ++ σ.flow ws =
        s.inbox d ++ σ.flow (w :: ws) := by
      simp [σ.flow_taken taken]
    refine .of_connected (Function.update_self ..)
      ⟨?_, ?_, hb.writing, hb.closing, hb.replied, hb.closed, hb.left⟩
    · intro hmem
      rw [hwords]
      exact hb.queued hmem
    · intro r hr
      rw [hwords]
      exact hb.reading r hr
  · exact (h.sound d).frame (by simp [System.setClient, hd]) (by simp [hd]) rfl
      (fun ho => .inr ⟨ho, rfl⟩) (fun hb => hb) (.inl rfl)

/-- A word that the socket does not take was never counted; in a connection that is closed
nothing is counted any more. -/
theorem Balance.failedWrite {a w : CString} {ws : List CString} (hb : Balance σ s c (a :: w :: ws))
    (fails : s.isOpen c = false ∨ σ.takes a = false) (client : Client) :
    Balance σ (s.setClient c client) c [endWord] := by
  refine ⟨?_, ?_, hb.writing, hb.closing, hb.replied, hb.closed, hb.left⟩
  · intro hmem
    rcases fails with ho | ht
    · exact absurd hmem (hb.left ho).1
    · have hsum := hb.queued hmem
      rwa [σ.flow_refused ht] at hsum
  · intro r hr
    rcases fails with ho | ht
    · have hcurrent : s.server.current = some c := by
        rw [show s.server = .reading c r from hr]
        rfl
      exact absurd hcurrent (hb.left ho).2
    · have hsum := hb.reading r hr
      rwa [σ.flow_refused ht] at hsum

theorem Safe.failedWrite {w : CString} {ws : List CString} (h : Safe σ s)
    (hc : s.client c = .connected (w :: ws)) (fails : s.isOpen c = false ∨ σ.takes w = false) :
    Safe σ (s.setClient c (System.failedWrite ws)) := by
  cases ws with
  | nil => exact h.gone c
  | cons w' ws =>
    refine ⟨⟨h.queue.nodup, h.queue.apart⟩, fun d => ?_⟩
    by_cases hd : d = c
    · subst hd
      have hb := (h.sound d).balance _ hc
      exact .of_connected (Function.update_self ..) (hb.failedWrite fails _)
    · exact (h.sound d).setClient hd _

/-! ### The steps of the server -/

theorem Safe.accept {backlog : List ι} (h : Safe σ s) (first : s.backlog = c :: backlog) :
    Safe σ { s with server := .reading c 0, backlog := backlog } := by
  have hnodup := h.queue.nodup
  rw [first] at hnodup
  obtain ⟨hout, hrest⟩ := List.nodup_cons.mp hnodup
  have hmem : c ∈ s.backlog := by rw [first]; exact List.mem_cons_self
  refine ⟨⟨hrest, ?_⟩, fun d => ?_⟩
  · intro d hd hcurrent
    obtain rfl := Option.some.inj hcurrent
    exact hout hd
  · by_cases hd : d = c
    · subst hd
      refine ⟨?_, ?_, (h.sound d).printed⟩
      · intro hstart
        exact absurd hmem ((h.sound d).fresh hstart).1
      · intro unsent hu
        have hb := (h.sound d).balance unsent hu
        refine ⟨fun hmem' => absurd hmem' hout, ?_, ?_, ?_, hb.replied, hb.closed, ?_⟩
        · intro r hr
          obtain ⟨-, rfl⟩ := Server.reading.inj hr
          exact ⟨by decide, by rw [Int.zero_add]; exact hb.queued hmem⟩
        · intro r hr
          cases hr
        · intro hs
          cases hs
        · intro ho
          exact absurd hmem (hb.left ho).1
    · refine (h.sound d).frame rfl rfl rfl (fun ho => .inr ⟨ho, rfl⟩) ?_ ?_
      · intro hd'
        rw [first]
        exact List.mem_cons_of_mem _ hd'
      · exact .inr fun hcurrent => hd (Option.some.inj hcurrent).symm

/-- Reading a word moves it from what is still to come to what is added up. -/
theorem Balance.read {result : ℤ} {w : CString} {ws unsent : List CString} (hb : Balance σ s c unsent)
    (hs : s.server = .reading c result) (hout : c ∉ s.backlog) (first : s.inbox c = w :: ws) :
    Balance σ ({ s with inbox := Function.update s.inbox c ws }.handle c result
      (s.buffer.receive (w.bytes ++ [0]))) c unsent := by
  obtain ⟨hrange, hsum⟩ := hb.reading result hs
  rw [first, List.cons_append] at hsum
  have hcommand := s.buffer.command_receive_word w
  have hqueued : ∀ {p : Prop}, c ∈ s.backlog → p := fun hmem => absurd hmem hout
  have hleft : ∀ {p : Prop}, s.isOpen c = false → p := by
    intro p ho
    exact absurd (by rw [hs]; rfl) (hb.left ho).2
  by_cases hadd : ∃ n, commandOf (seen w) = .add n
  · obtain ⟨n, hn⟩ := hadd
    rw [total_cons_add hn, ← Int.add_assoc] at hsum
    rw [System.handle_add (hcommand.trans hn)]
    refine ⟨hqueued, ?_, nofun, nofun, hb.replied, hb.closed, hleft⟩
    intro r hr
    obtain ⟨-, rfl⟩ := Server.reading.inj hr
    refine ⟨CInt.wrap_inRange _, ?_⟩
    show CInt.wrap (CInt.wrap (result + n) + total (Function.update s.inbox c ws c ++ σ.flow unsent)) = _
    rw [CInt.wrap_wrap_add, Function.update_self]
    exact hsum
  · have hne : ∀ n, commandOf (seen w) ≠ .add n := fun n hn => hadd ⟨n, hn⟩
    rw [total_cons_command hne, Int.add_zero, CInt.wrap_eq hrange] at hsum
    have hserver : ({ s with inbox := Function.update s.inbox c ws }.handle c result
        (s.buffer.receive (w.bytes ++ [0]))).server = .writing c result :=
      System.handle_command (by rw [hcommand]; exact hne)
    refine ⟨by simpa using hqueued, ?_, ?_, ?_, by simpa using hb.replied, by simpa using hb.closed,
      fun ho => hleft (by simpa using ho)⟩
    · rw [hserver]
      exact nofun
    · intro r hr
      rw [hserver] at hr
      obtain ⟨-, rfl⟩ := Server.writing.inj hr
      exact hsum
    · rw [hserver]
      exact nofun

theorem Safe.read {result : ℤ} {w : CString} {ws : List CString} (h : Safe σ s)
    (hs : s.server = .reading c result) (first : s.inbox c = w :: ws) :
    Safe σ ({ s with inbox := Function.update s.inbox c ws }.handle c result
      (s.buffer.receive (w.bytes ++ [0]))) := by
  have hcurrent : s.server.current = some c := by rw [hs]; rfl
  have hout := h.not_mem_backlog hcurrent
  have hqueue : Queue { s with inbox := Function.update s.inbox c ws } :=
    ⟨h.queue.nodup, h.queue.apart⟩
  refine ⟨hqueue.handle hcurrent _ _, fun d => ?_⟩
  by_cases hd : d = c
  · subst hd
    refine ⟨?_, ?_, by simpa using (h.sound d).printed⟩
    · intro hstart
      rw [System.handle_client] at hstart
      exact absurd hstart (h.ne_start hcurrent)
    · intro unsent hu
      rw [System.handle_client] at hu
      exact ((h.sound d).balance unsent hu).read hs hout first
  · have hsound : Sound σ { s with inbox := Function.update s.inbox c ws } d :=
      (h.sound d).frame rfl (by simp [hd]) rfl (fun ho => .inr ⟨ho, rfl⟩) (fun hb => hb) (.inl rfl)
    exact hsound.handle hd _ _

/-- What the server makes of a client that is gone harms no other. -/
theorem Safe.readEnd {result : ℤ} (h : Safe σ s) (hs : s.server = .reading c result)
    (hend : (s.client c).over = true) (b : Buffer) : Safe σ (s.handle c result b) := by
  have hcurrent : s.server.current = some c := by rw [hs]; rfl
  refine ⟨h.queue.handle hcurrent result b, fun d => ?_⟩
  by_cases hd : d = c
  · subst hd
    exact .of_over (by simpa using hend) (by simpa using (h.sound d).printed)
  · exact (h.sound d).handle hd result b

theorem Safe.write {result : ℤ} {b : Buffer} (h : Safe σ s) (hs : s.server = .writing c result)
    (hb : s.buffer.sprintfD result = some b) :
    Safe σ { s with buffer := b, reply := Function.update s.reply c (some b), server := .closing c } := by
  have hcurrent : s.server.current = some c := by rw [hs]; rfl
  refine ⟨⟨h.queue.nodup, ?_⟩, fun d => ?_⟩
  · intro d hd
    rw [show (Server.closing c).current = s.server.current from hcurrent.symm]
    exact h.queue.apart d hd
  · by_cases hd : d = c
    · subst hd
      refine ⟨fun hstart => absurd hstart (h.ne_start hcurrent), ?_, (h.sound d).printed⟩
      intro unsent hu
      have hbal := (h.sound d).balance unsent hu
      refine ⟨hbal.queued, ?_, ?_, ?_, ?_, ?_, fun ho => absurd hcurrent (hbal.left ho).2⟩
      · intro r hr
        cases hr
      · intro r hr
        cases hr
      · intro _
        simp
      · intro b' hb'
        obtain rfl : b = b' := by simpa using hb'
        obtain rfl := hbal.writing result hs
        obtain ⟨b'', hb'', htext⟩ := s.buffer.exists_sprintfD (σ.inRange_answer d)
        obtain rfl := Option.some.inj (hb.symm.trans hb'')
        exact htext
      · intro _
        exact .inl (by simp)
    · refine (h.sound d).frame rfl rfl (by simp [hd]) (fun ho => .inr ⟨ho, rfl⟩) (fun hb => hb) ?_
      exact .inr fun heq => hd (Option.some.inj heq).symm

theorem Safe.close (h : Safe σ s) (hs : s.server = .closing c) (reset : Bool) :
    Safe σ { s with
      isOpen := Function.update s.isOpen c false
      isReset := Function.update s.isReset c reset
      server := if s.downFlag then .stopping else .accepting } := by
  have hnone : (if s.downFlag then Server.stopping else Server.accepting : Server ι).current = none := by
    split <;> rfl
  have hcurrent : s.server.current = some c := by rw [hs]; rfl
  refine ⟨⟨h.queue.nodup, fun d _ => by simp [hnone]⟩, fun d => ?_⟩
  by_cases hd : d = c
  · subst hd
    refine ⟨fun hstart => absurd hstart (h.ne_start hcurrent), ?_, (h.sound d).printed⟩
    intro unsent hu
    have hbal := (h.sound d).balance unsent hu
    have hnot : ∀ {x : Server ι}, x.current = some d →
        (if s.downFlag then Server.stopping else Server.accepting) ≠ x := by
      intro x hx heq
      rw [← heq, hnone] at hx
      cases hx
    refine ⟨hbal.queued, ?_, ?_, ?_, hbal.replied, ?_, ?_⟩
    · intro r hr
      exact absurd hr (hnot rfl)
    · intro r hr
      exact absurd hr (hnot rfl)
    · intro hr
      exact absurd hr (hnot rfl)
    · intro _
      exact .inl (hbal.closing hs)
    · intro _
      exact ⟨h.not_mem_backlog hcurrent, by simp [hnone]⟩
  · refine (h.sound d).frame rfl rfl rfl ?_ (fun hb => hb) (.inr (by simp [hnone]))
    intro ho
    exact .inr ⟨by simpa [hd] using ho, by simp [hd]⟩

/-- The listening socket goes down with the server, whichever way it ends. -/
theorem Safe.resetBacklog (h : Safe σ s) {server : Server ι} (hnone : server.current = none)
    (b : Buffer) : Safe σ { s.resetBacklog with buffer := b, server := server } := by
  refine ⟨⟨List.nodup_nil, by simp [System.resetBacklog]⟩, fun d => ?_⟩
  refine (h.sound d).frame rfl rfl rfl ?_ (by simp [System.resetBacklog]) (.inr (by simp [hnone]))
  intro ho
  simp only [System.resetBacklog, Bool.and_eq_false_iff, Bool.or_eq_true, decide_eq_false_iff_not,
    decide_eq_true_eq, not_not] at ho ⊢
  by_cases hd : d ∈ s.backlog
  · exact .inl ⟨.inr hd, by simp, by simp [hnone]⟩
  · exact .inr ⟨ho.resolve_right hd, by simp [hd]⟩

/-! ### All steps, and all runs -/

theorem Safe.step {e : Event ι} (h : Safe σ s) (hstep : Step σ s e t) : Safe σ t := by
  cases hstep with
  | connect hc _ _ => exact h.connect hc
  | refused _ _ => exact h.gone _
  | send hc _ taken _ => exact h.send hc taken
  | sendFails hc fails => exact h.failedWrite hc fails
  | reset _ _ => exact h.gone _
  | receive hc hreply =>
    apply h.print
    have htext := ((h.sound _).balance _ hc).replied _ hreply
    rw [Buffer.str_receive_buffer, htext]
    rw [htext]
    exact length_decimalText_lt (σ.inRange_answer _)
  | receiveEnd hc hintact hreply hclosed =>
    rcases ((h.sound _).balance _ hc).closed hclosed with hne | hreset
    · exact absurd hreply hne
    · rw [hreset] at hintact
      cases hintact
  | kill _ => exact h.gone _
  | accept _ first => exact h.accept first
  | read hs first => exact h.read hs first
  | readEnd hs _ hend => exact h.readEnd hs hend _
  | write hs hb _ => exact h.write hs hb
  | writeFails _ _ => exact h.resetBacklog rfl _
  | close hs => exact h.close hs _
  | stop _ => exact h.resetBacklog rfl _

theorem Setup.run_safe {events : List (Event ι)} (h : σ.run events = some s) : Safe σ s := by
  refine Trace.run_invariant (A := fun _ => True) (P := Safe σ) ?_ (Safe.init σ) (by simp) h
  intro s e t _ hs hstep
  exact hs.step (Setup.step_spec hstep)

/-- Whatever the clients do, in whatever order, a client that prints a result prints
the sum of its own numbers up to its first command, or up to the first argument that is
too large for the socket. -/
theorem printed_own_sum (σ : Setup ι) (events : List (Event ι)) (s : System ι)
    (h : σ.run events = some s) (c : ι) (text : List UInt8) (hc : s.client c = .printed text) :
    text = decimalText (CInt.wrap (total ((σ.args c).takeWhile σ.takes ++ [endWord]))) :=
  ((Setup.run_safe h).sound c).printed text hc

end

/- Two clients with the arguments 1 and 4, and -5; the socket takes packets of 100 bytes. -/
def twoClients : Setup Bool where
  args := fun c => if c then [⟨[45, 53], by decide⟩] else [⟨[49], by decide⟩, ⟨[52], by decide⟩]
  buffer := ⟨List.replicate bufferSize 0, rfl⟩
  clientBuffer := fun _ => ⟨List.replicate bufferSize 0, rfl⟩
  takes := fun w => w.bytes.length < 100
  takes_endWord := rfl
  room := fun _ => true
  room_nil := rfl

def twoClientsEvents : List (Event Bool) :=
  [.connect false, .connect true, .send true, .accept, .send false, .read, .send false, .send true,
   .read, .send false, .read, .write, .close, .accept, .receive false, .read, .read, .write,
   .receive true, .close]

theorem printed_own_sum_twoClients :
    ∃ s, twoClients.run twoClientsEvents = some s ∧ s.client false = .printed [53] ∧
      [53] = decimalText (CInt.wrap
        (total ((twoClients.args false).takeWhile twoClients.takes ++ [endWord]))) :=
  ⟨_, rfl, by decide, printed_own_sum twoClients twoClientsEvents _ rfl false [53] (by decide)⟩

end KeepalivedDevel.Uds
