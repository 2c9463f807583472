import KeepalivedDevel.Uds.Safety

/-!
# Clients of the summing server that end too early

A client that ends before its answer takes the server with it. The server does
not check for the end of the file, so that it goes round its inner loop for ever
with what is in its buffer; or it writes, and exits because the write fails.
-/

namespace KeepalivedDevel.Uds
open CLib

variable {ι : Type}

section

variable {s t : System ι} {c : ι}

/-- The server is busy with a client that is over, or has exited because of one. -/
inductive Stuck (s : System ι) : Prop where
  | reading {c : ι} {result : ℤ} (served : s.server = .reading c result)
      (hend : (s.client c).over = true)
  | writing {c : ι} {result : ℤ} (served : s.server = .writing c result)
      (hend : (s.client c).over = true)
  | dead (served : s.server = .failed)

theorem Stuck.frame (h : Stuck s) (hserver : t.server = s.server)
    (hclient : ∀ c, (s.client c).over = true → t.client c = s.client c) : Stuck t := by
  cases h with
  | reading hs ho => exact .reading (hserver.trans hs) (by rw [hclient _ ho, ho])
  | writing hs ho => exact .writing (hserver.trans hs) (by rw [hclient _ ho, ho])
  | dead hs => exact .dead (hserver.trans hs)

theorem Stuck.not_idle (h : Stuck s) :
    s.server ≠ .accepting ∧ s.server ≠ .stopping ∧ ∀ c, s.server ≠ .closing c := by
  cases h with
  | reading hs _ => simp [hs]
  | writing hs _ => simp [hs]
  | dead hs => simp [hs]

/- Whatever is in the buffer, the server stays with the client. -/
theorem Stuck.handle {result : ℤ} (hend : (s.client c).over = true) (b : Buffer) :
    Stuck (s.handle c result b) := by
  have hover : ((s.handle c result b).client c).over = true := by simpa using hend
  by_cases hadd : ∃ n, b.command = .add n
  · obtain ⟨n, hn⟩ := hadd
    exact .reading (by rw [System.handle_add hn]) hover
  · exact .writing (System.handle_command fun n hn => hadd ⟨n, hn⟩) hover

end

section

variable [DecidableEq ι] {σ : Setup ι} {s t : System ι} {c : ι}

theorem Stuck.step {e : Event ι} (h : Stuck s) (hstep : Step σ s e t) :
    Stuck t ∧ t.reply = s.reply := by
  have hkeep : ∀ {c : ι} {client : Client}, (s.client c).over = false →
      ∀ d, (s.client d).over = true → Function.update s.client c client d = s.client d := by
    intro c client hc d hd
    refine Function.update_of_ne ?_ ..
    intro hdc
    rw [hdc, hc] at hd
    cases hd
  cases hstep with
  | connect hc _ _ => exact ⟨h.frame rfl (hkeep (by rw [hc]; rfl)), rfl⟩
  | refused hc _ => exact ⟨h.frame rfl (hkeep (by rw [hc]; rfl)), rfl⟩
  | send hc _ _ _ => exact ⟨h.frame rfl (hkeep (by rw [hc]; rfl)), rfl⟩
  | sendFails hc _ => exact ⟨h.frame rfl (hkeep (by rw [hc]; rfl)), rfl⟩
  | reset hc _ => exact ⟨h.frame rfl (hkeep (by rw [hc]; rfl)), rfl⟩
  | receive hc _ => exact ⟨h.frame rfl (hkeep (by rw [hc]; rfl)), rfl⟩
  | receiveEnd hc _ _ _ => exact ⟨h.frame rfl (hkeep (by rw [hc]; rfl)), rfl⟩
  | kill hc => exact ⟨h.frame rfl (hkeep (by rw [hc]; rfl)), rfl⟩
  | accept hs _ => exact (h.not_idle.1 hs).elim
  | read hs _ =>
    cases h with
    | reading hs' ho =>
      obtain ⟨rfl, -⟩ := Server.reading.inj (hs.symm.trans hs')
      exact ⟨Stuck.handle (by exact ho) _, System.handle_reply ..⟩
    | writing hs' _ => rw [hs] at hs'; cases hs'
    | dead hs' => rw [hs] at hs'; cases hs'
  | readEnd hs _ ho => exact ⟨.handle ho _, System.handle_reply ..⟩
  | write hs _ ho =>
    cases h with
    | reading hs' _ => rw [hs] at hs'; cases hs'
    | writing hs' ho' =>
      obtain ⟨rfl, -⟩ := Server.writing.inj (hs.symm.trans hs')
      rw [ho] at ho'
      cases ho'
    | dead hs' => rw [hs] at hs'; cases hs'
  | writeFails _ _ => exact ⟨.dead rfl, rfl⟩
  | close hs => exact (h.not_idle.2.2 _ hs).elim
  | stop hs => exact (h.not_idle.2.1 hs).elim

/-- A client prints what it has been sent: without an answer no step makes it print. -/
theorem Safe.silent {e : Event ι} {text : List UInt8} (h : Safe σ s) (hstep : Step σ s e t)
    (hc : s.reply c = none) (hprinted : t.client c = .printed text) : s.client c = .printed text := by
  have hother : ∀ {d : ι} {client : Client}, Function.update s.client d client c = .printed text →
      client ≠ .printed text → s.client c = .printed text := by
    intro d client hupdate hne
    by_cases hd : c = d
    · rw [hd, Function.update_self] at hupdate
      exact absurd hupdate hne
    · rwa [Function.update_of_ne hd] at hupdate
  cases hstep with
  | connect _ _ _ => exact hother hprinted nofun
  | refused _ _ => exact hother hprinted nofun
  | send _ _ _ _ => exact hother hprinted nofun
  | sendFails _ _ => exact hother hprinted (System.failedWrite_ne_printed _ _)
  | reset _ _ => exact hother hprinted nofun
  | @receive d _ _ hreply =>
    by_cases hd : c = d
    · rw [hd, hreply] at hc
      cases hc
    · simpa [System.setClient, hd] using hprinted
  | receiveEnd hd hintact hreply hclosed =>
    rcases ((h.sound _).balance _ hd).closed hclosed with hne | hreset
    · exact absurd hreply hne
    · rw [hreset] at hintact
      cases hintact
  | kill _ => exact hother hprinted nofun
  | accept _ _ => exact hprinted
  | read _ _ => simpa using hprinted
  | readEnd _ _ _ => simpa using hprinted
  | write _ _ _ => exact hprinted
  | writeFails _ _ => exact hprinted
  | close _ => exact hprinted
  | stop _ => exact hprinted

/-- Every client that has printed has been sent an answer. -/
def Answered (s : System ι) : Prop := ∀ c text, s.client c = .printed text → s.reply c ≠ none

theorem Step.reply_ne_none {e : Event ι} (hstep : Step σ s e t) (hc : s.reply c ≠ none) :
    t.reply c ≠ none := by
  cases hstep with
  | @write d _ b _ _ _ =>
    by_cases hd : c = d
    · simp [hd]
    · simpa [hd] using hc
  | read _ _ => simpa using hc
  | readEnd _ _ _ => simpa using hc
  | _ => exact hc

theorem Answered.step {e : Event ι} (h : Answered s) (hsafe : Safe σ s) (hstep : Step σ s e t) :
    Answered t := by
  intro c text hprinted
  by_cases hc : s.reply c = none
  · exact absurd hc (h c text (hsafe.silent hstep hc hprinted))
  · exact hstep.reply_ne_none hc

theorem Setup.run_answered {events : List (Event ι)} (h : σ.run events = some s) : Answered s := by
  have hinv := Trace.run_invariant (A := fun _ => True) (P := fun u => Safe σ u ∧ Answered u)
    ?_ ⟨Safe.init σ, nofun⟩ (by simp) h
  · exact hinv.2
  · intro u e v _ ⟨hsafe, hanswered⟩ hstep
    have hspec := Setup.step_spec hstep
    exact ⟨hsafe.step hspec, hanswered.step hsafe hspec⟩

/-- Once a client is gone while the server has still to answer it, no client that has
not been answered by then ever is, whatever happens afterwards. -/
theorem lost_client_blocks_server (σ : Setup ι) (before after : List (Event ι)) (s t : System ι)
    (hbefore : σ.run before = some s) (c : ι) (result : ℤ)
    (busy : s.server = .reading c result ∨ s.server = .writing c result)
    (gone : s.client c = .gone) (hafter : Trace.run σ.step s after = some t)
    (d : ι) (unanswered : s.reply d = none) (text : List UInt8) :
    t.client d ≠ .printed text := by
  have hover : (s.client c).over = true := by rw [gone]; rfl
  have hstuck : Stuck s := by
    rcases busy with hs | hs
    · exact .reading hs hover
    · exact .writing hs hover
  have hinv := Trace.run_invariant (A := fun _ => True)
    (P := fun u => Safe σ u ∧ Stuck u ∧ Answered u ∧ u.reply d = none)
    ?_ ⟨Setup.run_safe hbefore, hstuck, Setup.run_answered hbefore, unanswered⟩ (by simp) hafter
  · obtain ⟨-, -, hanswered, hnone⟩ := hinv
    exact fun hprinted => hanswered d text hprinted hnone
  · intro u e v _ ⟨hsafe, hstuck, hanswered, hnone⟩ hstep
    have hspec := Setup.step_spec hstep
    obtain ⟨hstuck', hreply⟩ := hstuck.step hspec
    exact ⟨hsafe.step hspec, hstuck', hanswered.step hsafe hspec, by rw [hreply, hnone]⟩

end

/- The server has read the first word of a client that is then killed; the other client has
written all its words. -/
def killEvents : List (Event Bool) :=
  [.connect false, .connect true, .send false, .accept, .read, .send true, .send true, .kill false]

theorem lost_client_blocks_twoClients :
    ∃ s t, twoClients.run killEvents = some s ∧ s.server = .reading false 1 ∧
      s.client false = .gone ∧ Trace.run twoClients.step s [.read, .read] = some t ∧
      s.reply true = none ∧ ∀ text, t.client true ≠ .printed text :=
  ⟨_, _, rfl, rfl, rfl, rfl, rfl, lost_client_blocks_server twoClients killEvents [.read, .read] _ _
    rfl false 1 (.inl rfl) rfl rfl true rfl⟩

end KeepalivedDevel.Uds
