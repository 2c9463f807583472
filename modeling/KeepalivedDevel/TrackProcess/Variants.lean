import KeepalivedDevel.TrackProcess.Code

/-!
# `track_process` against `track_process_ns`

`main` of `track_process_ns.c` leaves the file scope `proc_name` null. The two
programs go through the same values of `proc_pid` exactly until an exec event
makes `check_process` compare a command line.
-/

namespace KeepalivedDevel.TrackProcess
open ProcConnector CLib

/- An exec event whose process's command line is read. -/
def Seen.compares (x : Seen) : Bool :=
  match x.msg.event, x.file with
  | .exec _ _, .contents _ => x.msg.handled
  | _, _ => false

/- An exec event on which reading the command line fails. -/
def Seen.readFails (x : Seen) : Bool :=
  match x.msg.event, x.file with
  | .exec _ _, .noRead => x.msg.handled
  | _, _ => false

/-- The two programs with the same history, before any comparison. -/
structure Agree (name : CString) (g k : Tracker) : Prop where
  procPid : g.procPid = k.procPid
  procName : g.procName = some name
  procNameNs : k.procName = none
  compared : g.compared = []
  comparedNs : k.compared = []
  pids : g.pids = k.pids

def SameTracking (g k : Tracker) : Prop := g.compared = k.compared ∧ g.pids = k.pids

/-! ### One message -/

theorem noOpen_of_quiet {x : Seen} (hh : x.msg.handled = true) (hc : x.compares = false)
    (hr : x.readFails = false) {pid tgid : ℤ} (he : x.msg.event = .exec pid tgid) :
    x.file = .noOpen := by
  unfold Seen.compares at hc
  unfold Seen.readFails at hr
  rw [he] at hc hr
  cases hf : x.file with
  | noOpen => rfl
  | noRead => simp [hf, hh] at hr
  | contents bytes => simp [hf, hh] at hc

section
variable {name : CString} {g k : Tracker}

theorem Agree.same (h : Agree name g k) : SameTracking g k :=
  ⟨h.compared.trans h.comparedNs.symm, h.pids⟩

theorem Agree.event_quiet (h : Agree name g k) {file : Cmdline} {ev : ProcEvent}
    (hq : ∀ pid tgid, ev = .exec pid tgid → file = .noOpen) :
    ∃ g' k', event g file ev = (g', none) ∧ event k file ev = (k', none) ∧ Agree name g' k' := by
  cases ev with
  | exec pid tgid =>
    rw [hq pid tgid rfl]
    exact ⟨g, k, rfl, rfl, h⟩
  | exit pid tgid code sig =>
    by_cases hp : pid = g.procPid
    · refine ⟨_, _, if_pos hp, if_pos (hp.trans h.procPid), ?_⟩
      exact ⟨rfl, h.procName, h.procNameNs, h.compared, h.comparedNs, h.pids⟩
    · exact ⟨g, k, if_neg hp, if_neg fun he => hp (he.trans h.procPid.symm), h⟩
  | _ => exact ⟨g, k, rfl, rfl, h⟩

theorem Agree.message_quiet (h : Agree name g k) {x : Seen} (hc : x.compares = false)
    (hr : x.readFails = false) :
    ∃ g' k', message announceAll g x = (g', none) ∧ message announceNs k x = (k', none) ∧
      Agree name g' k' := by
  cases hh : x.msg.handled with
  | false => exact ⟨g, k, message_skipped announceAll g hh, message_skipped announceNs k hh, h⟩
  | true =>
    rw [message_handled announceAll g hh, message_handled announceNs k hh]
    have hprint : Agree name { g with printed := g.printed ++ announceAll x.msg.event }
        { k with printed := k.printed ++ announceNs x.msg.event } :=
      ⟨h.procPid, h.procName, h.procNameNs, h.compared, h.comparedNs, h.pids⟩
    obtain ⟨g', k', hg, hk, h'⟩ := hprint.event_quiet fun pid tgid => noOpen_of_quiet hh hc hr
    rw [hg, hk]
    refine ⟨_, _, rfl, rfl, h'.procPid, h'.procName, h'.procNameNs, h'.compared, h'.comparedNs, ?_⟩
    show g'.pids ++ [g'.procPid] = k'.pids ++ [k'.procPid]
    rw [h'.pids, h'.procPid]

theorem message_readFails (announce : ProcEvent → List Line) (g : Tracker) {x : Seen}
    (hr : x.readFails = true) :
    message announce g x =
      ({ g with printed := g.printed ++ announce x.msg.event }, some .bufUnderrun) := by
  unfold Seen.readFails at hr
  split at hr
  · next pid tgid hev hfile =>
    rw [message_handled announce g hr, hev, hfile]
    rfl
  · cases hr

theorem message_compares (h : Agree name g k) {x : Seen} (hc : x.compares = true) :
    (message announceAll g x).1.compared = [some name] ∧
      (message announceNs k x).1.compared = [none] ∧
      (message announceNs k x).2 = some .nullName := by
  unfold Seen.compares at hc
  split at hc
  · next pid tgid bytes hev hfile =>
    rw [message_handled announceAll g hc, message_handled announceNs k hc, hev, hfile]
    simp only [event, checkProcess, h.procName, h.procNameNs, h.compared, h.comparedNs]
    split_ifs <;> simp
  · cases hc

/-! ### Whole runs -/

theorem message_compared_grows (announce : ProcEvent → List Line) (g : Tracker) (x : Seen) :
    g.compared <+: (message announce g x).1.compared := by
  cases hh : x.msg.handled with
  | false => rw [message_skipped announce g hh]
  | true =>
    have hevent : ∀ (g : Tracker) (file : Cmdline) (ev : ProcEvent),
        g.compared <+: (event g file ev).1.compared := by
      intro g file ev
      unfold event checkProcess
      split <;> repeat' split
      all_goals simp
    rw [message_handled announce g hh]
    have hgrows := hevent { g with printed := g.printed ++ announce x.msg.event } x.file x.msg.event
    rcases he : event { g with printed := g.printed ++ announce x.msg.event } x.file
      x.msg.event with ⟨g', _ | f⟩ <;> rw [he] at hgrows <;> exact hgrows

theorem feed_compared_grows (announce : ProcEvent → List Line) (v : Tracker × Option Fault)
    (inputs : List (Input Seen)) :
    v.1.compared <+: (inputs.foldl (handler announce).feed v).1.compared := by
  induction inputs generalizing v with
  | nil => exact List.prefix_refl _
  | cons i inputs ih =>
    refine List.IsPrefix.trans ?_ (ih _)
    obtain ⟨g, _ | f⟩ := v
    · cases i with
      | enobufs => exact List.prefix_refl _
      | message x => exact message_compared_grows announce g x
    · exact List.prefix_refl _

theorem Agree.feed_iff (h : Agree name g k) (inputs : List (Input Seen)) :
    SameTracking (inputs.foldl (handler announceAll).feed (g, none)).1
        (inputs.foldl (handler announceNs).feed (k, none)).1 ↔
      ∀ x ∈ (messagesOf inputs).takeWhile (fun x => !x.readFails), x.compares = false := by
  induction inputs generalizing g k with
  | nil => exact ⟨fun _ x hx => absurd hx (by simp [messagesOf]), fun _ => h.same⟩
  | cons i inputs ih =>
    cases i with
    | enobufs => exact ih h
    | message x =>
      rw [List.foldl_cons, List.foldl_cons, messagesOf]
      show SameTracking (inputs.foldl (handler announceAll).feed (message announceAll g x)).1
        (inputs.foldl (handler announceNs).feed (message announceNs k x)).1 ↔ _
      cases hr : x.readFails with
      | true =>
        rw [message_readFails announceAll g hr, message_readFails announceNs k hr,
          foldl_feed_fault, foldl_feed_fault, List.takeWhile_cons_of_neg (by simp [hr])]
        exact ⟨fun _ y hy => absurd hy (by simp), fun _ => h.same⟩
      | false =>
        rw [List.takeWhile_cons_of_pos (by simp [hr]), List.forall_mem_cons]
        cases hc : x.compares with
        | false =>
          obtain ⟨g', k', hg, hk, h'⟩ := h.message_quiet hc hr
          rw [hg, hk, ih h']
          exact ⟨fun hall => ⟨rfl, hall⟩, fun hall => hall.2⟩
        | true =>
          -- the name is compared on one side only, and what has been compared
          -- is never taken back
          obtain ⟨hg, hk, hf⟩ := message_compares h hc
          have hgrows := feed_compared_grows announceAll (message announceAll g x) inputs
          refine ⟨fun hsame => absurd hsame.1 ?_, fun hall => absurd hall.1 (by simp)⟩
          rcases hmk : message announceNs k x with ⟨k', f⟩
          rw [hmk] at hk hf
          subst hf
          rw [foldl_feed_fault]
          intro he
          rw [he, hg] at hgrows
          rw [hk] at hgrows
          simp at hgrows

end

theorem inputs_announce (a b : ProcEvent → List Line) (turns : List (Turn Seen)) :
    (handler a).inputs turns = (handler b).inputs turns := by
  induction turns with
  | nil => rfl
  | cons t turns ih =>
    unfold Handler.inputs
    rw [ih]
    rfl

/- The messages handled up to the first read that fails, the initial scan's reads
included. -/
def examined (name : CString) (proc : List DirEnt) (turns : List (Turn Seen)) : List Seen :=
  match readProcs name proc with
  | .error _ => []
  | .ok _ => ((handler announceAll).received turns).takeWhile fun x => !x.readFails

theorem sameTracking_iff_no_comparison (name : CString) (proc : List DirEnt)
    (turns : List (Turn Seen)) :
    SameTracking (trackProcess (some name) proc turns).vars
        (trackProcessNs (some name) proc turns).vars ↔
      ∀ x ∈ examined name proc turns, x.compares = false := by
  unfold trackProcess trackProcessNs examined
  rw [run_vars, run_vars, inputs_announce announceNs announceAll]
  simp only [Option.getD_some]
  unfold scan
  cases readProcs name proc with
  | error f =>
    simp only [foldl_feed_fault]
    exact ⟨fun _ x hx => absurd hx (by simp), fun _ => ⟨rfl, rfl⟩⟩
  | ok r =>
    have hstart : Agree name ⟨r.1, some name, name.bytes.length, r.2, [], [r.1]⟩
        ⟨r.1, none, name.bytes.length, r.2, [], [r.1]⟩ := ⟨rfl, rfl, rfl, rfl, rfl, rfl⟩
    exact hstart.feed_iff _

/- A process called `a` starts. -/
theorem not_sameTracking_exec :
    ¬ ∀ (name : CString) (proc : List DirEnt) (turns : List (Turn Seen)),
      SameTracking (trackProcess (some name) proc turns).vars
        (trackProcessNs (some name) proc turns).vars := by
  intro h
  have hs := h ⟨[97], by decide⟩ []
    [⟨.datagram [⟨⟨3, cnIdxProc, cnValProc, 0, 0, .exec 7 7⟩, .contents [97, 0]⟩], false⟩]
  exact absurd hs.2 (by decide)

end KeepalivedDevel.TrackProcess
