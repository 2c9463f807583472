import KeepalivedDevel.ProcConnector.Message

/-!
# The receive loop of the process connector programs

`handle_proc_ev` is the same loop in `process_monitor.c`, `track_process.c` and
`track_process_ns.c`, around a different body. The loop is given here once, as
a function of its body, and `run_vars` reduces a run of it to the messages and
ENOBUFS results it gets to see.
-/

namespace KeepalivedDevel.ProcConnector

/-- What `recv` comes back with. `μ` is what a program gets to see of a message. -/
inductive Recv (μ : Type) where
  | shutdown
  | eintr
  | enobufs
  | error
  | datagram (msgs : List μ)
  deriving Repr, DecidableEq

/-- One turn of the loop, with whether SIGINT is delivered during it. The signal
handler sets `need_exit`, which the loop looks at before the next turn. -/
structure Turn (μ : Type) where
  recv : Recv μ
  sigint : Bool
  deriving Repr, DecidableEq

/-- What the programs differ in: what is done about ENOBUFS, where it is not an
error like any other, and the body of the loop over the messages of a datagram.
Besides the variables a body returns the fault it runs into, if any. -/
structure Handler (μ σ φ : Type) where
  enobufs : Option (σ → σ)
  message : σ → μ → σ × Option φ

inductive Status (φ : Type) where
  | running
  | returned (rc : ℤ)
  | fault (f : φ)
  deriving Repr, DecidableEq

def Status.ofFault {φ : Type} : Option φ → Status φ
  | none => .running
  | some f => .fault f

structure Loop (σ φ : Type) where
  needExit : Bool
  vars : σ
  status : Status φ
  deriving Repr, DecidableEq

section
variable {μ σ φ : Type} (h : Handler μ σ φ)

def Handler.each (s : Loop σ φ) (m : μ) : Loop σ φ :=
  match s.status with
  | .running => ⟨s.needExit, (h.message s.vars m).1, Status.ofFault (h.message s.vars m).2⟩
  | _ => s

def Handler.receive (s : Loop σ φ) : Recv μ → Loop σ φ
  | .shutdown => { s with status := .returned 0 }
  | .eintr => s
  | .enobufs =>
    match h.enobufs with
    | some f => { s with vars := f s.vars }
    | none => { s with status := .returned (-1) }
  | .error => { s with status := .returned (-1) }
  | .datagram msgs => msgs.foldl h.each s

def Handler.turn (s : Loop σ φ) (t : Turn μ) : Loop σ φ :=
  match s.status with
  | .running =>
    if s.needExit then { s with status := .returned 0 }
    else { h.receive s t.recv with needExit := t.sigint }
  | _ => s

def Handler.run (v : σ × Option φ) (turns : List (Turn μ)) : Loop σ φ :=
  turns.foldl h.turn ⟨false, v.1, Status.ofFault v.2⟩

/-! ### What a run gets to see -/

inductive Input (μ : Type) where
  | enobufs
  | message (m : μ)
  deriving Repr, DecidableEq

def messagesOf : List (Input μ) → List μ
  | [] => []
  | .enobufs :: inputs => messagesOf inputs
  | .message m :: inputs => m :: messagesOf inputs

/- The inputs of one turn; `none` where the function returns. -/
def Handler.inputsOf : Recv μ → Option (List (Input μ))
  | .shutdown => none
  | .eintr => some []
  | .enobufs => h.enobufs.map fun _ => [.enobufs]
  | .error => none
  | .datagram msgs => some (msgs.map .message)

def Handler.inputs : List (Turn μ) → List (Input μ)
  | [] => []
  | t :: turns =>
    match h.inputsOf t.recv with
    | none => []
    | some now => now ++ if t.sigint then [] else Handler.inputs turns

def Handler.received (turns : List (Turn μ)) : List μ := messagesOf (h.inputs turns)

/- One input taken in by the body alone. A fault is final. -/
def Handler.feed : σ × Option φ → Input μ → σ × Option φ
  | (v, some f), _ => (v, some f)
  | (v, none), .enobufs => (h.enobufs.getD id v, none)
  | (v, none), .message m => h.message v m

theorem foldl_feed_fault (v : σ) (f : φ) (inputs : List (Input μ)) :
    inputs.foldl h.feed (v, some f) = (v, some f) := by
  induction inputs with
  | nil => rfl
  | cons i inputs ih => exact ih

theorem foldl_each_fault (x : Bool) (v : σ) (f : φ) (msgs : List μ) :
    msgs.foldl h.each ⟨x, v, .fault f⟩ = ⟨x, v, .fault f⟩ := by
  induction msgs with
  | nil => rfl
  | cons m msgs ih => exact ih

theorem foldl_each (x : Bool) (v : σ) (msgs : List μ) :
    msgs.foldl h.each ⟨x, v, .running⟩ =
      ⟨x, ((msgs.map Input.message).foldl h.feed (v, none)).1,
        Status.ofFault ((msgs.map Input.message).foldl h.feed (v, none)).2⟩ := by
  induction msgs generalizing v with
  | nil => rfl
  | cons m msgs ih =>
    rw [List.foldl_cons, List.map_cons, List.foldl_cons]
    show msgs.foldl h.each ⟨x, (h.message v m).1, Status.ofFault (h.message v m).2⟩ = _
    have hfeed : h.feed (v, none) (.message m) = h.message v m := rfl
    rw [hfeed]
    rcases h.message v m with ⟨w, _ | f⟩
    · exact ih w
    · rw [foldl_feed_fault]
      exact foldl_each_fault h x w f msgs

theorem receive_inputs {r : Recv μ} {now : List (Input μ)} (hr : h.inputsOf r = some now) (v : σ) :
    h.receive ⟨false, v, .running⟩ r =
      ⟨false, (now.foldl h.feed (v, none)).1, Status.ofFault (now.foldl h.feed (v, none)).2⟩ := by
  cases r with
  | shutdown => cases hr
  | error => cases hr
  | eintr =>
    cases hr
    rfl
  | enobufs =>
    unfold Handler.inputsOf at hr
    unfold Handler.receive
    cases he : h.enobufs with
    | none => simp [he] at hr
    | some f =>
      rw [he] at hr
      cases hr
      simp only [List.foldl_cons, List.foldl_nil, Handler.feed, he, Option.getD_some]
      rfl
  | datagram msgs =>
    cases hr
    exact foldl_each h false v msgs

theorem receive_returns {r : Recv μ} (hr : h.inputsOf r = none) (v : σ) :
    ∃ rc, h.receive ⟨false, v, .running⟩ r = ⟨false, v, .returned rc⟩ := by
  cases r with
  | shutdown => exact ⟨0, rfl⟩
  | error => exact ⟨-1, rfl⟩
  | eintr => cases hr
  | enobufs =>
    unfold Handler.inputsOf at hr
    unfold Handler.receive
    cases he : h.enobufs with
    | none => exact ⟨-1, rfl⟩
    | some f => simp [he] at hr
  | datagram msgs => cases hr

theorem foldl_turn_stopped {s : Loop σ φ} (hs : s.status ≠ .running) (turns : List (Turn μ)) :
    turns.foldl h.turn s = s := by
  induction turns with
  | nil => rfl
  | cons t turns ih =>
    have ht : h.turn s t = s := by
      unfold Handler.turn
      split
      · contradiction
      · rfl
    rw [List.foldl_cons, ht]
    exact ih

theorem foldl_turn_needExit (v : σ) (turns : List (Turn μ)) :
    (turns.foldl h.turn ⟨true, v, .running⟩).vars = v := by
  cases turns with
  | nil => rfl
  | cons t turns =>
    show (turns.foldl h.turn ⟨true, v, .returned 0⟩).vars = v
    rw [foldl_turn_stopped h (by simp)]

theorem foldl_turn_running (v : σ) (turns : List (Turn μ)) :
    (turns.foldl h.turn ⟨false, v, .running⟩).vars =
      ((h.inputs turns).foldl h.feed (v, none)).1 := by
  induction turns generalizing v with
  | nil => rfl
  | cons t turns ih =>
    rw [List.foldl_cons]
    unfold Handler.inputs
    show (turns.foldl h.turn { h.receive ⟨false, v, .running⟩ t.recv with
      needExit := t.sigint }).vars = _
    cases hr : h.inputsOf t.recv with
    | none =>
      obtain ⟨rc, hrc⟩ := receive_returns h hr v
      rw [hrc, foldl_turn_stopped h (by simp)]
      rfl
    | some now =>
      rw [receive_inputs h hr, List.foldl_append]
      rcases now.foldl h.feed (v, none) with ⟨w, _ | f⟩
      · cases t.sigint with
        | true => exact foldl_turn_needExit h w turns
        | false => exact ih w
      · rw [foldl_turn_stopped h (by simp [Status.ofFault]), foldl_feed_fault]

/- A run that ends in a fault gets it from its inputs. -/
theorem run_fault {v : σ} {turns : List (Turn μ)} {f : φ}
    (hf : (h.run (v, none) turns).status = .fault f) :
    ((h.inputs turns).foldl h.feed (v, none)).2 = some f := by
  change (turns.foldl h.turn ⟨false, v, .running⟩).status = .fault f at hf
  induction turns generalizing v with
  | nil => cases hf
  | cons t turns ih =>
    rw [List.foldl_cons] at hf
    unfold Handler.inputs
    change (turns.foldl h.turn { h.receive ⟨false, v, .running⟩ t.recv with
      needExit := t.sigint }).status = _ at hf
    cases hr : h.inputsOf t.recv with
    | none =>
      obtain ⟨rc, hrc⟩ := receive_returns h hr v
      rw [hrc, foldl_turn_stopped h (by simp)] at hf
      cases hf
    | some now =>
      rw [receive_inputs h hr] at hf
      rw [List.foldl_append]
      generalize now.foldl h.feed (v, none) = p at hf ⊢
      obtain ⟨w, _ | g⟩ := p
      · cases hsig : t.sigint with
        | true =>
          rw [hsig] at hf
          cases turns with
          | nil => cases hf
          | cons u turns =>
            change (turns.foldl h.turn ⟨true, w, .returned 0⟩).status = _ at hf
            rw [foldl_turn_stopped h (by simp)] at hf
            cases hf
        | false =>
          rw [hsig] at hf
          exact ih hf
      · rw [foldl_turn_stopped h (by simp [Status.ofFault])] at hf
        cases hf
        rw [foldl_feed_fault]

/-- A run of the loop leaves the variables as its inputs alone would. -/
theorem run_vars (v : σ × Option φ) (turns : List (Turn μ)) :
    (h.run v turns).vars = ((h.inputs turns).foldl h.feed v).1 := by
  obtain ⟨v, _ | f⟩ := v
  · exact foldl_turn_running h v turns
  · rw [Handler.run, foldl_turn_stopped h (by simp [Status.ofFault]), foldl_feed_fault]

end

end KeepalivedDevel.ProcConnector
