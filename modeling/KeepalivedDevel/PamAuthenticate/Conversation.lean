import Mathlib.Data.Int.Notation
import Mathlib.Data.Nat.Notation
import Mathlib.Tactic.Common

/-!
# `pam_tty_conv` of `code_test/pam_authenticate.c`

The conversation answers each prompt with a copy of the password. When a message
cannot be handled it is to release what it has allocated, but `r` then points at the
response of that message and no longer at the block.
-/

namespace KeepalivedDevel.PamAuthenticate

inductive Style where
  | promptEchoOff
  | promptEchoOn
  | errorMsg
  | textInfo
  | other (style : ℤ)
  deriving DecidableEq

structure Message where
  msg : Option (List UInt8)
  style : Style
  deriving DecidableEq

/-- A message, whether `strdup` has memory while it is handled, and whether `errno` is
EINTR after it. -/
structure Turn where
  message : Message
  memory : Bool
  interrupted : Bool
  deriving DecidableEq

/-- The block of responses, unless it has been freed, and how many copies of the
password are allocated. -/
structure Heap where
  block : Option (List (Option (List UInt8)))
  copies : ℕ
  deriving DecidableEq

inductive Outcome where
  | badNumber
  | bufErr
  | success (heap : Heap)
  | convErr (heap : Heap)
  | undefined
  deriving DecidableEq

def pamMaxNumMsg : ℕ := 32

/-! ### `free_resp` (`pam_authenticate.c:31-49`) -/

/- The loop, with the number of responses left and the index of `r` in the block. None is an
access outside of the block. -/
def clearResponses : ℕ → ℕ → Heap → Option Heap
  | 0, _, h => some h
  | num + 1, r, h =>
    match h.block.bind fun block => block[r]? with
    | none => none
    | some none => clearResponses num (r + 1) h
    | some (some _) =>
      clearResponses num (r + 1) ⟨h.block.map fun block => block.set r none, h.copies - 1⟩

/- Only the address of the block itself can be freed. -/
def freeResp (num pr : ℕ) (h : Heap) : Option Heap :=
  match clearResponses num pr h with
  | none => none
  | some h => if pr = 0 then some { h with block := none } else none

/-! ### `pam_tty_conv` (`pam_authenticate.c:51-138`) -/

def Heap.respond (h : Heap) (i : ℕ) (resp : Option (List UInt8)) : Heap :=
  ⟨h.block.map fun block => block.set i resp, if resp.isSome then h.copies + 1 else h.copies⟩

/-- The response to a message, or none if it cannot be handled. -/
def Turn.resp (passwd : List UInt8) (t : Turn) : Option (Option (List UInt8)) :=
  match t.message.msg with
  | none => none
  | some _ =>
    match t.message.style with
    | .promptEchoOff | .promptEchoOn => some (if t.memory then some passwd else none)
    | .errorMsg | .textInfo => some none
    | .other _ => none

def converse (passwd : List UInt8) (i : ℕ) (h : Heap) : List Turn → Outcome
  | [] => .success h
  | t :: ts =>
    match t.resp passwd with
    | none => ((freeResp i i h).map Outcome.convErr).getD .undefined
    | some resp =>
      if t.interrupted then
        ((freeResp i i (h.respond i resp)).map Outcome.convErr).getD .undefined
      else converse passwd (i + 1) (h.respond i resp) ts

def pamTtyConv (passwd : List UInt8) (memory : Bool) (turns : List Turn) : Outcome :=
  if turns.length ≤ 0 ∨ pamMaxNumMsg ≤ turns.length then .badNumber
  else if !memory then .bufErr
  else converse passwd 0 ⟨some (List.replicate turns.length none), 0⟩ turns

/-! ### What becomes of the responses -/

def Turn.fails (passwd : List UInt8) (t : Turn) : Prop :=
  t.resp passwd = none ∨ t.interrupted = true

/- With `r` behind the first response there is no way to free the block. -/
theorem freeResp_behind {i : ℕ} (hi : 0 < i) (num : ℕ) (h : Heap) : freeResp num i h = none := by
  rw [freeResp]
  split
  · rfl
  · rw [if_neg (by omega)]

theorem converse_cons {passwd : List UInt8} {t : Turn} {resp : Option (List UInt8)}
    (hresp : t.resp passwd = some resp) (hinterrupted : t.interrupted = false) (i : ℕ) (h : Heap)
    (ts : List Turn) :
    converse passwd i h (t :: ts) = converse passwd (i + 1) (h.respond i resp) ts := by
  simp [converse, hresp, hinterrupted]

theorem resp_of_not_fails {passwd : List UInt8} {t : Turn} (h : ¬ t.fails passwd) :
    ∃ resp, t.resp passwd = some resp ∧ t.interrupted = false := by
  unfold Turn.fails at h
  push Not at h
  obtain ⟨resp, hresp⟩ := Option.ne_none_iff_exists'.mp h.1
  exact ⟨resp, hresp, by simpa using h.2⟩

/- The response left by a message that has been handled. -/
def Turn.answer (passwd : List UInt8) (t : Turn) : Option (List UInt8) := (t.resp passwd).join

theorem converse_success {passwd : List UInt8} {ts : List Turn} (h : ∀ t ∈ ts, ¬ t.fails passwd)
    (done : List (Option (List UInt8))) (copies : ℕ) :
    converse passwd done.length ⟨some (done ++ List.replicate ts.length none), copies⟩ ts =
      .success ⟨some (done ++ ts.map (Turn.answer passwd)),
        copies + ts.countP fun t => (t.answer passwd).isSome⟩ := by
  induction ts generalizing done copies with
  | nil => simp [converse]
  | cons t ts ih =>
    obtain ⟨ht, hts⟩ := List.forall_mem_cons.mp h
    obtain ⟨resp, hresp, hinterrupted⟩ := resp_of_not_fails ht
    have hanswer : t.answer passwd = resp := by rw [Turn.answer, hresp, Option.join_some]
    have hrest := ih hts (done ++ [resp]) (if resp.isSome then copies + 1 else copies)
    rw [List.length_append, List.length_singleton] at hrest
    rw [converse_cons hresp hinterrupted]
    have hheap : Heap.respond ⟨some (done ++ List.replicate (t :: ts).length none), copies⟩
        done.length resp =
          ⟨some (done ++ [resp] ++ List.replicate ts.length none),
            if resp.isSome then copies + 1 else copies⟩ := by
      simp [Heap.respond, List.replicate_succ]
    rw [hheap, hrest, List.map_cons, List.countP_cons, hanswer]
    cases resp with
    | none => simp
    | some text => simp [Nat.add_assoc, Nat.add_comm 1]

theorem converse_undefined {passwd : List UInt8} {ts : List Turn} (h : ∃ t ∈ ts, t.fails passwd)
    {i : ℕ} (hi : 0 < i) (heap : Heap) : converse passwd i heap ts = .undefined := by
  induction ts generalizing i heap with
  | nil => simp at h
  | cons t ts ih =>
    by_cases ht : t.fails passwd
    · rw [converse]
      rcases ht with hnone | hinterrupted
      · simp [hnone, freeResp_behind hi]
      · cases t.resp passwd <;> simp [hinterrupted, freeResp_behind hi]
    · obtain ⟨resp, hresp, hinterrupted⟩ := resp_of_not_fails ht
      rw [converse_cons hresp hinterrupted]
      obtain ⟨u, hu, hfails⟩ := h
      refine ih ⟨u, (List.mem_cons.mp hu).resolve_left fun heq => ?_, hfails⟩ (Nat.succ_pos i) _
      exact ht (heq ▸ hfails)

/-- If all messages can be handled, every prompt has its own copy of the password as its
response. If the first cannot, the block is freed, and a copy made for it is left. If any
other cannot, an address inside of the block is freed. -/
theorem conversation_outcome (passwd : List UInt8) (t : Turn) (ts : List Turn)
    (hnumber : ts.length + 1 < pamMaxNumMsg) :
    let outcome := pamTtyConv passwd true (t :: ts)
    ((∀ u ∈ t :: ts, ¬ u.fails passwd) →
      outcome = .success ⟨some ((t :: ts).map (Turn.answer passwd)),
        (t :: ts).countP fun u => (u.answer passwd).isSome⟩) ∧
    (t.fails passwd →
      outcome = .convErr ⟨none, if (t.answer passwd).isSome then 1 else 0⟩) ∧
    (¬ t.fails passwd → (∃ u ∈ ts, u.fails passwd) → outcome = .undefined) := by
  have hstart : pamTtyConv passwd true (t :: ts) =
      converse passwd 0 ⟨some (List.replicate (t :: ts).length none), 0⟩ (t :: ts) := by
    rw [pamTtyConv, if_neg, if_neg (by simp)]
    rw [List.length_cons]
    omega
  intro outcome
  refine ⟨fun h => ?_, fun h => ?_, fun ht h => ?_⟩
  · simpa using hstart.trans (converse_success h [] 0)
  · refine hstart.trans ?_
    rw [converse]
    rcases h with hnone | hinterrupted
    · simp [hnone, freeResp, clearResponses, Turn.answer]
    · cases hresp : t.resp passwd with
      | none => simp [freeResp, clearResponses, Turn.answer, hresp]
      | some resp =>
        simp [hinterrupted, freeResp, clearResponses, Turn.answer, hresp, Heap.respond]
  · obtain ⟨resp, hresp, hinterrupted⟩ := resp_of_not_fails ht
    have hnext := hstart.trans (converse_cons hresp hinterrupted _ _ _)
    exact hnext.trans (converse_undefined h (Nat.succ_pos 0) _)

/- A prompt and a message without a text. -/
theorem conversation_outcome_second :
    pamTtyConv [112] true [⟨⟨some [63], .promptEchoOff⟩, true, false⟩,
      ⟨⟨none, .textInfo⟩, true, false⟩] = .undefined :=
  (conversation_outcome [112] ⟨⟨some [63], .promptEchoOff⟩, true, false⟩
    [⟨⟨none, .textInfo⟩, true, false⟩] (by decide)).2.2 (by simp [Turn.fails, Turn.resp])
    ⟨_, List.mem_cons_self, .inl rfl⟩

end KeepalivedDevel.PamAuthenticate
