import KeepalivedDevel.ProcConnector.Message
import KeepalivedDevel.CLib.ByteOrder
import KeepalivedDevel.CLib.While

/-!
# The bytes of a datagram that `handle_proc_ev` reads

`process_monitor.c` and `track_process.c` walk over a datagram with the macros
of `linux/netlink.h` and overlay `struct cn_msg` and `struct proc_event` on what
is behind each header. The macros see to the header. Nothing compares the rest
of a message with the structures, so a short message is read beyond its end.
-/

namespace KeepalivedDevel.ProcConnector
open CLib CLib.While

/-- `buf` after `recv` returned `received`. Memory goes on behind the bytes
received, with whatever was there before. -/
structure Datagram where
  order : ByteOrder
  mem : ℕ → UInt8
  received : ℕ
  fits : received ≤ 4096

/-! ### The macros of `linux/netlink.h` -/

-- sizeof (struct nlmsghdr), which is also NLMSG_HDRLEN
def hdrLen : ℕ := 16

def Datagram.nlmsgLen (d : Datagram) (ofs : ℕ) : ℕ := load32 d.order d.mem ofs

-- (len + NLMSG_ALIGNTO - 1) & ~(NLMSG_ALIGNTO - 1)
def nlmsgAlign (len : ℕ) : ℕ := (len + 3) % 4294967296 / 4 * 4

/- `nlmsghdr - buf` and `len`, which may become negative. -/
structure Walk where
  ofs : ℕ
  len : ℤ
  deriving Repr, DecidableEq

def Datagram.nlmsgOk (d : Datagram) (w : Walk) : Bool :=
  (hdrLen : ℤ) ≤ w.len && hdrLen ≤ d.nlmsgLen w.ofs && (d.nlmsgLen w.ofs : ℤ) ≤ w.len

def Datagram.nlmsgNext (d : Datagram) (w : Walk) : Walk :=
  ⟨w.ofs + nlmsgAlign (d.nlmsgLen w.ofs), w.len - nlmsgAlign (d.nlmsgLen w.ofs)⟩

/- The `for` loop. Every way through its body ends with the next message. -/
def Datagram.walkBody (d : Datagram) (w : Walk) : Pass Walk Unit :=
  if d.nlmsgOk w then .again (d.nlmsgNext w) else .leave ()

def Datagram.start (d : Datagram) : Walk := ⟨0, d.received⟩

/- The loop gets to see a message at `w`. -/
def Datagram.Meets (d : Datagram) (w : Walk) : Prop :=
  Reaches d.walkBody d.start w ∧ d.nlmsgOk w = true

/-! ### The fields read of a message -/

inductive Program where
  | trackProcess
  | processMonitor
  deriving Repr, DecidableEq

/- `enum what`, as far as the programs tell its values apart. -/
inductive EventKind where
  | none
  | fork
  | exec
  | uid
  | gid
  | sid
  | ptrace
  | comm
  | coredump
  | exit
  | unhandled
  deriving Repr, DecidableEq

def EventKind.ofWhat (what : ℕ) : EventKind :=
  if what = 0 then .none
  else if what = 0x1 then .fork
  else if what = 0x2 then .exec
  else if what = 0x4 then .uid
  else if what = 0x40 then .gid
  else if what = 0x80 then .sid
  else if what = 0x100 then .ptrace
  else if what = 0x200 then .comm
  else if what = 0x40000000 then .coredump
  else if what = 0x80000000 then .exit
  else .unhandled

/- A field: its place behind the start of the message, and its size. -/
structure Field where
  ofs : ℕ
  size : ℕ
  pos : 0 < size
  deriving DecidableEq

-- struct nlmsghdr, and behind it struct cn_msg
def nlmsgLenField : Field := ⟨0, 4, by decide⟩
def nlmsgTypeField : Field := ⟨4, 2, by decide⟩
def idxField : Field := ⟨16, 4, by decide⟩
def valField : Field := ⟨20, 4, by decide⟩
def seqField : Field := ⟨24, 4, by decide⟩

-- struct proc_event, behind the 20 bytes of struct cn_msg
def whatField : Field := ⟨36, 4, by decide⟩
def cpuField : Field := ⟨40, 4, by decide⟩
def eventData : ℕ := 52

/- The member `comm` behind two words of the event data. -/
def commOfs : ℕ := 60

def Datagram.isControl (d : Datagram) (ofs : ℕ) : Bool :=
  load16 d.order d.mem (ofs + nlmsgTypeField.ofs) = nlmsgError.toNat ||
    load16 d.order d.mem (ofs + nlmsgTypeField.ofs) = nlmsgNoop.toNat

def Datagram.isIdx (d : Datagram) (ofs : ℕ) : Bool :=
  load32 d.order d.mem (ofs + idxField.ofs) = cnIdxProc.toNat

def Datagram.isVal (d : Datagram) (ofs : ℕ) : Bool :=
  load32 d.order d.mem (ofs + valField.ofs) = cnValProc.toNat

def Datagram.kind (d : Datagram) (ofs : ℕ) : EventKind :=
  .ofWhat (load32 d.order d.mem (ofs + whatField.ofs))

/- How many words of the event data the switch passes on to `printf`. -/
def Program.dataWords : Program → EventKind → ℕ
  | .trackProcess, .none => 1
  | .processMonitor, .none => 0
  | _, .fork | _, .uid | _, .gid | _, .ptrace => 4
  | _, .exec | _, .sid | _, .comm | _, .coredump => 2
  | .trackProcess, .exit => 3
  | .processMonitor, .exit => 4
  | _, .unhandled => 0

def dataFields (n : ℕ) : List Field := (List.range n).map fun k => ⟨eventData + 4 * k, 4, by decide⟩

/- For an event; `process_monitor.c` puts the CPU and the number in front of it and
uses them again afterwards. -/
def Program.eventFields : Program → EventKind → List Field
  | .trackProcess, kind => whatField :: dataFields (Program.trackProcess.dataWords kind)
  | .processMonitor, kind => cpuField :: seqField :: whatField ::
      dataFields (Program.processMonitor.dataWords kind) ++ [cpuField, seqField]

/- For a message that is not from the process connector. -/
def Program.otherFields : Program → List Field
  | .trackProcess => []
  | .processMonitor => [idxField, valField]

/-- The fields read of the message at `ofs`, in the order of the source. -/
def Program.fields (prog : Program) (d : Datagram) (ofs : ℕ) : List Field :=
  nlmsgLenField :: nlmsgTypeField ::
    if d.isControl ofs then []
    else idxField ::
      if !d.isIdx ofs then prog.otherFields
      else valField ::
        if !d.isVal ofs then prog.otherFields else prog.eventFields (d.kind ofs)

/- Whether `comm` is printed. -/
def Datagram.readsComm (d : Datagram) (ofs : ℕ) : Bool :=
  !d.isControl ofs && d.isIdx ofs && d.isVal ofs && d.kind ofs = .comm

/-- The bytes read of the message at `ofs`. The string is read up to the first NUL,
wherever that is. -/
def Program.ReadsByte (prog : Program) (d : Datagram) (ofs i : ℕ) : Prop :=
  (∃ f ∈ prog.fields d ofs, ofs + f.ofs ≤ i ∧ i < ofs + f.ofs + f.size) ∨
    (d.readsComm ofs = true ∧ ofs + commOfs ≤ i ∧ ∀ j, ofs + commOfs ≤ j → j < i → d.mem j ≠ 0)

/-- What is read of a message lies in the message, and the message in what was
received. -/
def Program.ReadsInside (prog : Program) (d : Datagram) : Prop :=
  ∀ w, d.Meets w → ∀ i, prog.ReadsByte d w.ofs i →
    w.ofs ≤ i ∧ i < w.ofs + d.nlmsgLen w.ofs ∧ w.ofs + d.nlmsgLen w.ofs ≤ d.received

/-! ### How far a message is read -/

/- The end of the last field. -/
def Program.extent (prog : Program) (d : Datagram) (ofs : ℕ) : ℕ :=
  if d.isControl ofs then hdrLen
  else if !d.isIdx ofs then
    match prog with
    | .trackProcess => 20
    | .processMonitor => 24
  else if !d.isVal ofs then 24
  else if prog.dataWords (d.kind ofs) = 0 then
    match prog with
    | .trackProcess => 40
    | .processMonitor => 44
  else eventData + 4 * prog.dataWords (d.kind ofs)

/-- The message is as long as what is read of it, and a string that is printed ends
inside it. -/
def Program.Covers (prog : Program) (d : Datagram) (ofs : ℕ) : Prop :=
  prog.extent d ofs ≤ d.nlmsgLen ofs ∧
    (d.readsComm ofs = true → ∃ k, commOfs ≤ k ∧ k < d.nlmsgLen ofs ∧ d.mem (ofs + k) = 0)

theorem dataFields_le_iff (words n : ℕ) :
    (∀ f ∈ dataFields words, f.ofs + f.size ≤ n) ↔ words = 0 ∨ eventData + 4 * words ≤ n := by
  simp only [dataFields, List.mem_map, List.mem_range, forall_exists_index, and_imp,
    forall_apply_eq_imp_iff₂]
  constructor
  · intro h
    cases words with
    | zero => exact .inl rfl
    | succ words =>
      have hlast := h words (Nat.lt_succ_self _)
      exact .inr (by omega)
  · rintro h k hk
    omega

theorem eventFields_le_iff (prog : Program) (kind : EventKind) (n : ℕ) :
    (∀ f ∈ prog.eventFields kind, f.ofs + f.size ≤ n) ↔
      (if prog.dataWords kind = 0 then
        match prog with
        | .trackProcess => 40
        | .processMonitor => 44
      else eventData + 4 * prog.dataWords kind) ≤ n := by
  have hdata := dataFields_le_iff (prog.dataWords kind) n
  cases prog with
  | trackProcess =>
    rw [Program.eventFields, List.forall_mem_cons, hdata]
    split <;> simp only [whatField, eventData] <;> omega
  | processMonitor =>
    simp only [Program.eventFields, List.cons_append, List.forall_mem_cons, List.forall_mem_append,
      hdata, List.not_mem_nil, false_implies, implies_true, and_true]
    split <;> simp only [whatField, cpuField, seqField, eventData] <;> omega

theorem fields_le_iff (prog : Program) (d : Datagram) (ofs : ℕ) {n : ℕ} (hn : hdrLen ≤ n) :
    (∀ f ∈ prog.fields d ofs, f.ofs + f.size ≤ n) ↔ prog.extent d ofs ≤ n := by
  unfold Program.fields Program.extent
  unfold hdrLen at hn ⊢
  rw [List.forall_mem_cons, List.forall_mem_cons]
  cases hc : d.isControl ofs with
  | true =>
    simp [nlmsgLenField, nlmsgTypeField]
    omega
  | false =>
    cases hi : d.isIdx ofs with
    | false => cases prog <;> simp [nlmsgLenField, nlmsgTypeField, idxField, valField,
        Program.otherFields] <;> omega
    | true =>
      cases hv : d.isVal ofs with
      | false => cases prog <;> simp [nlmsgLenField, nlmsgTypeField, idxField, valField,
          Program.otherFields] <;> omega
      | true =>
        simp only [Bool.false_eq_true, ite_false, Bool.not_true, List.forall_mem_cons,
          eventFields_le_iff]
        constructor
        · exact fun h => h.2.2.2.2
        · intro h
          have hval : 24 ≤ n := by
            revert h
            unfold eventData
            split
            · cases prog <;> dsimp only <;> omega
            · omega
          simp only [nlmsgLenField, nlmsgTypeField, idxField, valField]
          exact ⟨by omega, by omega, by omega, hval, h⟩

theorem extent_comm {d : Datagram} {ofs : ℕ} (prog : Program) (h : d.readsComm ofs = true) :
    prog.extent d ofs = commOfs := by
  simp only [Datagram.readsComm, Bool.and_eq_true, Bool.not_eq_true', decide_eq_true_eq] at h
  obtain ⟨⟨⟨hc, hi⟩, hv⟩, hk⟩ := h
  simp only [Program.extent, hc, hi, hv, hk]
  cases prog <;> rfl

/- A string printed from a place in a message ends inside the message exactly if
there is a NUL from that place on. -/
theorem string_inside_iff (mem : ℕ → UInt8) {ofs start n : ℕ} (hs : start ≤ n) :
    (∀ i, ofs + start ≤ i → (∀ j, ofs + start ≤ j → j < i → mem j ≠ 0) → i < ofs + n) ↔
      ∃ k, start ≤ k ∧ k < n ∧ mem (ofs + k) = 0 := by
  constructor
  · intro h
    by_contra hno
    refine absurd (h (ofs + n) (by omega) fun j hlo hhi hj => hno ⟨j - ofs, ?_, ?_, ?_⟩) (by omega)
    · omega
    · omega
    · rwa [show ofs + (j - ofs) = j by omega]
  · rintro ⟨k, hlo, hhi, hk⟩ i _ hi
    by_contra hge
    exact hi (ofs + k) (by omega) (by omega) hk

theorem reads_inside_message_iff (prog : Program) (d : Datagram) {ofs : ℕ}
    (hn : hdrLen ≤ d.nlmsgLen ofs) :
    (∀ i, prog.ReadsByte d ofs i → ofs ≤ i ∧ i < ofs + d.nlmsgLen ofs) ↔ prog.Covers d ofs := by
  unfold Program.Covers
  rw [← fields_le_iff prog d ofs hn]
  constructor
  · intro h
    have hfields : ∀ f ∈ prog.fields d ofs, f.ofs + f.size ≤ d.nlmsgLen ofs := by
      intro f hf
      have hpos := f.pos
      have hlast := h (ofs + f.ofs + f.size - 1) (.inl ⟨f, hf, by omega, by omega⟩)
      omega
    refine ⟨hfields, fun hcomm => ?_⟩
    have hle := (fields_le_iff prog d ofs hn).mp hfields
    rw [extent_comm prog hcomm] at hle
    exact (string_inside_iff d.mem hle).mp fun i hlo hi => (h i (.inr ⟨hcomm, hlo, hi⟩)).2
  · rintro ⟨hfields, hstring⟩ i (⟨f, hf, hlo, hhi⟩ | ⟨hcomm, hlo, hi⟩)
    · have hle := hfields f hf
      omega
    · have hle := (fields_le_iff prog d ofs hn).mp hfields
      rw [extent_comm prog hcomm] at hle
      have hlt := (string_inside_iff d.mem hle).mpr (hstring hcomm) i hlo hi
      omega

/-! ### The walk -/

theorem reaches_end {d : Datagram} {w : Walk} (h : Reaches d.walkBody d.start w) :
    (w.ofs : ℤ) + w.len = d.received := by
  induction h with
  | enter => simp [Datagram.start]
  | pass _ hb ih =>
    unfold Datagram.walkBody at hb
    split at hb
    · cases hb
      simp only [Datagram.nlmsgNext]
      omega
    · cases hb

theorem meets_inside {d : Datagram} {w : Walk} (h : d.Meets w) :
    hdrLen ≤ d.nlmsgLen w.ofs ∧ w.ofs + d.nlmsgLen w.ofs ≤ d.received := by
  have hend := reaches_end h.1
  have hok := h.2
  simp only [Datagram.nlmsgOk, Bool.and_eq_true, decide_eq_true_eq] at hok
  omega

theorem reads_inside_iff (prog : Program) (d : Datagram) :
    (∀ w, Reaches d.walkBody d.start w → (hdrLen : ℤ) ≤ w.len → w.ofs + hdrLen ≤ d.received) ∧
    (prog.ReadsInside d ↔ ∀ w, d.Meets w → prog.Covers d w.ofs) := by
  constructor
  · intro w hw hlen
    have hend := reaches_end hw
    omega
  · constructor
    · intro h w hw
      refine (reads_inside_message_iff prog d (meets_inside hw).1).mp fun i hi => ?_
      obtain ⟨hlo, hhi, _⟩ := h w hw i hi
      exact ⟨hlo, hhi⟩
    · intro h w hw i hi
      obtain ⟨hlen, hrecv⟩ := meets_inside hw
      obtain ⟨hlo, hhi⟩ := (reads_inside_message_iff prog d hlen).mpr (h w hw) i hi
      exact ⟨hlo, hhi, hrecv⟩

/- A datagram of one bare header, as NLMSG_DONE has it. -/
def bareHeader : Datagram where
  order := .little
  mem := fun i => [16, 0, 0, 0, 3].getD i 0
  received := 16
  fits := by decide

theorem bareHeader_reads_outside (prog : Program) : ¬ prog.ReadsInside bareHeader := by
  intro h
  have hmeets : bareHeader.Meets bareHeader.start := ⟨.enter, by decide⟩
  have hidx : idxField ∈ prog.fields bareHeader 0 := by cases prog <;> decide
  have hlt := (h bareHeader.start hmeets 16 (.inl ⟨idxField, hidx, by decide, by decide⟩)).2.1
  revert hlt
  decide

theorem not_reads_inside_bareHeader :
    ¬ Program.trackProcess.ReadsInside bareHeader ∧
      ¬ Program.processMonitor.ReadsInside bareHeader :=
  ⟨bareHeader_reads_outside _, bareHeader_reads_outside _⟩

end KeepalivedDevel.ProcConnector
