import KeepalivedDevel.CLib.Runs
import KeepalivedDevel.OffsetStore.Sequential

/-!
# Calls of updateOffset that overlap

Any number of `isolate` processes and readers on one JSON file. A call reads the
file, truncates it when it opens it for writing, and writes when it closes it;
other processes may come in between, as nothing locks the file.
-/

namespace KeepalivedDevel.OffsetStore
open PyLib CLib

/-! ### The steps of the processes -/

/-- Where a process is in `updateOffset`. -/
inductive Proc where
  | idle
  | called (c : Call)
  | loaded (c : Call) (offsetJson : Dict Key ℤ)
  | opened (c : Call) (offsetJson : Dict Key ℤ)

/-- The file and the processes, with the offset of the last completed call for each
instance and all the calls begun. -/
structure System where
  file : Option (List UInt8)
  procs : ℕ → Proc
  completed : ℤ → ℤ
  begun : List Call

def System.init : System := ⟨none, fun _ => .idle, fun _ => 0, []⟩

inductive Event where
  | call (p : ℕ) (c : Call)
  | read (p : ℕ)
  | openWrite (p : ℕ)
  | write (p : ℕ)
  | get (inst : ℤ)

def System.setProc (s : System) (p : ℕ) (proc : Proc) : System :=
  { s with procs := Function.update s.procs p proc }

def System.complete (s : System) (p : ℕ) (c : Call) : System :=
  { s.setProc p .idle with completed := Function.update s.completed c.inst c.offset }

/- Bytes written at the beginning of a file: what it has behind them stays. -/
def overwrite (text : List UInt8) (file : Option (List UInt8)) : List UInt8 :=
  text ++ (file.getD []).drop text.length

def System.step (s : System) : Event → System
  | .call p c =>
    match s.procs p with
    | .idle => { s.setProc p (.called c) with begun := c :: s.begun }
    | _ => s
  | .read p =>
    match s.procs p with
    | .called c =>
      let offsetJson := loadOffsets s.file
      if toReturn (offsetJson.get (strKey c.inst)) c.offset = 1 then
        s.setProc p (.loaded c (offsetJson.set (strKey c.inst) c.offset))
      else s.complete p c
    | _ => s
  | .openWrite p =>
    match s.procs p with
    | .loaded c offsetJson => { s.setProc p (.opened c offsetJson) with file := some [] }
    | _ => s
  | .write p =>
    match s.procs p with
    | .opened c offsetJson =>
      { s.complete p c with file := some (overwrite (dump offsetJson) s.file) }
    | _ => s
  | .get _ => s

/-- Everything that a step can do. -/
inductive System.Step (s : System) : Event → System → Prop where
  | stay (e : Event) : Step s e s
  | call {p : ℕ} {c : Call} (h : s.procs p = .idle) :
      Step s (.call p c) { s.setProc p (.called c) with begun := c :: s.begun }
  | load {p : ℕ} {c : Call} (h : s.procs p = .called c) (hne : effective s.file c.inst ≠ c.offset) :
      Step s (.read p) (s.setProc p (.loaded c ((loadOffsets s.file).set (strKey c.inst) c.offset)))
  | keep {p : ℕ} {c : Call} (h : s.procs p = .called c) (heq : effective s.file c.inst = c.offset) :
      Step s (.read p) (s.complete p c)
  | truncate {p : ℕ} {c : Call} {d : Dict Key ℤ} (h : s.procs p = .loaded c d) :
      Step s (.openWrite p) { s.setProc p (.opened c d) with file := some [] }
  | write {p : ℕ} {c : Call} {d : Dict Key ℤ} (h : s.procs p = .opened c d) :
      Step s (.write p) { s.complete p c with file := some (overwrite (dump d) s.file) }

theorem System.step_read {s : System} {p : ℕ} {c : Call} (h : s.procs p = .called c) :
    s.step (.read p) =
      if effective s.file c.inst = c.offset then s.complete p c
      else s.setProc p (.loaded c ((loadOffsets s.file).set (strKey c.inst) c.offset)) := by
  simp only [System.step, h]
  exact ite_toReturn _ _
    (fun _ => s.setProc p (.loaded c ((loadOffsets s.file).set (strKey c.inst) c.offset)))
    fun _ => s.complete p c

theorem System.step_spec (s : System) (e : Event) : s.Step e (s.step e) := by
  cases e with
  | call p c =>
    cases h : s.procs p with
    | idle => simpa [System.step, h] using .call h
    | called _ => simpa [System.step, h] using .stay _
    | loaded _ _ => simpa [System.step, h] using .stay _
    | opened _ _ => simpa [System.step, h] using .stay _
  | read p =>
    cases h : s.procs p with
    | idle => simpa [System.step, h] using .stay _
    | called c =>
      rw [System.step_read h]
      split
      · exact .keep h ‹_›
      · exact .load h ‹_›
    | loaded _ _ => simpa [System.step, h] using .stay _
    | opened _ _ => simpa [System.step, h] using .stay _
  | openWrite p =>
    cases h : s.procs p with
    | idle => simpa [System.step, h] using .stay _
    | called _ => simpa [System.step, h] using .stay _
    | loaded _ _ => simpa [System.step, h] using .truncate h
    | opened _ _ => simpa [System.step, h] using .stay _
  | write p =>
    cases h : s.procs p with
    | idle => simpa [System.step, h] using .stay _
    | called _ => simpa [System.step, h] using .stay _
    | loaded _ _ => simpa [System.step, h] using .stay _
    | opened _ _ => simpa [System.step, h] using .write h
  | get inst => exact .stay _

/-- A call whose steps nothing comes between is `updateOffset`. -/
theorem call_alone {s : System} {p : ℕ} (h : s.procs p = .idle) (c : Call) :
    ([.call p c, .read p, .openWrite p, .write p].foldl System.step s).file =
      (updateOffset s.file c.inst c.offset).1 := by
  have hcall : s.step (.call p c) = { s.setProc p (.called c) with begun := c :: s.begun } := by
    simp only [System.step, h]
  have hread := System.step_read (s := s.step (.call p c)) (p := p) (c := c)
    (by simp [hcall, System.setProc])
  simp only [List.foldl_cons, List.foldl_nil, hread, updateOffset_eq]
  rw [hcall]
  by_cases heq : effective s.file c.inst = c.offset
  · simp [System.setProc, System.complete, System.step, heq]
  · simp [System.setProc, System.step, heq, overwrite]

/-! ### What is asked of the store -/

def Proc.call : Proc → Option Call
  | .idle => none
  | .called c => some c
  | .loaded c _ => some c
  | .opened c _ => some c

/- What a call between its read and its return is going to write. -/
def Proc.pending : Proc → Option (Call × Dict Key ℤ)
  | .idle => none
  | .called _ => none
  | .loaded c d => some (c, d)
  | .opened c d => some (c, d)

def Proc.Opened : Proc → Prop
  | .opened _ _ => True
  | _ => False

/-- The value of the last completed call for an instance, or of one in progress. -/
def System.Allowed (s : System) (inst value : ℤ) : Prop :=
  value = s.completed inst ∨ ∃ p, (s.procs p).call = some ⟨inst, value⟩

/-- A write leaves every other instance with the value of its last completed call. -/
def System.UndoesNothing (s : System) (p : ℕ) : Prop :=
  ∀ c offsetJson, s.procs p = .opened c offsetJson →
    ∀ inst, inst ≠ c.inst → effective (s.step (.write p)).file inst = s.completed inst

def Atomic (s : System) : Event → Prop
  | .get inst => s.Allowed inst (getVrrpOffset s.file inst)
  | .write p => s.UndoesNothing p
  | _ => True

/-- As `Atomic`, but a reader may find the file truncated. -/
def AtomicUnlessOpened (s : System) : Event → Prop
  | .get inst => s.Allowed inst (getVrrpOffset s.file inst) ∨
      (getVrrpOffset s.file inst = 0 ∧ ∃ p, (s.procs p).Opened)
  | .write p => s.UndoesNothing p
  | _ => True

def Requested (s : System) : Event → Prop
  | .get inst => getVrrpOffset s.file inst = 0 ∨ ⟨inst, getVrrpOffset s.file inst⟩ ∈ s.begun
  | _ => True

/-- No call reads the file while another one is between its read and its return. -/
def Exclusive (s : System) : Event → Prop
  | .read _ => ∀ q, (s.procs q).pending = none
  | _ => True

/-! ### Any interleaving -/

def KnownDict (begun : List Call) (d : Dict Key ℤ) : Prop :=
  ∀ inst offset, d.get (strKey inst) = some offset → ⟨inst, offset⟩ ∈ begun

/- Of two calls that write one after the other the first may leave the end of a
longer text. -/
def KnownFile (begun : List Call) : Option (List UInt8) → Prop
  | none => True
  | some text => text = [] ∨ ∃ d rest, text = dump d ++ rest ∧ KnownDict begun d

def Proc.Known (begun : List Call) (proc : Proc) : Prop :=
  (∀ c, proc.call = some c → c ∈ begun) ∧ ∀ c d, proc.pending = some (c, d) → KnownDict begun d

structure System.Known (s : System) : Prop where
  file : KnownFile s.begun s.file
  procs : ∀ p, (s.procs p).Known s.begun

theorem KnownDict.cons {begun : List Call} {d : Dict Key ℤ} (h : KnownDict begun d) (c : Call) :
    KnownDict (c :: begun) d :=
  fun inst offset hd => List.mem_cons_of_mem _ (h inst offset hd)

theorem KnownFile.cons {begun : List Call} {file : Option (List UInt8)} (h : KnownFile begun file)
    (c : Call) : KnownFile (c :: begun) file := by
  cases file with
  | none => trivial
  | some text =>
    rcases h with h | ⟨d, rest, htext, hd⟩
    · exact .inl h
    · exact .inr ⟨d, rest, htext, hd.cons c⟩

theorem Proc.Known.cons {begun : List Call} {proc : Proc} (h : proc.Known begun) (c : Call) :
    proc.Known (c :: begun) :=
  ⟨fun e he => List.mem_cons_of_mem _ (h.1 e he), fun e d hd => (h.2 e d hd).cons c⟩

theorem Proc.known_idle (begun : List Call) : Proc.idle.Known begun := by
  simp [Proc.Known, Proc.call, Proc.pending]

theorem KnownDict.set {begun : List Call} {d : Dict Key ℤ} (h : KnownDict begun d) {c : Call}
    (hc : c ∈ begun) : KnownDict begun (d.set (strKey c.inst) c.offset) := by
  intro inst offset hget
  rw [Dict.get_set] at hget
  split at hget
  · rename_i hkey
    obtain rfl := strKey_injective hkey
    obtain rfl := Option.some.inj hget
    exact hc
  · exact h inst offset hget

theorem KnownFile.loadOffsets {begun : List Call} {file : Option (List UInt8)}
    (h : KnownFile begun file) : KnownDict begun (loadOffsets file) := by
  have hempty : KnownDict begun Dict.empty := fun inst offset hget => by simp at hget
  cases file with
  | none => exact hempty
  | some text =>
    rcases h with rfl | ⟨d, rest, rfl, hd⟩
    · exact hempty
    · rw [OffsetStore.loadOffsets, Option.bind_some, load_dump_append]
      split
      · exact hd
      · exact hempty

theorem known_update {s : System} (h : ∀ q, (s.procs q).Known s.begun) {p : ℕ} {proc : Proc}
    (hproc : proc.Known s.begun) : ∀ q, (Function.update s.procs p proc q).Known s.begun := by
  intro q
  rw [Function.update_apply]
  split
  · exact hproc
  · exact h q

theorem System.Known.step {s t : System} {e : Event} (h : s.Known) (hstep : s.Step e t) :
    t.Known := by
  cases hstep with
  | stay => exact h
  | @call p c hp =>
    refine ⟨h.file.cons c, fun q => ?_⟩
    simp only [System.setProc, Function.update_apply]
    split
    · simp [Proc.Known, Proc.call, Proc.pending]
    · exact (h.procs q).cons c
  | @load p c hp hne =>
    have hc : c ∈ s.begun := (h.procs p).1 c (by rw [hp]; rfl)
    refine ⟨h.file, known_update h.procs ⟨?_, ?_⟩⟩
    · intro e he
      obtain rfl := Option.some.inj he
      exact hc
    · intro e d hd
      obtain ⟨rfl, rfl⟩ := Prod.mk.inj (Option.some.inj hd)
      exact h.file.loadOffsets.set hc
  | @keep p c hp heq => exact ⟨h.file, known_update h.procs (Proc.known_idle _)⟩
  | @truncate p c d hp =>
    have hproc := h.procs p
    rw [hp] at hproc
    exact ⟨.inl rfl, known_update h.procs hproc⟩
  | @write p c d hp =>
    have hd : KnownDict s.begun d := (h.procs p).2 c d (by rw [hp]; rfl)
    exact ⟨.inr ⟨d, _, rfl, hd⟩, known_update h.procs (Proc.known_idle _)⟩

theorem System.Known.requested {s : System} (h : s.Known) (e : Event) : Requested s e := by
  cases e with
  | get inst =>
    rw [Requested, getVrrpOffset_eq, effective]
    cases hget : (loadOffsets s.file).get (strKey inst) with
    | none => exact .inl rfl
    | some offset => exact .inr (h.file.loadOffsets inst offset hget)
  | _ => trivial

/-! ### Calls that exclude each other -/

def offsets (d : Dict Key ℤ) (inst : ℤ) : ℤ := (d.get (strKey inst)).getD 0

/-- At most one call is between its read and its return, and it knows all offsets. -/
structure System.Serial (s : System) : Prop where
  one : ∀ p q, (s.procs p).pending ≠ none → (s.procs q).pending ≠ none → p = q
  current : (∀ p, ¬ (s.procs p).Opened) → effective s.file = s.completed
  opened : ∀ p, (s.procs p).Opened → s.file = some []
  pending : ∀ p c d, (s.procs p).pending = some (c, d) →
    offsets d = Function.update s.completed c.inst c.offset

theorem Proc.pending_of_opened {proc : Proc} (h : proc.Opened) : proc.pending ≠ none := by
  cases proc with
  | opened c d => simp [Proc.pending]
  | _ => exact absurd h (by simp [Proc.Opened])

theorem effective_dump (d : Dict Key ℤ) : effective (some (dump d)) = offsets d := by
  funext inst
  rw [effective, loadOffsets_dump, offsets]

theorem offsets_set (file : Option (List UInt8)) (inst offset : ℤ) :
    offsets ((loadOffsets file).set (strKey inst) offset) =
      Function.update (effective file) inst offset := by
  rw [← effective_dump, effective_dump_set]
  rfl

theorem System.Serial.others {s : System} (h : s.Serial) {p : ℕ} {c : Call} {d : Dict Key ℤ}
    (hp : (s.procs p).pending = some (c, d)) : ∀ q, q ≠ p → (s.procs q).pending = none := by
  intro q hq
  by_contra hne
  exact hq (h.one q p hne (by simp [hp]))

/- One process moves while no other one is between its read and its return. -/
theorem System.Serial.alone {s : System} {p : ℕ} {proc : Proc} {file : Option (List UInt8)}
    (hothers : ∀ q, q ≠ p → (s.procs q).pending = none)
    (hcurrent : ¬ proc.Opened → effective file = s.completed) (hopened : proc.Opened → file = some [])
    (hpending : ∀ c d, proc.pending = some (c, d) →
      offsets d = Function.update s.completed c.inst c.offset) :
    { s.setProc p proc with file := file }.Serial := by
  have hself : Function.update s.procs p proc p = proc := Function.update_self ..
  have honly : ∀ q, (Function.update s.procs p proc q).pending ≠ none → q = p := by
    intro q hq
    by_contra hne
    rw [Function.update_of_ne hne] at hq
    exact hq (hothers q hne)
  constructor
  · intro q r hq hr
    rw [honly q hq, honly r hr]
  · intro hnone
    exact hcurrent (hself ▸ hnone p)
  · intro q hq
    obtain rfl := honly q (Proc.pending_of_opened hq)
    exact hopened (hself ▸ hq)
  · intro q c d hq
    obtain rfl := honly q (by simp [show (Function.update s.procs p proc q).pending = _ from hq])
    exact hpending c d (hself ▸ hq)

theorem System.Serial.complete {s : System} {p : ℕ} {c : Call} {file : Option (List UInt8)}
    (hothers : ∀ q, q ≠ p → (s.procs q).pending = none)
    (hfile : effective file = Function.update s.completed c.inst c.offset) :
    { s.complete p c with file := file }.Serial := by
  let done : System := { s with completed := Function.update s.completed c.inst c.offset }
  have hdone : ({ done.setProc p .idle with file := file } : System).Serial :=
    System.Serial.alone hothers (fun _ => hfile) (fun h => absurd h id)
      fun c d h => absurd h (by simp [Proc.pending])
  exact hdone

theorem System.Serial.effective_write {s : System} (h : s.Serial) {p : ℕ} {c : Call}
    {d : Dict Key ℤ} (hp : s.procs p = .opened c d) :
    effective (some (overwrite (dump d) s.file)) =
      Function.update s.completed c.inst c.offset := by
  have hfile : overwrite (dump d) s.file = dump d := by
    rw [h.opened p (by rw [hp]; trivial)]
    simp [overwrite]
  rw [hfile, effective_dump]
  exact h.pending p c d (by rw [hp]; rfl)

theorem System.Serial.step {s t : System} {e : Event} (h : s.Serial) (hexcl : Exclusive s e)
    (hstep : s.Step e t) : t.Serial := by
  cases hstep with
  | stay => exact h
  | @call p c hp =>
    have hsame : ∀ q, (Function.update s.procs p (.called c) q).pending = (s.procs q).pending ∧
        ((Function.update s.procs p (.called c) q).Opened ↔ (s.procs q).Opened) := by
      intro q
      rw [Function.update_apply]
      split
      · rename_i hq
        rw [hq, hp]
        exact ⟨rfl, Iff.rfl⟩
      · exact ⟨rfl, Iff.rfl⟩
    constructor
    · intro q r
      simp only [System.setProc, (hsame _).1]
      exact h.one q r
    · simp only [System.setProc, (hsame _).2]
      exact h.current
    · simp only [System.setProc, (hsame _).2]
      exact h.opened
    · simp only [System.setProc, (hsame _).1]
      exact h.pending
  | @load p c hp hne =>
    -- nobody has the file open, so what is read is what the completed calls left
    have hcurrent := h.current fun q hq => Proc.pending_of_opened hq (hexcl q)
    refine System.Serial.alone (fun q _ => hexcl q) (fun _ => hcurrent) (fun h => absurd h id) ?_
    intro e d hd
    obtain ⟨rfl, rfl⟩ := Prod.mk.inj (Option.some.inj hd)
    rw [offsets_set, hcurrent]
  | @keep p c hp heq =>
    have hcurrent := h.current fun q hq => Proc.pending_of_opened hq (hexcl q)
    refine System.Serial.complete (fun q _ => hexcl q) ?_
    rw [← hcurrent, ← heq, Function.update_eq_self]
    rfl
  | @truncate p c d hp =>
    have hpending : (s.procs p).pending = some (c, d) := by rw [hp]; rfl
    refine System.Serial.alone (h.others hpending) (fun hne => absurd trivial hne) (fun _ => rfl) ?_
    intro e d' hd
    obtain ⟨rfl, rfl⟩ := Prod.mk.inj (Option.some.inj hd)
    exact h.pending p c d hpending
  | @write p c d hp =>
    have hpending : (s.procs p).pending = some (c, d) := by rw [hp]; rfl
    exact System.Serial.complete (h.others hpending) (h.effective_write hp)

theorem System.Serial.atomicUnlessOpened {s : System} (h : s.Serial) (e : Event) :
    AtomicUnlessOpened s e := by
  cases e with
  | get inst =>
    rw [AtomicUnlessOpened, getVrrpOffset_eq]
    by_cases hopen : ∃ p, (s.procs p).Opened
    · right
      obtain ⟨p, hp⟩ := hopen
      refine ⟨?_, p, hp⟩
      rw [h.opened p hp]
      rfl
    · left
      left
      rw [h.current fun p hp => hopen ⟨p, hp⟩]
  | write p =>
    intro c d hp inst hinst
    have hfile : (s.step (.write p)).file = some (overwrite (dump d) s.file) := by
      simp only [System.step, hp]
    rw [hfile, h.effective_write hp, Function.update_of_ne hinst]
  | _ => trivial

theorem System.init_known : System.init.Known :=
  ⟨trivial, fun _ => Proc.known_idle _⟩

theorem System.init_serial : System.init.Serial where
  one p _ hp := absurd rfl hp
  current _ := rfl
  opened _ hp := absurd hp id
  pending _ _ _ hp := absurd hp (by simp [System.init, Proc.pending])

/-- Whatever the interleaving, a reader gets zero or an offset that a call asked for.
Where no call reads between another's read and return, a reader gets the offset of
the last completed call or of one in progress, or zero while the file is truncated,
and no call undoes what a completed call for another instance did. -/
theorem offsets_of_exclusive (events : List Event) :
    Runs.EachStep System.step Requested System.init events ∧
      (Runs.EachStep System.step Exclusive System.init events →
        Runs.EachStep System.step AtomicUnlessOpened System.init events) := by
  constructor
  · refine Runs.EachStep.of_invariant System.step (D := fun _ _ => True)
      (fun s e h _ => h.step (s.step_spec e)) (fun s e h _ => h.requested e) System.init_known ?_
    exact fun _ _ _ => trivial
  · intro hexcl
    exact Runs.EachStep.of_invariant System.step (fun s e h he => h.step he (s.step_spec e))
      (fun s e h _ => h.atomicUnlessOpened e) System.init_serial hexcl

def inTurn : List Event :=
  [.call 0 ⟨1, 1⟩, .call 1 ⟨2, 1⟩, .read 0, .openWrite 0, .get 1, .write 0, .read 1, .openWrite 1,
    .write 1, .get 1]

theorem inTurn_atomic : Runs.EachStep System.step Exclusive System.init inTurn ∧
    Runs.EachStep System.step AtomicUnlessOpened System.init inTurn := by
  have hexcl : Runs.EachStep System.step Exclusive System.init inTurn := by
    simp only [inTurn, Runs.eachStep_cons]
    refine ⟨trivial, trivial, fun q => ?_, trivial, trivial, trivial, fun q => ?_, trivial, trivial,
      trivial, Runs.eachStep_nil _⟩
    · match q with
      | 0 => rfl
      | 1 => rfl
      | q + 2 => rfl
    · match q with
      | 0 => rfl
      | 1 => rfl
      | q + 2 => rfl
  exact ⟨hexcl, (offsets_of_exclusive inTurn).2 hexcl⟩

/- A reader comes between the truncation and the write of another instance's call. -/
def tornRead : List Event :=
  [.call 0 ⟨1, 1⟩, .read 0, .openWrite 0, .write 0, .call 1 ⟨2, 1⟩, .read 1, .openWrite 1, .get 1]

/- Two calls read the same file, and the second one writes what it read. -/
def lostUpdate : List Event :=
  [.call 0 ⟨1, 1⟩, .call 1 ⟨2, 1⟩, .read 0, .read 1, .openWrite 0, .write 0, .openWrite 1, .write 1]

theorem overlapping_not_atomic :
    ¬ Runs.EachStep System.step Atomic System.init tornRead ∧
      ¬ Runs.EachStep System.step Atomic System.init lostUpdate := by
  constructor
  · intro h
    have hvalue : getVrrpOffset (tornRead.dropLast.foldl System.step System.init).file 1 = 0 := by
      decide
    have hidle : ∀ p, (tornRead.dropLast.foldl System.step System.init).procs (p + 2) = .idle :=
      fun _ => rfl
    rcases h tornRead.dropLast (.get 1) (List.prefix_refl _) with hlast | ⟨p, hp⟩
    · exact absurd hlast (by decide)
    · rw [hvalue] at hp
      match p, hp with
      | 0, hp => exact absurd hp (by decide)
      | 1, hp => exact absurd hp (by decide)
      | p + 2, hp => exact absurd hp (by simp [hidle, Proc.call])
  · intro h
    have hopened : ∃ d, (lostUpdate.dropLast.foldl System.step System.init).procs 1 =
        .opened ⟨2, 1⟩ d := ⟨_, rfl⟩
    obtain ⟨d, hd⟩ := hopened
    have hwrite := h lostUpdate.dropLast (.write 1) (List.prefix_refl _) _ d hd 1 (by decide)
    exact absurd hwrite (by decide)

end KeepalivedDevel.OffsetStore
