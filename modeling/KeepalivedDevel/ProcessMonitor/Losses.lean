import KeepalivedDevel.ProcessMonitor.Code
import KeepalivedDevel.CLib.Numbered

/-!
# The loss accounting of `process_monitor.c`

The kernel numbers the events of each CPU. The entry of a CPU holds the number
of the last event received from it, so the `Missed` line of the next one counts
the events lost in between, whatever happens on the other CPUs and whatever
`recv` returns on the way. That number is printed right behind the sequence number
that ends `tbuf`, without a blank between the two, so what a reader finds in front
of `messages on CPU` is the count only after the sequence number 0.
-/

namespace KeepalivedDevel.ProcessMonitor
open ProcConnector CLib CLib.Numbered

def numbered (m : NlMsg) : UInt32 × UInt32 × ProcEvent := (m.cpu, m.seq, m.event)

/- The events printed, each with the number passed to `printf` for its `Missed`
line. -/
def Output.report : Output → Option (Reception UInt32 ProcEvent)
  | .event cpu seq ev missed => some ⟨cpu, seq, ev, missed.map fun m => m.count.toNat⟩
  | _ => none

def eventReports (printed : List Output) : List (Reception UInt32 ProcEvent) :=
  printed.filterMap Output.report

theorem eventReports_append (printed more : List Output) :
    eventReports (printed ++ more) = eventReports printed ++ eventReports more :=
  List.filterMap_append

/-! ### The entry of one CPU -/

/- The entry that goes with the last event received. -/
def Entry.Follows (start : UInt32) (last : Option ℕ) (e : Entry) : Prop :=
  match last with
  | none => e.initialised = some false
  | some i => ∃ noBufs, e = ⟨some true, some noBufs, some (number start i)⟩

theorem Entry.Follows.enobufs {start : UInt32} {last : Option ℕ} {e : Entry}
    (h : e.Follows start last) : Entry.Follows start last { e with noBufs := some true } := by
  cases last with
  | none => exact h
  | some i =>
    obtain ⟨noBufs, rfl⟩ := h
    exact ⟨true, rfl⟩

theorem account_follows {table : List Entry} {cpu : UInt32} {e : Entry} {start : UInt32}
    {past : List (Emission UInt32 ProcEvent)} (he : table[cpu.toNat]? = some e)
    (hf : e.Follows start (lastReceived cpu past))
    (hn : ∀ n ∈ lostSince cpu past, n < 2 ^ 32) :
    ∃ missed, account table cpu (number start (emitted cpu past)) =
        .ok (table.set cpu.toNat ⟨some true, some false, some (number start (emitted cpu past))⟩,
          missed) ∧
      (missed.map fun m => m.count.toNat) = report (lostSince cpu past) := by
  rcases lastReceived_lostSince cpu past with ⟨hl, hs⟩ | ⟨i, n, hl, hs, hem⟩
  · rw [hl] at hf
    rw [hs]
    exact ⟨none, account_first _ he hf, rfl⟩
  · rw [hl] at hf
    obtain ⟨noBufs, rfl⟩ := hf
    have hlt : n < 2 ^ 32 := hn n hs
    refine ⟨_, account_again _ he, ?_⟩
    rw [hem, hs]
    simp only [number_next_iff start i n hlt]
    cases n with
    | zero => rfl
    | succ n =>
      simp only [Nat.add_one_ne_zero, ite_false, Option.map_some]
      rw [number_gap start i (n + 1) hlt]
      rfl

/-! ### The table -/

def Tracks (n : ℕ) (start : UInt32 → UInt32) (past : List (Emission UInt32 ProcEvent))
    (table : List Entry) : Prop :=
  ∀ cpu : UInt32, cpu.toNat < n →
    ∃ e, table[cpu.toNat]? = some e ∧ e.Follows (start cpu) (lastReceived cpu past)

/- A run in the middle of a history: `total` is what is reported in the end. -/
structure Stage (n : ℕ) (start : UInt32 → UInt32) (total : List (Reception UInt32 ProcEvent))
    (past future : List (Emission UInt32 ProcEvent)) (s : Monitor) : Prop where
  tracks : Tracks n start past s.table
  cpus : ∀ e ∈ future, e.received = true → e.key.toNat < n
  bounded : BoundedLoss past future
  reported : eventReports s.printed ++ receptions start past future = total

section
variable {n : ℕ} {start : UInt32 → UInt32} {total : List (Reception UInt32 ProcEvent)}
  {past future : List (Emission UInt32 ProcEvent)} {s : Monitor}

/- A lost event changes nothing that the table shows. -/
theorem Stage.lost {e : Emission UInt32 ProcEvent} (h : Stage n start total past (e :: future) s)
    (hr : e.received = false) : Stage n start total (e :: past) future s := by
  refine ⟨?_, ?_, h.bounded.2, ?_⟩
  · intro cpu hcpu
    obtain ⟨d, hd, hf⟩ := h.tracks cpu hcpu
    refine ⟨d, hd, ?_⟩
    simpa only [lastReceived, hr, Bool.false_eq_true, and_false, ite_false] using hf
  · exact fun d hd => h.cpus d (List.mem_cons_of_mem _ hd)
  · simpa only [receptions, hr, Bool.false_eq_true, ite_false] using h.reported

/- The history up to the next event that is received. -/
theorem Stage.next {x : UInt32 × UInt32 × ProcEvent} {rest : List (UInt32 × UInt32 × ProcEvent)}
    (h : Stage n start total past future s) (hd : deliver start past future = x :: rest) :
    ∃ past' e future', Stage n start total past' (e :: future') s ∧ e.received = true ∧
      x = (e.key, number (start e.key) (emitted e.key past'), e.payload) ∧
      rest = deliver start (e :: past') future' := by
  induction future generalizing past with
  | nil => cases hd
  | cons e future ih =>
    unfold deliver at hd
    cases hr : e.received with
    | true =>
      simp only [hr, ite_true, List.cons.injEq] at hd
      exact ⟨past, e, future, h, hr, hd.1.symm, hd.2.symm⟩
    | false =>
      simp only [hr, Bool.false_eq_true, ite_false] at hd
      exact ih (h.lost hr) hd

theorem Tracks.received {table : List Entry} {e : Emission UInt32 ProcEvent}
    (h : Tracks n start past table) (hr : e.received = true) :
    Tracks n start (e :: past) (table.set e.key.toNat
      ⟨some true, some false, some (number (start e.key) (emitted e.key past))⟩) := by
  intro cpu hcpu
  obtain ⟨d, hd, hf⟩ := h cpu hcpu
  by_cases hk : e.key = cpu
  · subst hk
    have hlt : e.key.toNat < table.length := (List.getElem?_eq_some_iff.mp hd).1
    refine ⟨_, List.getElem?_set_self hlt, ?_⟩
    simp only [lastReceived, hr, and_self, ite_true]
    exact ⟨false, rfl⟩
  · have hne : e.key.toNat ≠ cpu.toNat := fun he => hk (UInt32.toNat_inj.mp he)
    refine ⟨d, by rw [List.getElem?_set_ne hne, hd], ?_⟩
    simpa only [lastReceived, hk, false_and, ite_false] using hf

theorem Tracks.enobufs {table : List Entry} (h : Tracks n start past table) :
    Tracks n start past (table.map fun e => { e with noBufs := some true }) := by
  intro cpu hcpu
  obtain ⟨e, he, hf⟩ := h cpu hcpu
  refine ⟨{ e with noBufs := some true }, ?_, hf.enobufs⟩
  rw [List.getElem?_map, he]
  rfl

theorem Stage.print (h : Stage n start total past future s) {table : List Entry}
    (ht : Tracks n start past table) (accessed : List ℕ) {o : Output} (ho : o.report = none) :
    Stage n start total past future ⟨table, accessed, s.printed ++ [o]⟩ := by
  refine ⟨ht, h.cpus, h.bounded, ?_⟩
  have hnil : eventReports [o] = [] := by simp only [eventReports, List.filterMap_cons_none ho,
    List.filterMap_nil]
  rw [eventReports_append, hnil, List.append_nil]
  exact h.reported

theorem Stage.message_handled {m : NlMsg} (hm : m.handled = true)
    {rest : List (UInt32 × UInt32 × ProcEvent)} (h : Stage n start total past future s)
    (hd : deliver start past future = numbered m :: rest) :
    ∃ past' future' s', message s m = (s', none) ∧ Stage n start total past' future' s' ∧
      deliver start past' future' = rest := by
  obtain ⟨past', e, future', h', hr, hx, rfl⟩ := h.next hd
  obtain ⟨hcpu, hseq, hev⟩ : m.cpu = e.key ∧
      m.seq = number (start e.key) (emitted e.key past') ∧ m.event = e.payload := by
    simpa only [numbered, Prod.mk.injEq] using hx
  have hlt : e.key.toNat < n := h'.cpus e (List.mem_cons_self ..) hr
  obtain ⟨d, hget, hf⟩ := h'.tracks e.key hlt
  obtain ⟨missed, ha, hmiss⟩ := account_follows hget hf (h'.bounded.1 hr)
  refine ⟨e :: past', future', _,
    by rw [ProcessMonitor.message_handled s hm, hcpu, hseq, hev, ha], ?_, rfl⟩
  refine ⟨h'.tracks.received hr, ?_, h'.bounded.2, ?_⟩
  · exact fun d hd => h'.cpus d (List.mem_cons_of_mem _ hd)
  · rw [← h'.reported, eventReports_append, List.append_assoc]
    simp only [receptions, hr, ite_true]
    rw [← hmiss]
    rfl

theorem Stage.message_skipped {m : NlMsg} (hm : m.handled = false)
    (h : Stage n start total past future s) :
    ∃ s', message s m = (s', none) ∧ Stage n start total past future s' := by
  rcases ProcessMonitor.message_skipped s hm with he | he
  · exact ⟨s, he, h⟩
  · exact ⟨_, he, h.print h.tracks s.accessed rfl⟩

/-! ### Whole runs -/

def numberedEvents (msgs : List NlMsg) : List (UInt32 × UInt32 × ProcEvent) :=
  (msgs.filter NlMsg.handled).map numbered

theorem Stage.feed {inputs : List (Input NlMsg)} (h : Stage n start total past future s)
    (hd : deliver start past future = numberedEvents (messagesOf inputs)) :
    eventReports (inputs.foldl handler.feed (s, none)).1.printed = total := by
  induction inputs generalizing past future s with
  | nil =>
    -- everything delivered has been reported
    rw [List.foldl_nil, ← h.reported, receptions_of_deliver_nil hd, List.append_nil]
  | cons i inputs ih =>
    rw [List.foldl_cons]
    cases i with
    | enobufs => exact ih (h.print h.tracks.enobufs _ rfl) hd
    | message m =>
      show eventReports (inputs.foldl handler.feed (message s m)).1.printed = total
      rw [messagesOf, numberedEvents] at hd
      cases hm : m.handled with
      | true =>
        rw [List.filter_cons_of_pos hm, List.map_cons] at hd
        obtain ⟨past', future', s', he, h', hd'⟩ := h.message_handled hm hd
        rw [he]
        exact ih h' hd'
      | false =>
        rw [List.filter_cons_of_neg (by simp [hm])] at hd
        obtain ⟨s', he, h'⟩ := h.message_skipped hm
        rw [he]
        exact ih h' hd

end

theorem tracks_start (numCpus : UInt32) (start : UInt32 → UInt32) :
    Tracks numCpus.toNat start [] (ProcessMonitor.start numCpus).table := by
  intro cpu hcpu
  refine ⟨⟨some false, none, none⟩, ?_, rfl⟩
  show (List.replicate numCpus.toNat _)[cpu.toNat]? = _
  rw [List.getElem?_replicate_of_lt hcpu]

/- The numbers passed to `printf` are right. -/
theorem eventReports_handleProcEv {numCpus : UInt32} {start : UInt32 → UInt32}
    {history : List (Emission UInt32 ProcEvent)} {turns : List (Turn NlMsg)}
    (hcpu : ∀ e ∈ history, e.received = true → e.key < numCpus)
    (hloss : BoundedLoss [] history)
    (hrecv : numberedEvents (handler.received turns) = deliver start [] history) :
    eventReports (handleProcEv numCpus turns).vars.printed = receptions start [] history := by
  have hstage : Stage numCpus.toNat start (receptions start [] history) [] history
      (ProcessMonitor.start numCpus) :=
    ⟨tracks_start numCpus start, fun e he hr => UInt32.lt_iff_toNat_lt.mp (hcpu e he hr), hloss, rfl⟩
  rw [handleProcEv, run_vars]
  exact hstage.feed hrecv.symm

/-! ### The number printed -/

/- The number on a line: the fifth of its words from the end, which stands in front
of `messages on CPU`. -/
def numberOn (line : List UInt8) : ℕ :=
  match (line.splitOn 32).reverse with
  | _ :: _ :: _ :: _ :: word :: _ => digitsValue word
  | _ => 0

/- The events printed, each with the number a reader finds on its `Missed` line. -/
def Output.reading (time : List UInt8) : Output → Option (UInt32 × ProcEvent × Option ℕ)
  | .event cpu seq ev missed =>
    some (cpu, ev, missed.map fun m => numberOn (m.line (tbuf time cpu seq)))
  | _ => none

/- `clock i` is the time of day when the `i`-th output is printed. -/
def printedReports (clock : ℕ → List UInt8) (printed : List Output) :
    List (UInt32 × ProcEvent × Option ℕ) :=
  printed.zipIdx.filterMap fun p => p.1.reading (clock p.2)

/- A number as it is found right behind the sequence number. -/
def behind (seq : UInt32) (n : ℕ) : ℕ := seq.toNat * 10 ^ (numeral n).length + n

theorem splitOn_blank (s rest : List UInt8) :
    (s ++ 32 :: rest).splitOn 32 = s.splitOn 32 ++ rest.splitOn 32 :=
  List.splitOnP_append_cons (p := (· == 32)) s rest rfl

theorem numberOn_line (m : Missed) (time : List UInt8) (cpu seq : UInt32) :
    numberOn (m.line (tbuf time cpu seq)) = behind seq m.count.toNat := by
  have hseq := isdigit_numeral seq.toNat
  have hcount := isdigit_numeral m.count.toNat
  have hblank : isdigit 32 = false := by decide
  have hword : 32 ∉ numeral seq.toNat ++ numeral m.count.toNat := by
    rw [List.mem_append, not_or]
    exact ⟨not_mem_numeral hblank _, not_mem_numeral hblank _⟩
  have hlast : 32 ∉ numeral m.cpu.toNat ++ [10] := by
    rw [List.mem_append, not_or]
    exact ⟨not_mem_numeral hblank _, by decide⟩
  -- the number has the sequence number in front of it
  obtain ⟨front, hline⟩ : ∃ front, m.line (tbuf time cpu seq) =
      front ++ 32 :: ((numeral seq.toNat ++ numeral m.count.toNat) ++
        32 :: ([109, 101, 115, 115, 97, 103, 101, 115] ++ 32 :: ([111, 110] ++ 32 ::
          ([67, 80, 85] ++ 32 :: (numeral m.cpu.toNat ++ [10]))))) := by
    refine ⟨(if m.noBufs then [40, 110, 111, 32, 98, 117, 102, 115, 41, 32] else []) ++
      32 :: [77, 105, 115, 115, 101, 100] ++ 32 :: (time ++ 32 :: twoPlaces cpu ++ [58]), ?_⟩
    simp [Missed.line, tbuf]
  have hvalue : digitsValue (numeral seq.toNat ++ numeral m.count.toNat) =
      behind seq m.count.toNat := by
    rw [digitsValue_append hseq hcount, digitsValue_numeral, digitsValue_numeral, behind]
  rw [hline, numberOn, splitOn_blank, splitOn_blank, splitOn_blank, splitOn_blank, splitOn_blank,
    List.splitOn_eq_singleton hword, List.splitOn_eq_singleton hlast, ← hvalue]
  simp [List.splitOn_eq_singleton]

theorem behind_eq_iff (seq : UInt32) (n : ℕ) : behind seq n = n ↔ seq = 0 := by
  have hpos : 0 < 10 ^ (numeral n).length := Nat.pow_pos (by decide)
  rw [behind, Nat.add_eq_right, Nat.mul_eq_zero, ← UInt32.toNat_inj]
  simp only [Nat.ne_of_gt hpos, or_false, UInt32.toNat_zero]

/- What is read off a line does not depend on the time of day. -/
theorem reading_eq (time : List UInt8) (o : Output) :
    o.reading time = o.report.map fun r => (r.key, r.payload, r.lost.map (behind r.number)) := by
  cases o with
  | receivedEnobufs => rfl
  | receivedId idx val => rfl
  | event cpu seq ev missed =>
    cases missed with
    | none => rfl
    | some m => simp [Output.reading, Output.report, numberOn_line]

theorem printedReports_eq (clock : ℕ → List UInt8) (printed : List Output) :
    printedReports clock printed =
      (eventReports printed).map fun r => (r.key, r.payload, r.lost.map (behind r.number)) := by
  unfold printedReports eventReports
  simp only [reading_eq]
  rw [List.map_filterMap]
  conv_rhs => rw [← List.zipIdx_map_fst 0 printed, List.filterMap_map]
  rfl

/-- The numbers found on the `Missed` lines are those of the events lost, and the lines stand
where events were lost, exactly if every event behind a loss has the sequence number 0. -/
theorem missed_numbers_iff (numCpus : UInt32) (start : UInt32 → UInt32)
    (history : List (Emission UInt32 ProcEvent)) (turns : List (Turn NlMsg))
    (clock : ℕ → List UInt8)
    (hcpu : ∀ e ∈ history, e.received = true → e.key < numCpus)
    (hloss : BoundedLoss [] history)
    (hrecv : numberedEvents (handler.received turns) = deliver start [] history) :
    printedReports clock (handleProcEv numCpus turns).vars.printed = reports [] history ↔
      ∀ r ∈ receptions start [] history, r.lost ≠ none → r.number = 0 := by
  rw [printedReports_eq, eventReports_handleProcEv hcpu hloss hrecv, reports_eq_map start,
    List.map_inj_left]
  refine forall₂_congr fun r _ => ?_
  cases r.lost with
  | none => simp
  | some n => simp [behind_eq_iff]

/- Two CPUs. Two events of the first one are lost before its number comes to 0. -/
def lossyHistory : List (Emission UInt32 ProcEvent) :=
  [⟨0, .fork 1 1 2 2, true⟩, ⟨1, .exec 2 2, true⟩, ⟨0, .sid 2 2, false⟩,
    ⟨0, .exit 2 2 0 17, false⟩, ⟨0, .exec 7 7, true⟩]

def lossyStart (cpu : UInt32) : UInt32 := if cpu = 0 then 0xfffffffd else 5

def lossyTurns : List (Turn NlMsg) :=
  [⟨.datagram [⟨3, cnIdxProc, cnValProc, 0xfffffffd, 0, .fork 1 1 2 2⟩,
      ⟨3, cnIdxProc, cnValProc, 5, 1, .exec 2 2⟩], false⟩,
    ⟨.eintr, false⟩, ⟨.enobufs, false⟩,
    ⟨.datagram [⟨3, cnIdxProc, cnValProc, 0, 0, .exec 7 7⟩], true⟩]

theorem missed_numbers_lossyHistory :
    printedReports (fun _ => []) (handleProcEv 2 lossyTurns).vars.printed =
      [(0, .fork 1 1 2 2, none), (1, .exec 2 2, none), (0, .exec 7 7, some 2)] := by
  have hloss : BoundedLoss [] lossyHistory := by
    simp [BoundedLoss, lossyHistory, lostSince]
  exact (missed_numbers_iff 2 lossyStart lossyHistory lossyTurns (fun _ => []) (by decide) hloss
    (by decide)).mpr (by decide)

/- One CPU, with three events lost in front of the event of number 7: the line reads
73 messages. -/
def threeLost : List (Emission UInt32 ProcEvent) :=
  [⟨0, .fork 1 1 2 2, true⟩, ⟨0, .exec 2 2, false⟩, ⟨0, .sid 2 2, false⟩,
    ⟨0, .exit 2 2 0 17, false⟩, ⟨0, .exec 7 7, true⟩]

def threeLostTurns : List (Turn NlMsg) :=
  [⟨.datagram [⟨3, cnIdxProc, cnValProc, 3, 0, .fork 1 1 2 2⟩,
    ⟨3, cnIdxProc, cnValProc, 7, 0, .exec 7 7⟩], true⟩]

theorem threeLost_reads_73 :
    (∀ e ∈ threeLost, e.received = true → e.key < 1) ∧ BoundedLoss [] threeLost ∧
      numberedEvents (handler.received threeLostTurns) = deliver (fun _ => 3) [] threeLost ∧
      reports [] threeLost = [(0, .fork 1 1 2 2, none), (0, .exec 7 7, some 3)] ∧
      ∀ clock, printedReports clock (handleProcEv 1 threeLostTurns).vars.printed =
        [(0, .fork 1 1 2 2, none), (0, .exec 7 7, some 73)] := by
  refine ⟨by decide, by simp [BoundedLoss, threeLost, lostSince], by decide, by decide, ?_⟩
  intro clock
  have hbehind : behind 7 3 = 73 := by simp [behind, numeral, decimal]
  rw [printedReports_eq, ← hbehind]
  decide

end KeepalivedDevel.ProcessMonitor
