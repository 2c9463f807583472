import Mathlib.Tactic.Common
import Mathlib.Data.Int.Order.Basic

/-!
# `if_mii_status` of `code_test/linkbeat.c` and `code_test/linkbeat1.c`

The link status from the registers of a transceiver. `if_mii_read` answers a
request the driver refuses with `0xffff`, which is also a value a register may
have, and `if_mii_status` reads one register twice to get its current value.
-/

namespace KeepalivedDevel.Linkbeat

inductive Program where
  | linkbeat
  | linkbeat1
  deriving Repr, DecidableEq

/-- What an `SIOCGMIIREG` request ends with: an error with its text, or the
register's value in `val_out`. The driver may also write `phy_id`. -/
inductive Reply where
  | failed (strerror : String)
  | done (phyId valOut : UInt16)
  deriving Repr, DecidableEq

/-- The fields of `ifr`, the requests made so far and the lines printed. -/
structure State where
  ifrName : String
  phyId : UInt16
  regNum : UInt16
  valOut : UInt16
  asked : List (UInt16 × UInt16)
  printed : List String
  deriving Repr, DecidableEq

def miiBmcr : UInt16 := 0
def miiBmsr : UInt16 := 1
def bmsrLstatus : UInt16 := 0x0004

def linkUp : ℤ := 1
def linkDown : ℤ := 0

/-! ### `if_mii_read` -/

/- The bits of the two registers in the order `linkbeat1.c` tests them. -/
def bmcrFlags : List (UInt16 × String) :=
  [(0x0040, " MSB of Speed (1000),"), (0x0080, " Collision test,"), (0x0100, " Full duplex,"),
   (0x0200, " Auto negotiation restart,"), (0x0400, " Isolate data paths from MII,"),
   (0x0800, " Enable low power state,"), (0x1000, " Enable auto negotiation,"),
   (0x2000, " Select 100Mbps,"), (0x4000, " TXD loopback bits,"), (0x8000, " Reset to default state,"),
   (0x0000, " Select 10Mbps,")]

def bmsrFlags : List (UInt16 × String) :=
  [(0x0001, " Ext-reg capability,"), (0x0002, " Jabber detected,"), (0x0004, " Link status,"),
   (0x0008, " Able to do auto-negotiation,"), (0x0010, " Remote fault detected,"),
   (0x0020, " Auto-negotiation complete,"), (0x00c0, " Unused...,"),
   (0x0100, " Extended Status in R15,"), (0x0200, " Can do 100BASE-T2 HDX,"),
   (0x0400, " Can do 100BASE-T2 FDX,"), (0x0800, " Can do 10mbps, half-duplex,"),
   (0x1000, " Can do 10mbps, full-duplex,"), (0x2000, " Can do 100mbps, half-duplex,"),
   (0x4000, " Can do 100mbps, full-duplex,"), (0x8000, " Can do 100mbps, 4k packets,")]

def flagLine (title : String) (flags : List (UInt16 × String)) (valOut : UInt16) : String :=
  title ++ String.join ((flags.filter fun flag => valOut &&& flag.1 ≠ 0).map Prod.snd) ++ "\n"

def flagLines (program : Program) (regNum valOut : UInt16) : List String :=
  match program with
  | .linkbeat => []
  | .linkbeat1 =>
    if regNum = miiBmcr then [flagLine "\tBMCR:" bmcrFlags valOut]
    else if regNum = miiBmsr then [flagLine "\tBMSR:" bmsrFlags valOut]
    else []

/- The format `%x`, and `%4.4x` with `width` 4. -/
def hex (width : ℕ) (n : UInt16) : String :=
  let digits := Nat.toDigits 16 n.toNat
  String.ofList (List.replicate (width - digits.length) '0' ++ digits)

def print (s : State) (lines : List String) : State := { s with printed := s.printed ++ lines }

def ifMiiRead (program : Program) (replies : ℕ → Reply) (phyId regNum : UInt16) (s : State) :
    UInt16 × State :=
  let request := { s with phyId, regNum, asked := s.asked ++ [(phyId, regNum)] }
  match replies s.asked.length with
  | .failed strerror => (0xffff, print request ["MIIREG " ++ strerror ++ "\n"])
  | .done phyId valOut =>
    let line := "mii read reg " ++ toString regNum.toNat ++ " returns 0x" ++ hex 0 valOut ++ "\n"
    (valOut, print { request with phyId, valOut } (line :: flagLines program regNum valOut))

/-! ### `if_mii_status` -/

def isUp (bmsr newBmsr : UInt16) : Bool := bmsr &&& bmsrLstatus ≠ 0 || newBmsr &&& bmsrLstatus ≠ 0

def statusFailed (s : State) : ℤ × State := (-1, print s ["mii status failed " ++ s.ifrName ++ "\n"])

def ifMiiStatus (program : Program) (replies : ℕ → Reply) (s : State) : ℤ × State :=
  let phyId := s.phyId
  let (bmcr, s) := ifMiiRead program replies phyId miiBmcr s
  if bmcr = 0xffff then statusFailed s
  else
    let (bmsr, s) := ifMiiRead program replies phyId miiBmsr s
    if bmsr = 0 then statusFailed s
    else
      let (newBmsr, s) := ifMiiRead program replies phyId miiBmsr s
      let line := "Basic Mode Status Register 0x" ++ hex 4 bmsr ++ " ... 0x" ++ hex 4 newBmsr ++ "\n"
      (if isUp bmsr newBmsr then linkUp else linkDown, print s [line])

/-! ### What is read and what is returned -/

def Reply.value : Reply → UInt16
  | .failed _ => 0xffff
  | .done _ valOut => valOut

def Reply.isFailed : Reply → Bool
  | .failed _ => true
  | .done _ _ => false

theorem ifMiiRead_value (program : Program) (replies : ℕ → Reply) (phyId regNum : UInt16) (s : State) :
    (ifMiiRead program replies phyId regNum s).1 = (replies s.asked.length).value := by
  unfold ifMiiRead
  cases replies s.asked.length <;> rfl

theorem ifMiiRead_asked (program : Program) (replies : ℕ → Reply) (phyId regNum : UInt16) (s : State) :
    (ifMiiRead program replies phyId regNum s).2.asked = s.asked ++ [(phyId, regNum)] := by
  unfold ifMiiRead
  cases replies s.asked.length <;> rfl

/- The status in terms of the three values, whether or not all are read. -/
def statusOf (bmcr bmsr newBmsr : UInt16) : ℤ :=
  if bmcr = 0xffff ∨ bmsr = 0 then -1 else if isUp bmsr newBmsr then linkUp else linkDown

theorem ifMiiStatus_fst (program : Program) (replies : ℕ → Reply) (s : State) :
    (ifMiiStatus program replies s).1 =
      statusOf (replies s.asked.length).value (replies (s.asked.length + 1)).value
        (replies (s.asked.length + 2)).value := by
  simp only [ifMiiStatus, ifMiiRead_value, ifMiiRead_asked, List.length_append, List.length_singleton,
    statusOf]
  by_cases hbmcr : (replies s.asked.length).value = 0xffff
  · rw [if_pos hbmcr, if_pos (.inl hbmcr)]
    rfl
  · rw [if_neg hbmcr]
    by_cases hbmsr : (replies (s.asked.length + 1)).value = 0
    · rw [if_pos hbmsr, if_pos (.inr hbmsr)]
      rfl
    · rw [if_neg hbmsr, if_neg (not_or.mpr ⟨hbmcr, hbmsr⟩)]

/- The requests are for the control register and, as long as nothing is wrong,
   twice for the status register, all to the transceiver `ifr` names. -/
theorem ifMiiStatus_asked (program : Program) (replies : ℕ → Reply) (s : State) :
    ∃ k, (ifMiiStatus program replies s).2.asked =
      s.asked ++ [(s.phyId, miiBmcr), (s.phyId, miiBmsr), (s.phyId, miiBmsr)].take (k + 1) := by
  simp only [ifMiiStatus, ifMiiRead_value]
  split
  · exact ⟨0, ifMiiRead_asked ..⟩
  · split
    · refine ⟨1, ?_⟩
      simp [statusFailed, print, ifMiiRead_asked]
    · refine ⟨2, ?_⟩
      simp [print, ifMiiRead_asked]

/-! ### The status of failed reads -/

/- The status is `-1` whenever a read failed, and up only by the current value. -/
def StatusSound (bmcr bmsr newBmsr : Reply) (status : ℤ) : Prop :=
  (bmcr.isFailed ∨ bmsr.isFailed ∨ newBmsr.isFailed → status = -1) ∧
  (status = linkUp → ∃ phyId valOut, newBmsr = .done phyId valOut ∧ valOut &&& bmsrLstatus ≠ 0)

theorem statusSound_minus_one (bmcr bmsr newBmsr : Reply) : StatusSound bmcr bmsr newBmsr (-1) :=
  ⟨fun _ => rfl, fun h => absurd h (by decide)⟩

theorem failed_isUp (bmsr : UInt16) : isUp 0xffff bmsr = true ∧ isUp bmsr 0xffff = true := by
  have hset : (0xffff : UInt16) &&& bmsrLstatus ≠ 0 := by decide
  simp [isUp, hset]

theorem status_sound_iff (program : Program) (replies : ℕ → Reply) (s : State) :
    StatusSound (replies s.asked.length) (replies (s.asked.length + 1)) (replies (s.asked.length + 2))
        (ifMiiStatus program replies s).1 ↔
      (replies s.asked.length).value = 0xffff ∨
      (replies (s.asked.length + 1)).value = 0 ∨
      ∃ phyId bmsr phyId' newBmsr,
        replies (s.asked.length + 1) = .done phyId bmsr ∧
        replies (s.asked.length + 2) = .done phyId' newBmsr ∧
        (bmsr &&& bmsrLstatus = 0 ∨ newBmsr &&& bmsrLstatus ≠ 0) := by
  rw [ifMiiStatus_fst]
  generalize replies s.asked.length = first
  generalize replies (s.asked.length + 1) = second
  generalize replies (s.asked.length + 2) = third
  by_cases hbmcr : first.value = 0xffff
  · rw [statusOf, if_pos (.inl hbmcr)]
    exact iff_of_true (statusSound_minus_one ..) (.inl hbmcr)
  by_cases hbmsr : second.value = 0
  · rw [statusOf, if_pos (.inr hbmsr)]
    exact iff_of_true (statusSound_minus_one ..) (.inr (.inl hbmsr))
  rw [statusOf, if_neg (not_or.mpr ⟨hbmcr, hbmsr⟩), or_iff_right hbmcr, or_iff_right hbmsr]
  obtain ⟨phy, bmcr, rfl⟩ : ∃ phy bmcr, first = .done phy bmcr := by
    cases first with
    | failed e => exact absurd rfl hbmcr
    | done phy bmcr => exact ⟨phy, bmcr, rfl⟩
  -- A failed status read has the link bit set, like every bit of `0xffff`.
  cases second with
  | failed e =>
    rw [Reply.value, (failed_isUp _).1, if_pos rfl]
    refine iff_of_false ?_ ?_
    · intro h
      exact absurd (h.1 (.inr (.inl rfl))) (by decide)
    · simp
  | done phyId bmsr =>
    cases third with
    | failed e =>
      rw [Reply.value, Reply.value, (failed_isUp _).2, if_pos rfl]
      refine iff_of_false ?_ ?_
      · intro h
        exact absurd (h.1 (.inr (.inr rfl))) (by decide)
      · simp
    | done phyId' newBmsr =>
      simp only [StatusSound, Reply.isFailed, Reply.value, isUp]
      by_cases hold : bmsr &&& bmsrLstatus = 0 <;> by_cases hnew : newBmsr &&& bmsrLstatus = 0 <;>
        simp [hold, hnew, linkUp, linkDown]

/- Both status reads are refused and the link is reported to be up. -/
theorem refused_reads_up :
    let replies : ℕ → Reply := fun n =>
      if n = 0 then .done 1 0x1000 else .failed "Operation not supported"
    let s : State := ⟨"eth0", 1, 0, 0, [], []⟩
    (ifMiiStatus .linkbeat1 replies s).1 = linkUp ∧ (ifMiiStatus .linkbeat replies s).1 = linkUp ∧
      ¬ StatusSound (replies 0) (replies 1) (replies 2) (ifMiiStatus .linkbeat1 replies s).1 := by
  refine ⟨by decide, by decide, ?_⟩
  intro h
  exact absurd (h.1 (.inr (.inl rfl))) (by decide)

end KeepalivedDevel.Linkbeat
