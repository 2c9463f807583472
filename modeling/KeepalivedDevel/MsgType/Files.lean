import KeepalivedDevel.MsgType.Lookup
import Mathlib.Data.List.Nodup

/-!
# `code_test/array_switch.c` and `code_test/ipvs_array_switch.c`

The builds of `get_nl_msg_type` in the two files, and the types on which they
return the same string.
-/

namespace KeepalivedDevel.MsgType

/-! ### `array_switch.c` -/

inductive Rtm where
  | newLink | delLink | newAddr | delAddr | newRoute | delRoute | newRule | delRule
  | getLink | getAddr
  deriving Repr, DecidableEq

/- The constant's name, which `#x` in `strval` turns into a string. -/
def Rtm.text : Rtm → String
  | .newLink => "RTM_NEWLINK"
  | .delLink => "RTM_DELLINK"
  | .newAddr => "RTM_NEWADDR"
  | .delAddr => "RTM_DELADDR"
  | .newRoute => "RTM_NEWROUTE"
  | .delRoute => "RTM_DELROUTE"
  | .newRule => "RTM_NEWRULE"
  | .delRule => "RTM_DELRULE"
  | .getLink => "RTM_GETLINK"
  | .getAddr => "RTM_GETADDR"

/- The constants in the order of the `strval` lines. -/
def Rtm.strvals : List Rtm :=
  [.newLink, .delLink, .newAddr, .delAddr, .newRoute, .delRoute, .newRule, .delRule, .getLink,
    .getAddr]

/- The cases of the plain switch, with the strings it spells out. -/
def Rtm.cases : List (Rtm × String) :=
  [(.newLink, "RTM_NEWLINK"), (.delLink, "RTM_DELLINK"), (.newAddr, "RTM_NEWADDR"),
    (.delAddr, "RTM_DELADDR"), (.newRoute, "RTM_NEWROUTE"), (.delRoute, "RTM_DELROUTE"),
    (.newRule, "RTM_NEWRULE"), (.delRule, "RTM_DELRULE"), (.getLink, "RTM_GETLINK"),
    (.getAddr, "RTM_GETADDR")]

/- `min_val` is one of the constants. -/
structure RtmHeader where
  val : Rtm → UInt32
  distinct : Function.Injective val
  newLink_le : ∀ x, val .newLink ≤ val x

def RtmHeader.header (h : RtmHeader) : Header Rtm :=
  ⟨h.val, h.val .newLink, h.distinct, h.newLink_le⟩

namespace ArraySwitch

def getNlMsgTypeArray (h : RtmHeader) : UInt32 → Result :=
  getArray h.header Rtm.strvals Rtm.text ""

def getNlMsgTypeArrayMin (h : RtmHeader) : UInt32 → Result :=
  getArrayMin h.header Rtm.strvals Rtm.text ""

def getNlMsgTypeSwitchDef (h : RtmHeader) : UInt32 → Result :=
  getCases h.header (Rtm.strvals.map fun x => (x, x.text)) ""

def getNlMsgTypeSwitch (h : RtmHeader) : UInt32 → Result :=
  getCases h.header Rtm.cases ""

def Agree (h : RtmHeader) (type : UInt32) : Prop :=
  ∃ s, getNlMsgTypeArray h type = .ok (some s) ∧ getNlMsgTypeArrayMin h type = .ok (some s) ∧
    getNlMsgTypeSwitchDef h type = .ok (some s) ∧ getNlMsgTypeSwitch h type = .ok (some s)

end ArraySwitch

/-! ### `ipvs_array_switch.c` -/

inductive IpVs where
  | getInfo | setAdd | setAddDest | setDel | setDelDest | setEdit | setEditDest | setFlush
  | setStartDaemon | setStopDaemon | setTimeout | setZero
  deriving Repr, DecidableEq

def IpVs.text : IpVs → String
  | .getInfo => "IP_VS_SO_GET_INFO"
  | .setAdd => "IP_VS_SO_SET_ADD"
  | .setAddDest => "IP_VS_SO_SET_ADDDEST"
  | .setDel => "IP_VS_SO_SET_DEL"
  | .setDelDest => "IP_VS_SO_SET_DELDEST"
  | .setEdit => "IP_VS_SO_SET_EDIT"
  | .setEditDest => "IP_VS_SO_SET_EDITDEST"
  | .setFlush => "IP_VS_SO_SET_FLUSH"
  | .setStartDaemon => "IP_VS_SO_SET_STARTDAEMON"
  | .setStopDaemon => "IP_VS_SO_SET_STOPDAEMON"
  | .setTimeout => "IP_VS_SO_SET_TIMEOUT"
  | .setZero => "IP_VS_SO_SET_ZERO"

def IpVs.strvals : List IpVs :=
  [.getInfo, .setAdd, .setAddDest, .setDel, .setDelDest, .setEdit, .setEditDest, .setFlush,
    .setStartDaemon, .setStopDaemon, .setTimeout, .setZero]

/- The comparisons under IFS, with the strings they spell out. -/
def IpVs.ifs : List (IpVs × String) :=
  [(.getInfo, "IP_VS_SO_GET_INFO"), (.setAdd, "IP_VS_SO_SET_ADD"),
    (.setAddDest, "IP_VS_SO_SET_ADDDEST"), (.setDel, "IP_VS_SO_SET_DEL"),
    (.setDelDest, "IP_VS_SO_SET_DELDEST"), (.setEdit, "IP_VS_SO_SET_EDIT"),
    (.setEditDest, "IP_VS_SO_SET_EDITDEST"), (.setFlush, "IP_VS_SO_SET_FLUSH"),
    (.setStartDaemon, "IP_VS_SO_SET_STARTDAEMON"), (.setStopDaemon, "IP_VS_SO_SET_STOPDAEMON"),
    (.setTimeout, "IP_VS_SO_SET_TIMEOUT"), (.setZero, "IP_VS_SO_SET_ZERO")]

def IpVs.cases : List (IpVs × String) :=
  [(.getInfo, "IP_VS_SO_GET_INFO"), (.setAdd, "IP_VS_SO_SET_ADD"),
    (.setAddDest, "IP_VS_SO_SET_ADDDEST"), (.setDel, "IP_VS_SO_SET_DEL"),
    (.setDelDest, "IP_VS_SO_SET_DELDEST"), (.setEdit, "IP_VS_SO_SET_EDIT"),
    (.setEditDest, "IP_VS_SO_SET_EDITDEST"), (.setFlush, "IP_VS_SO_SET_FLUSH"),
    (.setStartDaemon, "IP_VS_SO_SET_STARTDAEMON"), (.setStopDaemon, "IP_VS_SO_SET_STOPDAEMON"),
    (.setTimeout, "IP_VS_SO_SET_TIMEOUT"), (.setZero, "IP_VS_SO_SET_ZERO")]

namespace IpvsArraySwitch

def getNlMsgTypeIfs (k : Header IpVs) : UInt32 → Result :=
  getCases k IpVs.ifs "(unknown)"

def getNlMsgTypeArray (k : Header IpVs) : UInt32 → Result :=
  getArray k IpVs.strvals IpVs.text "(unknown)"

def getNlMsgTypeArrayMin (k : Header IpVs) : UInt32 → Result :=
  getArrayMin k IpVs.strvals IpVs.text "(unknown)"

def getNlMsgTypeSwitchDef (k : Header IpVs) : UInt32 → Result :=
  getCases k (IpVs.strvals.map fun x => (x, x.text)) "(unknown)"

def getNlMsgTypeSwitch (k : Header IpVs) : UInt32 → Result :=
  getCases k IpVs.cases "(unknown)"

def Agree (k : Header IpVs) (type : UInt32) : Prop :=
  ∃ s, getNlMsgTypeIfs k type = .ok (some s) ∧ getNlMsgTypeArray k type = .ok (some s) ∧
    getNlMsgTypeArrayMin k type = .ok (some s) ∧ getNlMsgTypeSwitchDef k type = .ok (some s) ∧
    getNlMsgTypeSwitch k type = .ok (some s)

end IpvsArraySwitch

/-! ### Agreement -/

theorem rtm_mem_strvals (x : Rtm) : x ∈ Rtm.strvals := by
  cases x <;> decide

theorem ipVs_mem_strvals (x : IpVs) : x ∈ IpVs.strvals := by
  cases x <;> decide

theorem rtm_injective {α : Type} {f : Rtm → α} (h : (Rtm.strvals.map f).Nodup) :
    Function.Injective f :=
  fun x y he => List.inj_on_of_nodup_map h (rtm_mem_strvals x) (rtm_mem_strvals y) he

theorem ipVs_injective {α : Type} {f : IpVs → α} (h : (IpVs.strvals.map f).Nodup) :
    Function.Injective f :=
  fun x y he => List.inj_on_of_nodup_map h (ipVs_mem_strvals x) (ipVs_mem_strvals y) he

theorem rtm_text_injective : Function.Injective Rtm.text := rtm_injective (by decide)

theorem ipVs_text_injective : Function.Injective IpVs.text := ipVs_injective (by decide)

/- Every way but ARRAY_MIN gives what the switch gives, and that is a string. -/
theorem arraySwitch_agree_iff (h : RtmHeader) (type : UInt32) :
    ArraySwitch.Agree h type ↔ h.val .newLink = 0 ∨ ∀ x, h.val x ≠ type := by
  have hcases : Rtm.cases = Rtm.strvals.map fun x => (x, x.text) := rfl
  have harray : getArray h.header Rtm.strvals Rtm.text "" type = _ :=
    getArray_eq_getCases h.header "" rtm_mem_strvals type
  have hmin := getArrayMin_eq_getCases_iff h.header "" rtm_mem_strvals rtm_text_injective type
  unfold ArraySwitch.Agree ArraySwitch.getNlMsgTypeArray ArraySwitch.getNlMsgTypeArrayMin
    ArraySwitch.getNlMsgTypeSwitchDef ArraySwitch.getNlMsgTypeSwitch
  rw [hcases, harray]
  constructor
  · rintro ⟨s, hs, hs', -, -⟩
    exact hmin.mp (hs'.trans hs.symm)
  · intro hor
    exact ⟨_, rfl, (hmin.mpr hor).trans rfl, rfl, rfl⟩

theorem ipvsArraySwitch_agree_iff (k : Header IpVs) (type : UInt32) :
    IpvsArraySwitch.Agree k type ↔ k.minVal = 0 ∨ ∀ x, k.val x ≠ type := by
  have hcases : IpVs.cases = IpVs.strvals.map fun x => (x, x.text) := rfl
  have hifs : IpVs.ifs = IpVs.strvals.map fun x => (x, x.text) := rfl
  have harray : getArray k IpVs.strvals IpVs.text "(unknown)" type = _ :=
    getArray_eq_getCases k "(unknown)" ipVs_mem_strvals type
  have hmin := getArrayMin_eq_getCases_iff k "(unknown)" ipVs_mem_strvals ipVs_text_injective type
  unfold IpvsArraySwitch.Agree IpvsArraySwitch.getNlMsgTypeIfs IpvsArraySwitch.getNlMsgTypeArray
    IpvsArraySwitch.getNlMsgTypeArrayMin IpvsArraySwitch.getNlMsgTypeSwitchDef
    IpvsArraySwitch.getNlMsgTypeSwitch
  rw [hcases, hifs, harray]
  constructor
  · rintro ⟨s, hs, -, hs', -, -⟩
    exact hmin.mp (hs'.trans hs.symm)
  · intro hor
    exact ⟨_, rfl, rfl, (hmin.mpr hor).trans rfl, rfl, rfl⟩

theorem builds_agree_iff (h : RtmHeader) (k : Header IpVs) (type : UInt32) :
    (ArraySwitch.Agree h type ↔ h.val .newLink = 0 ∨ ∀ x, h.val x ≠ type) ∧
      (IpvsArraySwitch.Agree k type ↔ k.minVal = 0 ∨ ∀ x, k.val x ≠ type) :=
  ⟨arraySwitch_agree_iff h type, ipvsArraySwitch_agree_iff k type⟩

/- The values of `linux/rtnetlink.h`. -/
def rtnetlink : RtmHeader where
  val
    | .newLink => 16
    | .delLink => 17
    | .getLink => 18
    | .newAddr => 20
    | .delAddr => 21
    | .getAddr => 22
    | .newRoute => 24
    | .delRoute => 25
    | .newRule => 32
    | .delRule => 33
  distinct := rtm_injective (by decide)
  newLink_le := by
    intro x
    cases x <;> decide

/- The values of `linux/ip_vs.h`, with IP_VS_BASE_CTL. -/
def ipVs : Header IpVs where
  val
    | .getInfo => 1153
    | .setAdd => 1154
    | .setEdit => 1155
    | .setDel => 1156
    | .setFlush => 1157
    | .setAddDest => 1159
    | .setDelDest => 1160
    | .setEditDest => 1161
    | .setTimeout => 1162
    | .setStartDaemon => 1163
    | .setStopDaemon => 1164
    | .setZero => 1167
  minVal := 1152
  distinct := ipVs_injective (by decide)
  minVal_le := by
    intro x
    cases x <;> decide

/- Under ARRAY_MIN a new link is taken for a new rule, and naming an added
service reads far behind the table. -/
theorem not_agree_newLink_setAdd :
    ¬ ArraySwitch.Agree rtnetlink 16 ∧ ¬ IpvsArraySwitch.Agree ipVs 1154 := by
  constructor
  · rintro ⟨s, harray, hmin, -, -⟩
    have hrule : ArraySwitch.getNlMsgTypeArrayMin rtnetlink 16 = .ok (some "RTM_NEWRULE") := rfl
    have hlink : ArraySwitch.getNlMsgTypeArray rtnetlink 16 = .ok (some "RTM_NEWLINK") := rfl
    rw [hlink] at harray
    rw [hrule, ← harray] at hmin
    exact absurd hmin (by decide)
  · rintro ⟨s, -, -, hmin, -, -⟩
    have houtside : IpvsArraySwitch.getNlMsgTypeArrayMin ipVs 1154 = .error 1154 := rfl
    rw [houtside] at hmin
    cases hmin

end KeepalivedDevel.MsgType
