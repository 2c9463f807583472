import KeepalivedDevel.DnsTest.Decode

/-!
# The buffer that `do_query` hands out

`dns_make_query` is given no size. Its `k`-th byte is written at index `k` of
the buffer, so the bytes it returns are also the places it writes to.
-/

namespace KeepalivedDevel.DnsTest
open CLib

/- `char buf[128]` (`dns_test.c:152`). -/
def bufSize : ℕ := 128

def dnsTypeA : UInt16 := 1

/-- The call in `do_query` (`dns_test.c:170`). -/
def doQuery (o : ByteOrder) (random : UInt16) (name : CString) : List UInt8 × ℕ :=
  dnsMakeQuery o random name dnsTypeA.toNat

/-- A name that RFC 1035 allows, as typed. -/
structure DomainName where
  labels : List Label
  final : Bool
  short : (encodeName labels).length ≤ 255

def DomainName.text (n : DomainName) : CString := writtenName n.labels n.final

/- Every byte is written inside the buffer, and the returned length is that of
the header, the encoded name, type and class. -/
def QueryFits (o : ByteOrder) (random : UInt16) (n : DomainName) : Prop :=
  (∀ i, i < (doQuery o random n.text).1.length → i < bufSize) ∧
    (doQuery o random n.text).2 = 12 + (encodeName n.labels).length + 4

theorem doQuery_length (o : ByteOrder) (random : UInt16) (n : DomainName) :
    (doQuery o random n.text).1.length = 12 + (encodeName n.labels).length + 4 := by
  have hid : (store16 o random).length = 2 := by cases o <;> rfl
  unfold doQuery DomainName.text
  rw [dnsMakeQuery_bytes]
  simp only [List.length_append, List.length_cons, List.length_nil, hid]
  omega

theorem doQuery_returned (o : ByteOrder) (random : UInt16) (n : DomainName) :
    (doQuery o random n.text).2 = (doQuery o random n.text).1.length := rfl

theorem queryFits_iff (o : ByteOrder) (random : UInt16) (n : DomainName) :
    QueryFits o random n ↔ (encodeName n.labels).length ≤ 112 := by
  unfold QueryFits
  rw [doQuery_returned, doQuery_length]
  constructor
  · rintro ⟨hinside, -⟩
    have hlast := hinside (12 + (encodeName n.labels).length + 3) (by omega)
    unfold bufSize at hlast
    omega
  · intro hlen
    refine ⟨fun i hi => ?_, rfl⟩
    unfold bufSize
    omega

def letters (k : ℕ) (hpos : 0 < k) (hshort : k ≤ 63) : Label where
  bytes := List.replicate k 97
  nonempty := by simp only [ne_eq, List.replicate_eq_nil_iff]; omega
  short := by rw [List.length_replicate]; exact hshort
  noDot := by simp [List.mem_replicate, dot]
  nulFree := by simp [List.mem_replicate]

/- A label of 63 letters and one of 48, encoded in 114 octets. -/
def twoLabels : DomainName where
  labels := [letters 63 (by decide) (by decide), letters 48 (by decide) (by decide)]
  final := false
  short := by simp [encodeName, encodeLabels, letters]

theorem not_queryFits_twoLabels : ¬ QueryFits .little 0 twoLabels := by
  intro h
  have hlast := h.1 129 (by rw [doQuery_length]; simp [twoLabels, encodeName, encodeLabels, letters])
  exact absurd hlast (by decide)

end KeepalivedDevel.DnsTest
