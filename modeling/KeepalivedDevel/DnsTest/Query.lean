import KeepalivedDevel.CLib.While
import KeepalivedDevel.CLib.CString
import KeepalivedDevel.CLib.ByteOrder

/-!
# `dns_make_query` of `code_test/dns_test.c`

The function fills a header, writes the name as length-prefixed labels and
appends type and class. `p` only moves forward over bytes just written, so the
buffer is modelled by the bytes before `p`. The identifier is what `random()`
returned, stored in host order.
-/

namespace KeepalivedDevel.DnsTest
open CLib CLib.While

structure DnsHeader where
  id : UInt16
  flags : UInt16
  qdcount : UInt16
  ancount : UInt16
  nscount : UInt16
  arcount : UInt16
  deriving Repr, DecidableEq

def DnsHeader.store (o : ByteOrder) (h : DnsHeader) : List UInt8 :=
  store16 o h.id ++ store16 o h.flags ++ store16 o h.qdcount ++ store16 o h.ancount ++
    store16 o h.nscount ++ store16 o h.arcount

-- DNS_SET_RD (dns_test.c:61)
def dnsSetRd (flags val : UInt16) : UInt16 := flags ||| ((val &&& 0x0001) <<< 8)

-- APPEND16 (dns_test.c:83-86); the argument of htons is converted to 16 bits
def append16 (o : ByteOrder) (p : List UInt8) (y : ℤ) : List UInt8 :=
  p ++ store16 o (htons o (UInt16.ofInt y))

abbrev dot : UInt8 := 46

structure Qname where
  s : List UInt8
  p : List UInt8
  deriving Repr, DecidableEq

/-- One pass of the label loop (`dns_test.c:109-116`). The step expression of
the `for` moves over the dot when there is one. -/
def qnameBody (c : Qname) : Pass Qname (List UInt8) :=
  if c.s = [] then .leave c.p
  else match strchr dot c.s with
    | none => .again ⟨[], c.p ++ (UInt8.ofNat c.s.length :: c.s)⟩
    | some e => .again ⟨e.rest, c.p ++ (UInt8.ofNat e.text.length :: e.text)⟩

theorem qnameBody_decreases : Decreases qnameBody (fun c => c.s.length) := by
  intro c t h
  show t.s.length < c.s.length
  unfold qnameBody at h
  split at h
  · cases h
  · rename_i hs
    cases he : strchr dot c.s with
    | none =>
      rw [he] at h
      cases h
      exact List.length_pos_of_ne_nil hs
    | some e =>
      rw [he] at h
      cases h
      have hsplit := congrArg List.length (strchr_some he).1
      simp only [List.length_append, List.length_cons] at hsplit
      show e.rest.length < c.s.length
      omega

def qnameLoop (name p : List UInt8) : List UInt8 :=
  run qnameBody (fun c => c.s.length) qnameBody_decreases ⟨name, p⟩

/-- The query in the buffer and the returned length (`dns_test.c:88-125`). -/
def dnsMakeQuery (o : ByteOrder) (random : UInt16) (name : CString) (type : ℤ) :
    List UInt8 × ℕ :=
  let flags := dnsSetRd 0 1
  let header : DnsHeader :=
    ⟨random, htons o flags, htons o 1, htons o 0, htons o 0, htons o 0⟩
  let p := qnameLoop name.bytes (header.store o)
  let p := if name.at 0 ≠ dot ∨ name.at 1 ≠ 0 then p ++ [0] else p
  let p := append16 o p type
  let p := append16 o p 1
  (p, p.length)

end KeepalivedDevel.DnsTest
