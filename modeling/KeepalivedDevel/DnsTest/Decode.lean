import KeepalivedDevel.DnsTest.Query

/-!
# Decoding a query

The message built by `dns_make_query` is read back by a decoder written from
RFC 1035: a fixed header of big-endian words, then length-prefixed labels up to
the zero label, then type and class.
-/

namespace KeepalivedDevel.DnsTest
open CLib CLib.While

/-- Labels up to the zero label, and what stands behind it. A length octet above
63 is no label. -/
def decodeName : ℕ → List UInt8 → Option (List (List UInt8) × List UInt8)
  | 0, _ => none
  | _ + 1, [] => none
  | fuel + 1, n :: m =>
    if n = 0 then some ([], m)
    else if n ≤ 63 ∧ n.toNat ≤ m.length then
      (decodeName fuel (m.drop n.toNat)).map fun r => (m.take n.toNat :: r.1, r.2)
    else none

structure Label where
  bytes : List UInt8
  nonempty : bytes ≠ []
  short : bytes.length ≤ 63
  noDot : dot ∉ bytes
  nulFree : 0 ∉ bytes

/- A name as it is typed: its labels joined by dots, with or without a final
dot. Without labels this is the root, written as a dot or as nothing. -/
def nameBytes : List Label → Bool → List UInt8
  | [], final => if final then [dot] else []
  | [l], final => l.bytes ++ if final then [dot] else []
  | l :: k :: ls, final => l.bytes ++ dot :: nameBytes (k :: ls) final

theorem nameBytes_nulFree (ls : List Label) (final : Bool) : 0 ∉ nameBytes ls final := by
  induction ls with
  | nil => cases final <;> decide
  | cons l ls ih =>
    cases ls with
    | nil => cases final <;> simp [nameBytes, l.nulFree, dot]
    | cons k ls => simp only [nameBytes, List.mem_append, List.mem_cons, not_or]; exact ⟨l.nulFree, by decide, ih⟩

def writtenName (ls : List Label) (final : Bool) : CString :=
  ⟨nameBytes ls final, nameBytes_nulFree ls final⟩

def encodeLabels (ls : List Label) : List UInt8 :=
  ls.flatMap fun l => UInt8.ofNat l.bytes.length :: l.bytes

def encodeName (ls : List Label) : List UInt8 := encodeLabels ls ++ [0]

/-! ### The label loop -/

theorem qnameLoop_nil (p : List UInt8) : qnameLoop [] p = p :=
  run_leave qnameBody_decreases rfl

theorem qnameLoop_last {s : List UInt8} (p : List UInt8) (hs : s ≠ []) (hd : dot ∉ s) :
    qnameLoop s p = p ++ (UInt8.ofNat s.length :: s) := by
  have hb : qnameBody ⟨s, p⟩ = .again ⟨[], p ++ (UInt8.ofNat s.length :: s)⟩ := by
    simp only [qnameBody, hs, ite_false, strchr_eq_none hd]
  rw [qnameLoop, run_again _ hb]
  exact qnameLoop_nil _

theorem qnameLoop_dot {s : List UInt8} (rest p : List UInt8) (hd : dot ∉ s) :
    qnameLoop (s ++ dot :: rest) p = qnameLoop rest (p ++ (UInt8.ofNat s.length :: s)) := by
  have hne : s ++ dot :: rest ≠ [] := by simp
  have hb : qnameBody ⟨s ++ dot :: rest, p⟩ =
      .again ⟨rest, p ++ (UInt8.ofNat s.length :: s)⟩ := by
    simp only [qnameBody, hne, ite_false, strchr_append rest hd]
  rw [qnameLoop, run_again _ hb]
  rfl

/- The loop over a name with labels: a final dot makes no difference to it. -/
theorem qnameLoop_labels (l : Label) (ls : List Label) (final : Bool) (p : List UInt8) :
    qnameLoop (nameBytes (l :: ls) final) p = p ++ encodeLabels (l :: ls) := by
  induction ls generalizing l p with
  | nil =>
    cases final with
    | false => simpa [nameBytes, encodeLabels] using qnameLoop_last p l.nonempty l.noDot
    | true =>
      have hd := qnameLoop_dot [] p l.noDot
      rw [qnameLoop_nil] at hd
      simpa [nameBytes, encodeLabels] using hd
  | cons k ls ih =>
    rw [nameBytes, qnameLoop_dot _ _ l.noDot, ih]
    simp [encodeLabels]

theorem writtenName_at_zero (l : Label) (ls : List Label) (final : Bool) :
    (writtenName (l :: ls) final).at 0 ≠ dot := by
  obtain ⟨bytes, hne, hshort, hdot, hnul⟩ := l
  cases bytes with
  | nil => exact absurd rfl hne
  | cons c bytes =>
    have hhead : (writtenName (⟨c :: bytes, hne, hshort, hdot, hnul⟩ :: ls) final).at 0 = c := by
      cases ls <;> rfl
    rw [hhead]
    intro hc
    exact hdot (hc ▸ List.mem_cons_self ..)

/- The test that adds the zero label is false for "." alone, where the loop has
already written one. -/
theorem qname_terminated (ls : List Label) (final : Bool) (p : List UInt8) :
    (if (writtenName ls final).at 0 ≠ dot ∨ (writtenName ls final).at 1 ≠ 0 then
      qnameLoop (writtenName ls final).bytes p ++ [0]
    else qnameLoop (writtenName ls final).bytes p) = p ++ encodeName ls := by
  cases ls with
  | nil =>
    cases final with
    | false =>
      have h0 : (writtenName [] false).at 0 ≠ dot := by decide
      rw [if_pos (.inl h0)]
      show qnameLoop [] p ++ [0] = p ++ [0]
      rw [qnameLoop_nil]
    | true =>
      have h0 : ¬ ((writtenName [] true).at 0 ≠ dot ∨ (writtenName [] true).at 1 ≠ 0) := by decide
      rw [if_neg h0]
      show qnameLoop ([] ++ dot :: []) p = p ++ [0]
      rw [qnameLoop_dot [] p (by simp), qnameLoop_nil]
      rfl
  | cons l ls =>
    rw [if_pos (.inl (writtenName_at_zero l ls final))]
    show qnameLoop (nameBytes (l :: ls) final) p ++ [0] = _
    rw [qnameLoop_labels, List.append_assoc]
    rfl

/-! ### The decoder -/

theorem Label.toNat_length (l : Label) :
    (UInt8.ofNat l.bytes.length).toNat = l.bytes.length := by
  have hs := l.short
  rw [UInt8.toNat_ofNat']
  omega

theorem Label.length_ne_zero (l : Label) : UInt8.ofNat l.bytes.length ≠ 0 := by
  intro h
  have hpos := List.length_pos_of_ne_nil l.nonempty
  have hz := congrArg UInt8.toNat h
  rw [l.toNat_length, UInt8.toNat_zero] at hz
  omega

theorem Label.length_le (l : Label) : UInt8.ofNat l.bytes.length ≤ 63 := by
  rw [UInt8.le_iff_toNat_le, l.toNat_length]
  exact l.short

theorem decodeName_encodeLabels (ls : List Label) (m : List UInt8) (fuel : ℕ)
    (hf : ls.length < fuel) :
    decodeName fuel (encodeLabels ls ++ 0 :: m) = some (ls.map Label.bytes, m) := by
  induction ls generalizing fuel with
  | nil =>
    cases fuel with
    | zero => omega
    | succ fuel => rfl
  | cons l ls ih =>
    cases fuel with
    | zero => omega
    | succ fuel =>
      have hcons : encodeLabels (l :: ls) ++ 0 :: m =
          UInt8.ofNat l.bytes.length :: (l.bytes ++ (encodeLabels ls ++ 0 :: m)) := by
        simp [encodeLabels]
      rw [hcons, decodeName, if_neg l.length_ne_zero, l.toNat_length,
        if_pos ⟨l.length_le, by simp⟩, List.drop_left, List.take_left,
        ih fuel (by simpa using hf)]
      rfl

theorem length_encodeLabels (ls : List Label) : ls.length ≤ (encodeLabels ls).length := by
  induction ls with
  | nil => exact le_rfl
  | cons l ls ih =>
    simp only [encodeLabels, List.flatMap_cons, List.length_append, List.length_cons] at ih ⊢
    omega

/-! ### Queries -/

/-- What it means for a message of `len` bytes to ask for a name and a type. -/
structure AsksFor (labels : List (List UInt8)) (type : UInt16) (m : List UInt8) (len : ℕ) :
    Prop where
  length : m.length = len
  flags : be16At m 2 = 0x0100
  qdcount : be16At m 4 = 1
  ancount : be16At m 6 = 0
  nscount : be16At m 8 = 0
  arcount : be16At m 10 = 0
  longEnough : 16 ≤ len
  qname : decodeName len (m.drop 12) = some (labels, m.drop (len - 4))
  qtype : be16At m (len - 4) = type.toNat
  qclass : be16At m (len - 2) = 1

/- The bytes of a query, whatever the byte order of the host. -/
theorem dnsMakeQuery_bytes (o : ByteOrder) (random : UInt16) (ls : List Label) (final : Bool)
    (type : UInt16) :
    (dnsMakeQuery o random (writtenName ls final) type.toNat).1 =
      store16 o random ++ (([1, 0, 0, 1, 0, 0, 0, 0, 0, 0] : List UInt8) ++
        (encodeName ls ++ [(type >>> 8).toUInt8, type.toUInt8, 0, 1])) := by
  have htype : UInt16.ofInt (type.toNat : ℤ) = type := by
    apply UInt16.toNat_inj.mp
    have ht := type.toNat_lt
    simp only [UInt16.ofInt, UInt16.toNat_ofNat']
    omega
  unfold dnsMakeQuery
  dsimp only
  rw [qname_terminated]
  simp only [append16, htype, DnsHeader.store, store16_htons]
  simp only [List.append_assoc]
  rfl

theorem asksFor_bytes (a b : UInt8) (ls : List Label) (type : UInt16) (m : List UInt8)
    (hm : m = [a, b, 1, 0, 0, 1, 0, 0, 0, 0, 0, 0] ++ encodeName ls ++
      [(type >>> 8).toUInt8, type.toUInt8, 0, 1]) :
    AsksFor (ls.map Label.bytes) type m m.length := by
  have hlen : m.length = 12 + ((encodeLabels ls).length + 1) + 4 := by
    rw [hm]
    simp only [encodeName, List.length_append, List.length_cons, List.length_nil]
  have hshort := length_encodeLabels ls
  -- the fields at fixed offsets are read off the bytes; the name and what is
  -- behind it are found from the end of the message
  refine ⟨rfl, ?_, ?_, ?_, ?_, ?_, ?_, ?_, ?_, ?_⟩
  · rw [hm]; rfl
  · rw [hm]; rfl
  · rw [hm]; rfl
  · rw [hm]; rfl
  · rw [hm]; rfl
  · omega
  · have hdrop : m.drop 12 =
        encodeLabels ls ++ ((0 : UInt8) :: [(type >>> 8).toUInt8, type.toUInt8, 0, 1]) := by
      rw [hm]
      simp [encodeName]
    have hend : m.drop (m.length - 4) = [(type >>> 8).toUInt8, type.toUInt8, 0, 1] := by
      rw [hlen, hm]
      exact List.drop_left' (by simp [encodeName]; omega)
    rw [hdrop, hend]
    exact decodeName_encodeLabels ls _ _ (by omega)
  · have ht := be16At_append ([a, b, 1, 0, 0, 1, 0, 0, 0, 0, 0, 0] ++ encodeName ls)
      type [0, 1]
    rw [← hm] at ht
    rw [← ht]
    congr 1
    simp only [encodeName, List.length_append, List.length_cons, List.length_nil]
    omega
  · have hc := be16At_append ([a, b, 1, 0, 0, 1, 0, 0, 0, 0, 0, 0] ++ encodeName ls ++
      [(type >>> 8).toUInt8, type.toUInt8]) 1 []
    have hm' : m = [a, b, 1, 0, 0, 1, 0, 0, 0, 0, 0, 0] ++ encodeName ls ++
        [(type >>> 8).toUInt8, type.toUInt8] ++ [((1 : UInt16) >>> 8).toUInt8, (1 : UInt16).toUInt8] := by
      rw [hm, List.append_assoc _ [(type >>> 8).toUInt8, type.toUInt8]]
      rfl
    rw [← hm'] at hc
    have he : m.length - 2 = ([a, b, 1, 0, 0, 1, 0, 0, 0, 0, 0, 0] ++ encodeName ls ++
        [(type >>> 8).toUInt8, type.toUInt8]).length := by
      simp only [encodeName, List.length_append, List.length_cons, List.length_nil]
      omega
    rw [he, hc]
    rfl

theorem dnsMakeQuery_asksFor (o : ByteOrder) (random : UInt16) (ls : List Label) (final : Bool)
    (type : UInt16) :
    AsksFor (ls.map Label.bytes) type
      (dnsMakeQuery o random (writtenName ls final) type.toNat).1
      (dnsMakeQuery o random (writtenName ls final) type.toNat).2 := by
  obtain ⟨a, b, hid⟩ : ∃ a b, store16 o random = [a, b] := by
    cases o <;> exact ⟨_, _, rfl⟩
  have hb := dnsMakeQuery_bytes o random ls final type
  rw [hid] at hb
  exact asksFor_bytes a b ls type _ (by simpa using hb)

end KeepalivedDevel.DnsTest
