import KeepalivedDevel.StringParser.Code

/-!
# The output buffer of `string_parser.c`

`op_buf` has MAXBUF bytes and nothing compares `ofs_op` with its end. Within a
word the output never gets ahead of the input, so the length of the source
string bounds every index written.
-/

namespace KeepalivedDevel.StringParser
open CLib CLib.While

def maxBuf : ℕ := 4096

/-! ### One word -/

/-- The inner loop is entered at `w` in some pass of the outer loop. -/
def WordStart (src : CString) (w : Cursor) : Prop :=
  ∃ s ch rest, Reaches outerBody ⟨src.bytes, none, []⟩ s ∧
    s.ofs.drop (strspn s.ofs whiteSpace) = ch :: rest ∧ ch ∉ commentStartChrs ∧
    w = ⟨ch :: rest, [], s.curQuote⟩

/-- The positions of both cursors in the word that starts at `w`: before a pass of
the inner loop, behind the text saved in it, and when the loop is left. -/
inductive Position (w : Cursor) : Cursor → Prop where
  | head {c : Cursor} : Reaches innerBody w c → Position w c
  | saved {c : Cursor} {ofs1 : Found} : Reaches innerBody w c →
      strpbrk (delimiters c.curQuote) c.ofs = some ofs1 →
      Position w ⟨ofs1.ch :: ofs1.rest, c.opBuf ++ ofs1.text, c.curQuote⟩
  | left {d : Cursor} : innerLoop w = .ok d → Position w d

/-- The indices of `op_buf` a pass of the inner loop writes to, the NUL that
`strcpy` appends among them. -/
def writes (c : Cursor) : List ℕ :=
  if c.ofs = [] then []
  else match strpbrk (delimiters c.curQuote) c.ofs with
    | none =>
      match c.curQuote with
      | some _ => []
      | none => List.range' c.opBuf.length (c.ofs.length + 1)
    | some ofs1 =>
      List.range' c.opBuf.length ofs1.text.length ++
        if ofs1.ch = backslash ∧ (escape ofs1.rest).isSome
        then [c.opBuf.length + ofs1.text.length] else []

/-- The indices written in a run: those of the passes and that of the NUL behind
each word. -/
inductive Written (src : CString) : ℕ → Prop where
  | pass {w c : Cursor} {i : ℕ} : WordStart src w → Reaches innerBody w c → i ∈ writes c →
      Written src i
  | nul {w d : Cursor} : WordStart src w → innerLoop w = .ok d → Written src d.opBuf.length

def Cursor.total (c : Cursor) : ℕ := c.opBuf.length + c.ofs.length

theorem found_total {c : Cursor} {f : Found} (h : strpbrk (delimiters c.curQuote) c.ofs = some f) :
    c.total = c.opBuf.length + f.text.length + f.rest.length + 1 := by
  have hlen := congrArg List.length (strpbrk_some h).1
  rw [List.length_append, List.length_cons] at hlen
  rw [Cursor.total, hlen]
  omega

theorem innerBody_total {s t : Cursor} (h : innerBody s = .again t) : t.total ≤ s.total := by
  obtain ⟨f, hf, hd⟩ := innerBody_again h
  rw [found_total hf]
  rcases delimiter_cases (s.opBuf ++ f.text) s.curQuote f.ch f.rest with
    ⟨_, _, he⟩ | ⟨v, ofs, _, hv, he⟩ | ⟨q, _, _, he⟩ | ⟨q, _, _, he⟩ | ⟨_, _, _, he⟩ <;>
    rw [hd] at he <;> cases he
  · have hlt := escape_length hv
    simp only [Cursor.total, List.length_append, List.length_singleton]
    omega
  · simp only [Cursor.total, List.length_append]
    omega
  · simp only [Cursor.total, List.length_append]
    omega

theorem reaches_total {w c : Cursor} (h : Reaches innerBody w c) : c.total ≤ w.total := by
  induction h with
  | enter => exact le_rfl
  | pass _ hb ih => exact (innerBody_total hb).trans ih

theorem innerBody_leave_total {s d : Cursor} (h : innerBody s = .leave (.ok d)) :
    d.total ≤ s.total := by
  rcases innerBody_cases s with ⟨_, he⟩ | ⟨q, _, _, _, he⟩ | ⟨_, _, _, he⟩ | ⟨f, hf, he⟩ <;>
    rw [h] at he
  · cases he
    exact le_rfl
  · cases he
  · cases he
    simp [Cursor.total]
  · rw [found_total hf, (delimiter_leave he.symm).1]
    simp only [Cursor.total, List.length_append, List.length_cons]
    omega

theorem position_total {w c : Cursor} (h : Position w c) : c.total ≤ w.total := by
  cases h with
  | head hc => exact reaches_total hc
  | saved hc hf =>
    refine le_trans ?_ (reaches_total hc)
    rw [found_total hf]
    simp only [Cursor.total, List.length_append, List.length_cons]
    omega
  | left hd =>
    obtain ⟨t, ht, hb⟩ := reaches_run innerBody_decreases w
    have hrun : run innerBody (fun c => c.ofs.length) innerBody_decreases w = .ok c := hd
    rw [hrun] at hb
    exact (innerBody_leave_total hb).trans (reaches_total ht)

theorem writes_le {c : Cursor} {i : ℕ} (h : i ∈ writes c) : i ≤ c.total := by
  unfold writes at h
  split at h
  · cases h
  · split at h
    · split at h
      · cases h
      · rw [List.mem_range'_1] at h
        unfold Cursor.total
        omega
    · next ofs1 hf =>
      rw [found_total hf]
      rcases List.mem_append.mp h with h | h
      · rw [List.mem_range'_1] at h
        omega
      · split at h
        · rw [List.mem_singleton.mp h]
          omega
        · cases h

/-! ### The run -/

theorem outerBody_consumes {s t : Outer} (h : outerBody s = .again t) :
    t.ofs.length < s.ofs.length ∧ ∃ word, t.words = s.words ++ [word] := by
  refine ⟨outerBody_decreases s t h, ?_⟩
  rcases outerBody_cases s with
    ⟨_, he⟩ | ⟨ch, rest, _, ⟨_, he⟩ | ⟨e, _, _, he⟩ | ⟨c, _, _, he⟩⟩ <;> rw [h] at he <;> cases he
  exact ⟨c.opBuf, rfl⟩

theorem reaches_length {s t : Outer} (h : Reaches outerBody s t) : t.ofs.length ≤ s.ofs.length := by
  induction h with
  | enter => exact le_rfl
  | pass _ hb ih => exact (outerBody_consumes hb).1.le.trans ih

theorem wordStart_total {src : CString} {w : Cursor} (h : WordStart src w) :
    w.opBuf = [] ∧ w.total ≤ src.bytes.length := by
  obtain ⟨s, ch, rest, hs, hd, _, rfl⟩ := h
  have hle := (skipped_head hd).2
  have hsrc : s.ofs.length ≤ src.bytes.length := reaches_length hs
  simp only [Cursor.total, List.length_nil, true_and]
  omega

theorem written_le {src : CString} {i : ℕ} (h : Written src i) : i ≤ src.bytes.length := by
  cases h with
  | pass hw hc hi =>
    exact (writes_le hi).trans ((reaches_total hc).trans (wordStart_total hw).2)
  | @nul w d hw hd =>
    have htotal := (position_total (.left hd)).trans (wordStart_total hw).2
    unfold Cursor.total at htotal
    omega

theorem parser_bounds (src : CString) :
    (∃ o, Ends outerBody ⟨src.bytes, none, []⟩ o) ∧
    (∀ w, ∃ r, Ends innerBody w r) ∧
    (∀ s t, Reaches outerBody ⟨src.bytes, none, []⟩ s → outerBody s = .again t →
      t.ofs.length < s.ofs.length ∧ ∃ word, t.words = s.words ++ [word]) ∧
    (∀ w c, WordStart src w → Position w c →
      c.ofs.length ≤ w.ofs.length ∧ c.opBuf.length ≤ w.ofs.length - c.ofs.length) ∧
    ∀ i, Written src i → i ≤ src.bytes.length ∧ (src.bytes.length < maxBuf → i < maxBuf) := by
  refine ⟨⟨_, ends_run outerBody_decreases _⟩, fun w => ⟨_, ends_run innerBody_decreases w⟩,
    fun s t _ h => outerBody_consumes h, ?_, ?_⟩
  · intro w c hw hc
    have htotal := position_total hc
    rw [Cursor.total, Cursor.total, (wordStart_total hw).1, List.length_nil] at htotal
    omega
  · intro i hi
    have hle := written_le hi
    exact ⟨hle, fun hlt => hle.trans_lt hlt⟩

end KeepalivedDevel.StringParser
