import ZephyrRust.Printk

/-!
# `ZephyrRust.Proofs.Printk`: the chunks that are printed

What the calls of `k_str_out` print is the text, cut between characters. `add_byte` looks at one
byte at a time, but at the first byte of a character it makes room for all of them (`addChar`), so
the continuation bytes after it never flush the buffer (`addByte_continuation`). The invariant
`Wrote` therefore holds between characters, where the bytes in the buffer are valid UTF-8.
-/

set_option autoImplicit false

namespace ZephyrRust.Printk

/-- The bytes are valid UTF-8. -/
def ValidUtf8 (bytes : List UInt8) : Prop := bytes.toByteArray.IsValidUTF8

/-- The bytes of a string, `s.bytes()`. -/
def bytesOf (text : String) : List UInt8 := text.toUTF8.data.toList

/-- The calls print the text in chunks that fit into the buffer, each of them valid UTF-8. -/
structure Prints (calls : List StrOut) (text : List UInt8) : Prop where
  bytes : calls.flatMap StrOut.bytes = text
  sizes : ∀ call ∈ calls, 1 ≤ call.bytes.length ∧ call.bytes.length ≤ bufSize
  counts : ∀ call ∈ calls, call.count = call.bytes.length
  valid : ∀ call ∈ calls, ValidUtf8 call.bytes

theorem ValidUtf8.nil : ValidUtf8 [] := ByteArray.isValidUTF8_empty

theorem ValidUtf8.append_char {bytes : List UInt8} (h : ValidUtf8 bytes) (c : Char) :
    ValidUtf8 (bytes ++ String.utf8EncodeChar c) := by
  unfold ValidUtf8
  rw [List.toByteArray_append]
  exact ByteArray.IsValidUTF8.append h Char.isValidUTF8_toByteArray_utf8EncodeChar

/-! ## The lengths of the bytes of a character -/

theorem length_single : ∀ x : BitVec 8, x < 128#8 → utf8ByteLength ⟨x⟩ = 1 := by
  decide +kernel

theorem length_two : ∀ x : BitVec 8, utf8ByteLength ⟨x &&& 0x1f#8 ||| 0xc0#8⟩ = 2 := by
  decide +kernel

theorem length_three : ∀ x : BitVec 8, utf8ByteLength ⟨x &&& 0x0f#8 ||| 0xe0#8⟩ = 3 := by
  decide +kernel

theorem length_four : ∀ x : BitVec 8, utf8ByteLength ⟨x &&& 0x07#8 ||| 0xf0#8⟩ = 4 := by
  decide +kernel

theorem length_continuation : ∀ x : BitVec 8, utf8ByteLength ⟨x &&& 0x3f#8 ||| 0x80#8⟩ = 1 := by
  decide +kernel

/-- The first byte of a character gives its length, and the bytes after it have length 1. -/
theorem utf8EncodeChar_eq (c : Char) : ∃ b bs, String.utf8EncodeChar c = b :: bs ∧
    utf8ByteLength b = bs.length + 1 ∧ bs.length + 1 ≤ 4 ∧ ∀ x ∈ bs, utf8ByteLength x = 1 := by
  have hcont := fun x : UInt8 => length_continuation x.toBitVec
  rcases c.utf8Size_eq with h | h | h | h
  · refine ⟨_, _, String.utf8EncodeChar_eq_singleton h, length_single _ ?_, by decide, by simp⟩
    have hle : c.val.toNat ≤ 127 := Char.utf8Size_eq_one_iff.mp h
    show c.val.toUInt8.toNat < 128
    rw [UInt32.toNat_toUInt8]
    omega
  · refine ⟨_, _, String.utf8EncodeChar_eq_cons_cons h, length_two _, by simp, ?_⟩
    simpa using hcont _
  · refine ⟨_, _, String.utf8EncodeChar_eq_cons_cons_cons h, length_three _, by simp, ?_⟩
    simpa using ⟨hcont _, hcont _⟩
  · refine ⟨_, _, String.utf8EncodeChar_eq_cons_cons_cons_cons h, length_four _, by simp, ?_⟩
    simpa using ⟨hcont _, hcont _, hcont _⟩

/-- The bytes of a string are those of its characters. -/
theorem bytesOf_eq (text : String) :
    ∃ cs : List Char, bytesOf text = cs.flatMap String.utf8EncodeChar := by
  obtain ⟨cs, hcs⟩ := text.isValidUTF8
  refine ⟨cs, ?_⟩
  show text.toByteArray.data.toList = _
  rw [hcs]
  simp [List.utf8Encode]

namespace St

/-- The bytes in the buffer. -/
def pending (s : St) : List UInt8 := s.context.buf.toList.take s.context.count

/-- Between two characters the text so far is what has been printed and what is in the buffer. -/
structure Wrote (s : St) (text : List UInt8) : Prop where
  count_le : s.context.count ≤ bufSize
  bytes : s.out.flatMap StrOut.bytes ++ s.pending = text
  sizes : ∀ call ∈ s.out, 1 ≤ call.count ∧ call.count ≤ bufSize
  printed : ∀ call ∈ s.out, ValidUtf8 call.bytes
  pending : ValidUtf8 s.pending

theorem new_wrote : new.Wrote [] where
  count_le := Nat.zero_le _
  bytes := rfl
  sizes := by
    intro call h
    cases h
  printed := by
    intro call h
    cases h
  pending := ValidUtf8.nil

theorem flush_wrote {s : St} {text : List UInt8} (h : s.Wrote text) :
    s.flush.Wrote text ∧ s.flush.context.count = 0 := by
  unfold flush
  split
  · rename_i hpos
    refine ⟨⟨Nat.zero_le _, ?_, ?_, ?_, ValidUtf8.nil⟩, rfl⟩
    · rw [← h.bytes, List.flatMap_append]
      simp [St.pending, StrOut.bytes]
    · intro call hcall
      rcases List.mem_append.mp hcall with hold | hnew
      · exact h.sizes call hold
      · rw [List.mem_singleton.mp hnew]
        exact ⟨hpos, h.count_le⟩
    · intro call hcall
      rcases List.mem_append.mp hcall with hold | hnew
      · exact h.printed call hold
      · rw [List.mem_singleton.mp hnew]
        exact h.pending
  · exact ⟨h, by omega⟩

/-- A byte that is put into the buffer. -/
theorem push_eq_ok {s : St} (b : UInt8) (h : s.context.count < bufSize) :
    ∃ s', s.push b = .ok s' ∧ s'.context.count = s.context.count + 1 ∧ s'.out = s.out ∧
      s'.pending = s.pending ++ [b] := by
  refine ⟨_, dif_pos h, rfl, rfl, ?_⟩
  simp only [St.pending, Vector.toList_set]
  have hlen : s.context.count < s.context.buf.toList.length := by
    rw [Vector.length_toList]
    exact h
  rw [List.take_add_one, List.take_set_of_le (Nat.le_refl _), List.getElem?_set_self hlen]
  rfl

/-- Bytes of length 1 do not flush the buffer as long as it has room for them. -/
theorem addByte_continuation {s : St} {bs : List UInt8} (hbs : ∀ b ∈ bs, utf8ByteLength b = 1)
    (hroom : s.context.count + bs.length ≤ bufSize) :
    ∃ s', bs.foldlM addByte s = .ok s' ∧ s'.context.count = s.context.count + bs.length ∧
      s'.out = s.out ∧ s'.pending = s.pending ++ bs := by
  induction bs generalizing s with
  | nil => exact ⟨s, rfl, rfl, rfl, (List.append_nil _).symm⟩
  | cons b bs ih =>
    rw [List.length_cons] at hroom
    obtain ⟨s₁, hpush, hcount, hout, hpending⟩ := push_eq_ok (s := s) b (by omega)
    have hadd : s.addByte b = .ok s₁ := by
      rw [addByte, if_neg, hpush]
      rw [hbs b List.mem_cons_self]
      omega
    obtain ⟨s₂, hfold, hcount₂, hout₂, hpending₂⟩ :=
      ih (s := s₁) (fun x hx => hbs x (List.mem_cons_of_mem b hx)) (by omega)
    refine ⟨s₂, ?_, ?_, hout₂.trans hout, ?_⟩
    · rw [List.foldlM_cons, hadd]
      exact hfold
    · rw [hcount₂, hcount, List.length_cons]
      omega
    · rw [hpending₂, hpending, List.append_assoc]
      rfl

/-- The first byte of a character makes room for all of its bytes. -/
theorem makeRoom {s : St} {text : List UInt8} {b : UInt8} (h : s.Wrote text)
    (hb : utf8ByteLength b ≤ 4) :
    ∃ s' : St, s.addByte b = s'.push b ∧ s'.Wrote text ∧
      s'.context.count + utf8ByteLength b ≤ bufSize := by
  unfold addByte
  split
  · -- The buffer is empty after the flush, and a character has 4 bytes at most.
    obtain ⟨hflush, hcount⟩ := flush_wrote h
    refine ⟨s.flush, rfl, hflush, ?_⟩
    show _ ≤ 32
    omega
  · exact ⟨s, rfl, h, by omega⟩

/-- A character. -/
theorem addChar {s : St} {text : List UInt8} (h : s.Wrote text) (c : Char) :
    ∃ s', (String.utf8EncodeChar c).foldlM addByte s = .ok s' ∧
      s'.Wrote (text ++ String.utf8EncodeChar c) := by
  obtain ⟨b, bs, hc, hb, hlen, hbs⟩ := utf8EncodeChar_eq c
  obtain ⟨s₁, hadd, hwrote, hroom⟩ := makeRoom (b := b) h (by omega)
  obtain ⟨s₂, hpush, hcount₂, hout₂, hpending₂⟩ := push_eq_ok (s := s₁) b (by omega)
  obtain ⟨s₃, hfold, hcount₃, hout₃, hpending₃⟩ :=
    addByte_continuation (s := s₂) hbs (by omega)
  -- The buffer is flushed before the first byte only, so the character is in one piece.
  have hpending : s₃.pending = s₁.pending ++ String.utf8EncodeChar c := by
    rw [hpending₃, hpending₂, hc, List.append_assoc]
    rfl
  have hout : s₃.out = s₁.out := hout₃.trans hout₂
  refine ⟨s₃, ?_, by omega, ?_, ?_, ?_, ?_⟩
  · rw [hc, List.foldlM_cons, hadd, hpush]
    exact hfold
  · rw [hout, hpending, ← List.append_assoc, hwrote.bytes]
  · rw [hout]
    exact hwrote.sizes
  · rw [hout]
    exact hwrote.printed
  · rw [hpending]
    exact hwrote.pending.append_char c

/-- The characters of a string. -/
theorem addChars {s : St} {text : List UInt8} (h : s.Wrote text) (cs : List Char) :
    ∃ s', (cs.flatMap String.utf8EncodeChar).foldlM addByte s = .ok s' ∧
      s'.Wrote (text ++ cs.flatMap String.utf8EncodeChar) := by
  induction cs generalizing s text with
  | nil => exact ⟨s, rfl, by simpa using h⟩
  | cons c cs ih =>
    obtain ⟨s₁, hchar, h₁⟩ := addChar h c
    obtain ⟨s₂, hchars, h₂⟩ := ih h₁
    refine ⟨s₂, ?_, ?_⟩
    · rw [List.flatMap_cons, List.foldlM_append, hchar]
      exact hchars
    · rw [List.flatMap_cons, ← List.append_assoc]
      exact h₂

theorem writeStr_eq_ok {s : St} {text : List UInt8} (h : s.Wrote text) (str : String) :
    ∃ s', s.writeStr str = .ok s' ∧ s'.Wrote (text ++ bytesOf str) := by
  obtain ⟨cs, hcs⟩ := bytesOf_eq str
  obtain ⟨s', hfold, hwrote⟩ := addChars h cs
  refine ⟨s', ?_, ?_⟩
  · show (bytesOf str).foldlM addByte s = _
    rw [hcs]
    exact hfold
  · rw [hcs]
    exact hwrote

/-- All strings of a call. -/
theorem writeStrs_eq_ok {s : St} {text : List UInt8} (h : s.Wrote text) (args : List String) :
    ∃ s', args.foldlM writeStr s = .ok s' ∧ s'.Wrote (text ++ args.flatMap bytesOf) := by
  induction args generalizing s text with
  | nil => exact ⟨s, rfl, by simpa using h⟩
  | cons str args ih =>
    obtain ⟨s₁, hstr, h₁⟩ := writeStr_eq_ok h str
    obtain ⟨s₂, hargs, h₂⟩ := ih h₁
    refine ⟨s₂, ?_, ?_⟩
    · rw [List.foldlM_cons, hstr]
      exact hargs
    · rw [List.flatMap_cons, ← List.append_assoc]
      exact h₂

/-- The last flush prints what is left. -/
theorem flush_prints {s : St} {text : List UInt8} (h : s.Wrote text) : Prints s.flush.out text := by
  obtain ⟨hwrote, hcount⟩ := flush_wrote h
  have hlen : ∀ call ∈ s.flush.out, call.bytes.length = call.count := by
    intro call hcall
    have hsize := (hwrote.sizes call hcall).2
    rw [StrOut.bytes, List.length_take, Vector.length_toList]
    omega
  refine ⟨?_, ?_, fun call hcall => (hlen call hcall).symm, hwrote.printed⟩
  · have hbytes := hwrote.bytes
    rwa [St.pending, hcount, List.take_zero, List.append_nil] at hbytes
  · intro call hcall
    rw [hlen call hcall]
    exact hwrote.sizes call hcall

end St

/-- Every call of `printk` and of `printkln` prints its text in chunks of whole characters that fit
into the buffer. -/
theorem printk_chunks (args : List String) :
    (∃ calls, printk args = .ok calls ∧ Prints calls (args.flatMap bytesOf)) ∧
      ∃ calls, printkln args = .ok calls ∧
        Prints calls (args.flatMap bytesOf ++ ['\n'.toUInt8]) := by
  obtain ⟨s, hargs, hwrote⟩ := St.writeStrs_eq_ok St.new_wrote args
  rw [List.nil_append] at hwrote
  constructor
  · refine ⟨s.flush.out, ?_, St.flush_prints hwrote⟩
    rw [printk, hargs]
    rfl
  · obtain ⟨s', hnewline, hwrote'⟩ := St.addChar hwrote '\n'
    refine ⟨s'.flush.out, ?_, St.flush_prints hwrote'⟩
    have hadd : s.addByte '\n'.toUInt8 = .ok s' := by
      rw [← hnewline]
      show _ = [('\n'.toUInt8)].foldlM St.addByte s
      rw [List.foldlM_cons]
      cases s.addByte '\n'.toUInt8 <;> rfl
    rw [printkln, hargs]
    show (s.addByte '\n'.toUInt8 >>= fun s => pure s.flush.out) = _
    rw [hadd]
    rfl

end ZephyrRust.Printk
