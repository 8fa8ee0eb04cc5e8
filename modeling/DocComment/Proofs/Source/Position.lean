import DocComment.Source.Bytes

/-!
# Positions between characters

A scan by byte positions agrees with a reader of characters as long as it looks
only for ASCII characters.  The bytes of every other character are *inert*: none
of them is the byte of an ASCII character, so a scan may pass over them one by
one, and it does not matter in the middle of which character it starts.

Main results:

- Definition `Source.TextAt`: the text that starts at a position.
- Theorem `Source.TextAt.getElem_eq_iff`: the byte at the start of a text is that
  of an ASCII character exactly when the text starts with the character.
- Theorem `Source.TextAt.inert`: the further bytes of a character are inert.
- Theorem `Source.TextAt.text?_eq`: the text of the span between two positions.
-/

namespace DocComment
namespace Source

variable {bytes : ByteArray} {i j : Nat} {c d : Char} {text rest : Text}

/-! ## The bytes of one character -/

/-- The byte of an ASCII character. -/
def byteOf (c : Char) : UInt8 :=
  UInt8.ofNat c.toNat

/-- The first byte of a character is the byte of an ASCII character only for that
character itself. -/
theorem getElem?_zero_utf8EncodeChar_iff (hd : d.toNat < 0x80) :
    (String.utf8EncodeChar c)[0]? = some (byteOf d) ↔ c = d := by
  have hchar : c = d ↔ c.toNat = d.toNat := Char.toNat_inj.symm
  have hval : c.val.toNat = c.toNat := rfl
  rw [hchar, byteOf]
  fun_cases String.utf8EncodeChar c <;>
    simp only [List.getElem?_cons_zero, Option.some.injEq, ← UInt8.toNat_inj, UInt8.toNat_ofNat']
  all_goals omega

theorem byteOf_inj (hc : c.toNat < 0x80) (hd : d.toNat < 0x80) : byteOf c = byteOf d ↔ c = d := by
  have hchar : c = d ↔ c.toNat = d.toNat := Char.toNat_inj.symm
  rw [hchar, byteOf, byteOf, ← UInt8.toNat_inj, UInt8.toNat_ofNat', UInt8.toNat_ofNat']
  omega

/-- All bytes of a character after the first one are above those of the ASCII
characters. -/
theorem le_of_mem_tail_utf8EncodeChar {byte : UInt8}
    (h : byte ∈ (String.utf8EncodeChar c).tail) : 0x80 ≤ byte.toNat := by
  have hrest : ∀ n, 0x80 ≤ (UInt8.ofNat (n % 64 + 128)).toNat := by
    intro n
    rw [UInt8.toNat_ofNat']
    omega
  revert h
  fun_cases String.utf8EncodeChar c <;>
    simp only [List.tail_cons, List.mem_cons, List.not_mem_nil, or_false, false_implies]
  · rintro rfl
    exact hrest _
  · rintro (rfl | rfl) <;> exact hrest _
  · rintro (rfl | rfl | rfl) <;> exact hrest _

/-! ## The text at a position -/

/-- The bytes from a position on are the UTF-8 form of a text. -/
def TextAt (bytes : ByteArray) (i : Nat) (text : Text) : Prop :=
  ∃ front : ByteArray, front.size = i ∧ bytes = front ++ Text.encodeUtf8 text

/-- The encoding of two texts is the encoding of the first and that of the second. -/
theorem encodeUtf8_append (text rest : Text) :
    Text.encodeUtf8 (text ++ rest) = Text.encodeUtf8 text ++ Text.encodeUtf8 rest :=
  List.utf8Encode_append

/-- The encoding of a text starts with that of its first character. -/
theorem encodeUtf8_cons (c : Char) (rest : Text) :
    Text.encodeUtf8 (c :: rest) =
      (String.utf8EncodeChar c).toByteArray ++ Text.encodeUtf8 rest := by
  rw [← List.utf8Encode_singleton]
  exact List.utf8Encode_cons

/-- A source starts at its first byte. -/
theorem textAt_zero (source : Text) : TextAt (Text.encodeUtf8 source) 0 source :=
  ⟨.empty, rfl, ByteArray.empty_append.symm⟩

/-- Nothing is left only at the end. -/
theorem TextAt.eq_size (h : TextAt bytes i []) : i = bytes.size := by
  rcases h with ⟨front, rfl, rfl⟩
  have hempty : (Text.encodeUtf8 []).size = 0 := rfl
  rw [ByteArray.size_append, hempty, Nat.add_zero]

theorem textAt_size (bytes : ByteArray) : TextAt bytes bytes.size [] :=
  ⟨bytes, rfl, ByteArray.append_empty.symm⟩

/-- A character of the source ends within it. -/
theorem TextAt.end_le_size (h : TextAt bytes i (c :: rest)) : i + c.utf8Size ≤ bytes.size := by
  rcases h with ⟨front, rfl, rfl⟩
  rw [encodeUtf8_cons, ByteArray.size_append, ByteArray.size_append]
  simp

/-- After a character the rest of the text starts. -/
theorem TextAt.next (h : TextAt bytes i (c :: rest)) : TextAt bytes (i + c.utf8Size) rest := by
  rcases h with ⟨front, rfl, rfl⟩
  refine ⟨front ++ (String.utf8EncodeChar c).toByteArray, ?_, ?_⟩
  · simp
  · rw [encodeUtf8_cons, ByteArray.append_assoc]

/-- The bytes at the position of a character are those of its encoding. -/
theorem TextAt.getElem?_utf8EncodeChar (h : TextAt bytes i (c :: rest)) {k : Nat}
    (hk : k < c.utf8Size) (hlt : i + k < bytes.size) :
    (String.utf8EncodeChar c)[k]? = some bytes[i + k] := by
  have hlength : k < (String.utf8EncodeChar c).length := by
    rwa [String.length_utf8EncodeChar]
  rcases h with ⟨front, rfl, rfl⟩
  rw [List.getElem?_eq_getElem hlength, Option.some.injEq]
  simp only [encodeUtf8_cons]
  rw [ByteArray.getElem_append_right (by omega), ByteArray.getElem_append_left (by simpa using hlength),
    List.getElem_toByteArray]
  simp

theorem TextAt.lt_size (h : TextAt bytes i (c :: rest)) : i < bytes.size := by
  have := h.end_le_size
  have := c.utf8Size_pos
  omega

/-- The byte at the start of a text is that of an ASCII character exactly when
the text starts with the character. -/
theorem TextAt.getElem_eq_iff (h : TextAt bytes i (c :: rest)) (hd : d.toNat < 0x80)
    (hlt : i < bytes.size) : bytes[i] = byteOf d ↔ c = d := by
  rw [← getElem?_zero_utf8EncodeChar_iff hd, h.getElem?_utf8EncodeChar c.utf8Size_pos hlt,
    Option.some.injEq]
  rfl

/-- The same at the end of the source, where no byte and no character is. -/
theorem TextAt.getElem?_eq_iff (h : TextAt bytes i text) (hd : d.toNat < 0x80) :
    bytes[i]? = some (byteOf d) ↔ text.head? = some d := by
  cases text with
  | nil => simp [h.eq_size]
  | cons c rest =>
      rw [getElem?_pos bytes i h.lt_size, Option.some.injEq, h.getElem_eq_iff hd, List.head?_cons,
        Option.some.injEq]

/-- An ASCII character takes one byte. -/
theorem TextAt.next_of_ascii (h : TextAt bytes i (c :: rest)) (hc : c.toNat < 0x80) :
    TextAt bytes (i + 1) rest := by
  have hsize : c.utf8Size = 1 := by
    rw [Char.utf8Size_eq_one_iff, UInt32.le_iff_toNat_le]
    exact Nat.le_of_lt_succ hc
  simpa [hsize] using h.next

/-! ## Inert bytes -/

/-- The byte at a position is there and belongs to no ASCII character. -/
def Inert (bytes : ByteArray) (i : Nat) : Prop :=
  ∃ h : i < bytes.size, 0x80 ≤ bytes[i].toNat

/-- An inert byte is not that of an ASCII character. -/
theorem Inert.getElem_ne (h : Inert bytes i) (hd : d.toNat < 0x80) (hlt : i < bytes.size) :
    bytes[i] ≠ byteOf d := by
  rcases h with ⟨_, hbyte⟩
  intro heq
  rw [heq, byteOf, UInt8.toNat_ofNat'] at hbyte
  omega

/-- The further bytes of a character are inert. -/
theorem TextAt.inert (h : TextAt bytes i (c :: rest)) {k : Nat} (hk : k + 1 < c.utf8Size) :
    Inert bytes (i + (k + 1)) := by
  have := h.end_le_size
  have hlt : i + (k + 1) < bytes.size := by omega
  have hbyte := h.getElem?_utf8EncodeChar hk hlt
  rw [← List.getElem?_tail] at hbyte
  exact ⟨hlt, le_of_mem_tail_utf8EncodeChar (List.mem_of_getElem? hbyte)⟩

/-- What passes over one inert byte passes over the rest of a character. -/
theorem TextAt.eq_next {α : Type} {f : Nat → α} (hf : ∀ i, Inert bytes i → f i = f (i + 1))
    (h : TextAt bytes i (c :: rest)) : f (i + 1) = f (i + c.utf8Size) := by
  have hpass : ∀ k, k < c.utf8Size → f (i + 1) = f (i + (k + 1)) := by
    intro k
    induction k with
    | zero =>
        intro _
        rfl
    | succ k ih =>
        intro hk
        rw [ih (by omega), hf _ (h.inert hk)]
        rfl
  have hsize : c.utf8Size - 1 + 1 = c.utf8Size := Nat.sub_add_cancel c.utf8Size_pos
  rw [hpass (c.utf8Size - 1) (by omega), hsize]

/-! ## Spans -/

/-- The text of the span between two positions is what stands between them. -/
theorem TextAt.text?_eq (h : TextAt bytes i (text ++ rest)) (h' : TextAt bytes j rest) :
    Span.text? bytes ⟨i, j⟩ = some text := by
  rcases h with ⟨front, rfl, rfl⟩
  rcases h' with ⟨front', rfl, heq⟩
  rw [encodeUtf8_append, ← ByteArray.append_assoc] at heq ⊢
  rw [ByteArray.append_left_inj] at heq
  rw [Span.text?, ← heq, ByteArray.extract_append_size_left,
    ByteArray.extract_append_eq_right rfl ByteArray.size_append, Text.decodeUtf8?_encodeUtf8]

end Source
end DocComment
