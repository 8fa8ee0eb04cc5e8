import DocComment.Proofs.Source.Grammar
import DocComment.Proofs.Source.Position

/-!
# The scan by bytes finds the block comments

The scan by byte positions and the reader of characters go through a source in
step: where a region ends, the rest after the token starts.  So the scan finds
exactly the block comments among the tokens.

Main results:

- Theorem `Source.TextAt.blockSpans_cons`: the scan passes over one token at a
  time.
- Theorem `Source.TextAt.filterMap_blockSpans`: the spans from a position on are
  those of the block comments among the remaining tokens.
- Theorem `Source.blockComments_eq_of_tokens`: a source falls into tokens in exactly
  one way, and its block comments are those among them.
-/

namespace DocComment
namespace Source

variable {bytes : ByteArray} {i : Nat} {c d quote : Char} {text rest : Text}

/-! ## Block comments -/

/-- The search for a closer passes over inert bytes. -/
theorem closeFrom_of_inert (h : Inert bytes i) : closeFrom bytes i = closeFrom bytes (i + 1) := by
  have hlt := h.1
  have hstar : bytes[i] ≠ star := h.getElem_ne (d := '*') (by decide) hlt
  rw [closeFrom]
  split
  · rw [beq_false_of_ne hstar]
    rfl
  · rw [closeFrom, dif_neg (by omega)]

/-- A character that does not start a closer is passed over. -/
theorem TextAt.closeFrom_cons (h : TextAt bytes i (c :: rest))
    (hc : ¬ (c = '*' ∧ rest.head? = some '/')) :
    closeFrom bytes i = closeFrom bytes (i + c.utf8Size) := by
  rw [← h.eq_next fun _ => closeFrom_of_inert, closeFrom]
  split
  · rename_i hlt
    rw [if_neg]
    intro hclose
    simp only [Bool.and_eq_true, beq_iff_eq] at hclose
    have hstar : c = '*' := (h.getElem_eq_iff (by decide) h.lt_size).mp hclose.1
    subst hstar
    have hnext := h.next_of_ascii (by decide)
    refine hc ⟨rfl, (hnext.getElem?_eq_iff (by decide)).mp ?_⟩
    rw [getElem?_pos bytes (i + 1) hlt, hclose.2]
    rfl
  · rw [closeFrom, dif_neg (by omega)]

/-- The search for a closer stops behind it. -/
theorem TextAt.closeFrom_closer (h : TextAt bytes i ('*' :: '/' :: rest)) :
    closeFrom bytes i = i + 2 := by
  have hnext := h.next_of_ascii (by decide)
  have hlt := h.lt_size
  have hlt' := hnext.lt_size
  have hstar : bytes[i] = star := (h.getElem_eq_iff (by decide) hlt).mpr rfl
  have hslash : bytes[i + 1] = slash := (hnext.getElem_eq_iff (by decide) hlt').mpr rfl
  rw [Source.closeFrom, dif_pos hlt', if_pos (by simp [hstar, hslash])]

/-- The scan for a closer ends where the block comment does. -/
theorem TextAt.closeFrom (h : TextAt bytes i text) :
    TextAt bytes (closeFrom bytes i) (Token.cutClose text).2 := by
  induction text generalizing i with
  | nil =>
      rw [Source.closeFrom, dif_neg (by rw [h.eq_size]; omega)]
      exact textAt_size bytes
  | cons c rest ih =>
      rw [Token.cutClose_cons]
      split
      · rename_i hc
        rcases hc with ⟨rfl, hhead⟩
        rcases List.head?_eq_some_iff.mp hhead with ⟨rest, rfl⟩
        rw [h.closeFrom_closer]
        exact (h.next_of_ascii (by decide)).next_of_ascii (by decide)
      · rename_i hc
        rw [h.closeFrom_cons hc]
        exact ih h.next

/-! ## Line comments -/

/-- The search for the end of a line passes over inert bytes. -/
theorem lineEnd_of_inert (h : Inert bytes i) : lineEnd bytes i = lineEnd bytes (i + 1) := by
  have hlt := h.1
  have hfeed : bytes[i] ≠ lineFeed := h.getElem_ne (d := '\n') (by decide) hlt
  rw [lineEnd, dif_pos hlt, beq_false_of_ne hfeed]
  rfl

/-- The scan for a line feed ends where the line comment does. -/
theorem TextAt.lineEnd (h : TextAt bytes i text) :
    TextAt bytes (lineEnd bytes i) (Token.cutLine text).2 := by
  induction text generalizing i with
  | nil =>
      rw [Source.lineEnd, dif_neg (by rw [h.eq_size]; omega)]
      exact textAt_size bytes
  | cons c rest ih =>
      have hlt := h.lt_size
      have hfeed : bytes[i] = lineFeed ↔ c = '\n' := h.getElem_eq_iff (d := '\n') (by decide) hlt
      rw [Source.lineEnd, dif_pos hlt, Token.cutLine]
      by_cases hc : c = '\n'
      · subst hc
        rw [if_pos (by simp [hfeed]), if_pos rfl]
        exact h.next_of_ascii (by decide)
      · rw [if_neg (by simp [hfeed, hc]), if_neg hc, h.eq_next fun _ => lineEnd_of_inert]
        exact ih h.next

/-! ## String literals -/

/-- The reading of a literal passes over inert bytes. -/
theorem literalEnd_of_inert (hquote : quote.toNat < 0x80) (h : Inert bytes i) :
    literalEnd bytes (byteOf quote) i = literalEnd bytes (byteOf quote) (i + 1) := by
  have hlt := h.1
  have hescape : bytes[i] ≠ backslash := h.getElem_ne (d := '\x5c') (by decide) hlt
  have hfeed : bytes[i] ≠ lineFeed := h.getElem_ne (d := '\n') (by decide) hlt
  have hend : bytes[i] ≠ byteOf quote := h.getElem_ne hquote hlt
  rw [literalEnd, dif_pos hlt, beq_false_of_ne hescape, beq_false_of_ne hfeed,
    beq_false_of_ne hend]
  rfl

/-- A character that is no backslash ends a literal or is passed over. -/
theorem TextAt.literalEnd_cons (hquote : quote.toNat < 0x80) (h : TextAt bytes i (c :: rest))
    (hescape : c ≠ '\x5c') :
    literalEnd bytes (byteOf quote) i =
      if (c = '\n' ∧ quote ≠ '\x60') ∨ c = quote then i + 1
      else literalEnd bytes (byteOf quote) (i + c.utf8Size) := by
  have hlt := h.lt_size
  have hslash : bytes[i] = backslash ↔ c = '\x5c' := h.getElem_eq_iff (d := '\x5c') (by decide) hlt
  have hfeed : bytes[i] = lineFeed ↔ c = '\n' := h.getElem_eq_iff (d := '\n') (by decide) hlt
  have hend : bytes[i] = byteOf quote ↔ c = quote := h.getElem_eq_iff hquote hlt
  have htick : byteOf quote = backtick ↔ quote = '\x60' := byteOf_inj (d := '\x60') hquote (by decide)
  rw [literalEnd, dif_pos hlt, if_neg (by simp [hslash, hescape]),
    ← h.eq_next fun _ => literalEnd_of_inert hquote]
  by_cases hline : c = '\n' ∧ quote ≠ '\x60'
  · rw [if_pos (by simp [hfeed, htick, hline]), if_pos (.inl hline)]
  · have hline' : ¬ ((bytes[i] == lineFeed && byteOf quote != backtick) = true) := by
      simpa [hfeed, htick] using hline
    rw [if_neg hline']
    by_cases hc : c = quote
    · rw [if_pos (by simp [hend, hc]), if_pos (.inr hc)]
    · rw [if_neg (by simp [hend, hc]), if_neg (not_or.mpr ⟨hline, hc⟩)]

/-- A backslash takes the next byte with it. -/
theorem TextAt.literalEnd_escape (h : TextAt bytes i ('\x5c' :: rest)) (byte : UInt8) :
    literalEnd bytes byte i = literalEnd bytes byte (i + 2) := by
  have hlt := h.lt_size
  have hslash : bytes[i] = backslash := (h.getElem_eq_iff (d := '\x5c') (by decide) hlt).mpr rfl
  rw [literalEnd, dif_pos hlt, if_pos (by simp [hslash])]

/-- The scan for the end of a literal ends where the literal does. -/
theorem TextAt.literalEnd (hquote : quote.toNat < 0x80) (h : TextAt bytes i text) :
    TextAt bytes (literalEnd bytes (byteOf quote) i) (Token.cutLiteral quote text).2 := by
  -- An escape takes two characters at once, so the induction is on the length.
  induction hlength : text.length using Nat.strongRecOn generalizing text i with
  | ind n ih =>
      cases text with
      | nil =>
          rw [Source.literalEnd, dif_neg (by rw [h.eq_size]; omega)]
          exact textAt_size bytes
      | cons c text =>
          by_cases hescape : c = '\x5c'
          · subst hescape
            have hnext := h.next_of_ascii (by decide)
            rw [h.literalEnd_escape]
            cases text with
            | nil =>
                have := hnext.eq_size
                rw [Source.literalEnd, dif_neg (by omega)]
                exact textAt_size bytes
            | cons d rest =>
                -- The scan goes on one byte into the escaped character.
                rw [hnext.eq_next fun _ => literalEnd_of_inert hquote, Token.cutLiteral, if_pos rfl]
                refine ih rest.length ?_ hnext.next rfl
                rw [← hlength, List.length_cons, List.length_cons]
                omega
          · rw [h.literalEnd_cons hquote hescape, Token.cutLiteral_cons hescape]
            split
            · rename_i hends
              refine h.next_of_ascii ?_
              rcases hends with ⟨rfl, _⟩ | rfl
              · decide
              · exact hquote
            · refine ih text.length ?_ h.next rfl
              rw [← hlength, List.length_cons]
              omega

/-! ## Regions -/

/-- A slash and a second character of a comment opener are found where they
stand. -/
theorem TextAt.opener_iff (h : TextAt bytes i (c :: rest)) (hd : d.toNat < 0x80)
    (hlt : i < bytes.size) :
    (bytes[i] == slash && bytes[i + 1]? == some (byteOf d)) = true ↔
      c = '/' ∧ rest.head? = some d := by
  have hslash : bytes[i] = slash ↔ c = '/' := h.getElem_eq_iff (d := '/') (by decide) hlt
  rw [Bool.and_eq_true, beq_iff_eq, beq_iff_eq, hslash]
  refine and_congr_right ?_
  rintro rfl
  exact (h.next_of_ascii (by decide)).getElem?_eq_iff hd

theorem TextAt.isQuote_eq (h : TextAt bytes i (c :: rest)) (hlt : i < bytes.size) :
    isQuote bytes[i] = Token.isQuote c := by
  have hapostrophe : bytes[i] = 0x27 ↔ c = '\x27' := h.getElem_eq_iff (d := '\x27') (by decide) hlt
  have hdouble : bytes[i] = 0x22 ↔ c = '\x22' := h.getElem_eq_iff (d := '\x22') (by decide) hlt
  have htick : bytes[i] = backtick ↔ c = '\x60' := h.getElem_eq_iff (d := '\x60') (by decide) hlt
  rw [Bool.eq_iff_iff]
  simp [isQuote, Token.isQuote, hapostrophe, hdouble, htick]

theorem toNat_of_isQuote (h : Token.isQuote c = true) : c.toNat < 0x80 := by
  simp only [Token.isQuote, Bool.or_eq_true, beq_iff_eq] at h
  rcases h with (rfl | rfl) | rfl <;> decide

/-- The region at a character is decided by that character and the next one. -/
theorem TextAt.regionAt_eq (h : TextAt bytes i (c :: rest)) (hlt : i < bytes.size) :
    regionAt bytes i hlt =
      if c = '/' ∧ rest.head? = some '*' then (.block, Source.closeFrom bytes (i + 2))
      else if c = '/' ∧ rest.head? = some '/' then (.lineComment, Source.lineEnd bytes i)
      else if Token.isQuote c then (.literal, Source.literalEnd bytes (byteOf c) (i + 1))
      else (.plain, i + 1) := by
  have hstar : (bytes[i] == slash && bytes[i + 1]? == some star) = true ↔
      c = '/' ∧ rest.head? = some '*' := h.opener_iff (d := '*') (by decide) hlt
  have hslash : (bytes[i] == slash && bytes[i + 1]? == some slash) = true ↔
      c = '/' ∧ rest.head? = some '/' := h.opener_iff (d := '/') (by decide) hlt
  rw [regionAt, h.isQuote_eq hlt]
  simp only [hstar, hslash]
  by_cases hquote : Token.isQuote c = true
  · rw [(h.getElem_eq_iff (toNat_of_isQuote hquote) hlt).mpr rfl]
  · rw [if_neg hquote, if_neg hquote]

/-- An inert byte is a region of its own. -/
theorem blockSpans_of_inert (h : Inert bytes i) :
    blockSpans bytes i = blockSpans bytes (i + 1) := by
  have hlt := h.1
  have hslash : bytes[i] ≠ slash := h.getElem_ne (d := '/') (by decide) hlt
  have hquote : isQuote bytes[i] = false := by
    have hapostrophe : bytes[i] ≠ 0x27 := h.getElem_ne (d := '\x27') (by decide) hlt
    have hdouble : bytes[i] ≠ 0x22 := h.getElem_ne (d := '\x22') (by decide) hlt
    have htick : bytes[i] ≠ backtick := h.getElem_ne (d := '\x60') (by decide) hlt
    simp [isQuote, hapostrophe, hdouble, htick]
  have hregion : regionAt bytes i hlt = (.plain, i + 1) := by
    rw [regionAt, beq_false_of_ne hslash, hquote]
    rfl
  rw [blockSpans, dif_pos hlt]
  simp only [hregion]

/-- One token is passed over at a time: the rest of the source starts after it,
and only a block comment gives a span. -/
theorem TextAt.blockSpans_cons (h : TextAt bytes i (c :: rest)) :
    ∃ j, TextAt bytes j (Token.read c rest).2 ∧
      blockSpans bytes i =
        ((Token.read c rest).1.block?.map fun _ => Span.mk i j).toList ++ blockSpans bytes j := by
  rw [blockSpans, dif_pos h.lt_size, Token.read]
  simp only [h.regionAt_eq h.lt_size]
  by_cases hblock : c = '/' ∧ rest.head? = some '*'
  · simp only [if_pos hblock]
    rcases hblock with ⟨rfl, hhead⟩
    rcases List.head?_eq_some_iff.mp hhead with ⟨rest, rfl⟩
    exact ⟨_, ((h.next_of_ascii (by decide)).next_of_ascii (by decide)).closeFrom, rfl⟩
  · simp only [if_neg hblock]
    by_cases hline : c = '/' ∧ rest.head? = some '/'
    · simp only [if_pos hline]
      rcases hline with ⟨rfl, _⟩
      have hend := h.lineEnd
      rw [Token.cutLine, if_neg (by decide)] at hend
      exact ⟨_, hend, rfl⟩
    · simp only [if_neg hline]
      by_cases hquote : Token.isQuote c = true
      · simp only [if_pos hquote]
        have hascii := toNat_of_isQuote hquote
        exact ⟨_, (h.next_of_ascii hascii).literalEnd hascii, rfl⟩
      · simp only [if_neg hquote]
        exact ⟨_, h.next, h.eq_next fun _ => blockSpans_of_inert⟩

/-- The spans from a position on are those of the block comments among the
remaining tokens. -/
theorem TextAt.filterMap_blockSpans (h : TextAt bytes i text) :
    (blockSpans bytes i).filterMap (Span.text? bytes) =
      (Token.lex text).filterMap Token.block? := by
  fun_induction Token.lex text generalizing i with
  | case1 =>
      rw [blockSpans, dif_neg (by rw [h.eq_size]; omega)]
      rfl
  | case2 c rest _ ih =>
      rcases h.blockSpans_cons with ⟨j, hj, hspans⟩
      rw [← Token.read_text c rest] at h
      rw [hspans, List.filterMap_append, ih hj, List.filterMap_cons]
      cases htoken : (Token.read c rest).1 with
      | block comment =>
          rw [htoken] at h
          simp only [Token.block?, Option.map_some, Option.toList_some]
          rw [List.filterMap_cons_some (h.text?_eq hj)]
          rfl
      | _ => rfl

/-- The block comments of a source are its block-comment tokens. -/
theorem blockComments_eq_blocks (source : Text) : blockComments source = Token.blocks source :=
  (textAt_zero source).filterMap_blockSpans

/-- A source falls into tokens in exactly one way.  The tokens make up the source
without a gap or an overlap, and the block comments that the scan finds are the
block comments among them, in their order and with their whole text. -/
theorem blockComments_eq_of_tokens (source : Text) :
    ∃ tokens : List Token, (∀ tokens', Token.Lexes source tokens' ↔ tokens' = tokens) ∧
      tokens.flatMap Token.text = source ∧
      blockComments source = tokens.filterMap Token.block? :=
  ⟨Token.lex source, fun _ => Token.lexes_iff, Token.flatMap_text_lex source,
    blockComments_eq_blocks source⟩

end Source
end DocComment
