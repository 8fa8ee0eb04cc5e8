import DocComment.Proofs.Json.Reader

/-!
# JSON texts are read back

Both forms of JSON text, and every other layout that only puts blanks between the
lexemes, are read back as the value that was printed: every string with its very
characters, and every object with its fields in their order.

Main results:

- Theorem `Json.readString?_flatMap_escape`: the characters of a string are read back.
- Theorem `Json.spells_print`: a printed value spells the lexemes of the value.
- Theorem `Json.readValue?_lexemes`: the lexemes of a value are read as the value.
- Theorem `Json.read?_print`: a printed value is read back.
-/

namespace DocComment
namespace Json

/-! ## Strings -/

/-- A hexadecimal digit has the value that it was printed for. -/
theorem hexValue?_digitChar : ∀ n < 16, hexValue? (Nat.digitChar n) = some n := by
  decide

/-- A code with two leading zeros is that of its character. -/
theorem readChar?_hexEscape {c : Char} (h : c.toNat < 0x20) (rest : Text) :
    readChar? (hexEscape c ++ rest) = some (c, rest) := by
  have hzero : hexValue? '0' = some 0 := by decide
  have hhigh := hexValue?_digitChar (c.toNat / 16) (by omega)
  have hlow := hexValue?_digitChar (c.toNat % 16) (by omega)
  have hcode : readCode? (hexEscape c ++ rest) = some (c.toNat, rest) := by
    simp only [hexEscape, List.cons_append, List.nil_append, readCode?, hzero, hhigh, hlow,
      Option.bind_eq_bind, Option.bind_some, Option.pure_def, Option.some.injEq, Prod.mk.injEq,
      and_true]
    omega
  have hcoded : readChar? (hexEscape c ++ rest) = readCoded? (hexEscape c ++ rest) := rfl
  rw [hcoded, readCoded?, hcode, Option.bind_eq_bind, Option.bind_some]
  simp only
  rw [if_pos (.inl (by omega)), Char.ofNat_toNat, Option.pure_def]

/-- A character that needs no escape is read as itself. -/
theorem readChar?_cons {c : Char} (hc : c ≠ '\x5c') (hcontrol : ¬ c.toNat < 0x20) (rest : Text) :
    readChar? (c :: rest) = some (c, rest) := by
  rw [readChar?, if_neg hcontrol]
  exact hc

/-- Every character is read back from its form inside a string. -/
theorem readChar?_escape (c : Char) (rest : Text) :
    readChar? (escape c ++ rest) = some (c, rest) := by
  fun_cases escape c with
  | case8 _ _ _ _ _ _ _ hcontrol => exact readChar?_hexEscape hcontrol rest
  | case9 _ hbackslash _ _ _ _ _ hcontrol => exact readChar?_cons hbackslash hcontrol rest
  | _ =>
      rename_i hc
      rw [hc]
      rfl

/-- No character is written with a quote at the start. -/
theorem head?_escape_append (c : Char) (rest : Text) : (escape c ++ rest).head? ≠ some '\x22' := by
  fun_cases escape c with
  | case9 hquote => simpa using hquote
  | _ => simp [hexEscape]

/-- A string is read character by character up to its closing quote. -/
theorem readString?_of_readChar? {text rest : Text} {c : Char} (hquote : text.head? ≠ some '\x22')
    (h : readChar? text = some (c, rest)) :
    readString? text = (readString? rest).map fun read => (c :: read.1, read.2) := by
  rw [readString?]
  · split
    · rename_i hnone
      rw [h] at hnone
      contradiction
    · rename_i c' rest' hsome
      rw [h] at hsome
      cases hsome
      rfl
  · rintro rest' rfl
    exact hquote rfl

/-- The characters of a string are read back up to its closing quote. -/
theorem readString?_flatMap_escape (text rest : Text) :
    readString? (text.flatMap escape ++ '\x22' :: rest) = some (text, rest) := by
  induction text with
  | nil => rw [List.flatMap_nil, List.nil_append, readString?]
  | cons c text ih =>
      rw [List.flatMap_cons, List.append_assoc,
        readString?_of_readChar? (head?_escape_append c _) (readChar?_escape c _), ih]
      rfl

/-! ## Lexemes -/

/-- Wherever the text stands, it is cut into the given lexemes. -/
def Spells (text : Text) (lexemes : List Lexeme) : Prop :=
  ∀ rest, lexemes? (text ++ rest) = (lexemes? rest).map (lexemes ++ ·)

theorem spells_nil : Spells [] [] := by
  intro rest
  simp

/-- Texts that spell lexemes spell them one after another. -/
theorem Spells.append {text text' : Text} {lexemes lexemes' : List Lexeme}
    (h : Spells text lexemes) (h' : Spells text' lexemes') :
    Spells (text ++ text') (lexemes ++ lexemes') := by
  intro rest
  rw [List.append_assoc, h, h', Option.map_map]
  simp [Function.comp_def]

/-- Blanks spell nothing. -/
theorem spells_of_isSpace {gap : Text} (h : ∀ c ∈ gap, isSpace c = true) : Spells gap [] := by
  intro rest
  induction gap with
  | nil => simp
  | cons c gap ih =>
      rw [List.cons_append, lexemes?, if_pos (h c List.mem_cons_self),
        ih fun d hd => h d (List.mem_cons_of_mem _ hd)]

/-- A sign spells itself. -/
theorem spells_sign {c : Char} {sign : Lexeme} (h : sign? c = some sign) : Spells [c] [sign] := by
  intro rest
  have hother : isSpace c = false ∧ c ≠ '\x22' := by
    revert h
    fun_cases sign? c with
    | case7 => simp
    | _ =>
        rename_i hc
        intro _
        rw [hc]
        decide
  rw [List.singleton_append, lexemes?, hother.1, if_neg (by simp), if_neg hother.2, h,
    Option.bind_some]
  rfl

/-- A quoted text spells the string. -/
theorem spells_quoted (text : Text) : Spells (quoted text) [.string text] := by
  intro rest
  have hquote : quoted text ++ rest = '\x22' :: (text.flatMap escape ++ '\x22' :: rest) := by
    simp [quoted]
  rw [hquote, lexemes?, if_neg (by decide), if_pos rfl]
  split
  · rename_i hnone
    rw [readString?_flatMap_escape] at hnone
    contradiction
  · rename_i inner after hsome
    rw [readString?_flatMap_escape] at hsome
    cases hsome
    rfl

/-! ## The lexemes of a value -/

mutual

/-- The lexemes of a value. -/
def lexemes : Json → List Lexeme
  | .string text => [.string text]
  | .array [] => [.beginArray, .endArray]
  | .array (first :: rest) =>
    .beginArray :: (lexemes first ++ elementLexemes rest ++ [.endArray])
  | .object [] => [.beginObject, .endObject]
  | .object ((key, first) :: rest) =>
    .beginObject :: .string key :: .colon :: (lexemes first ++ fieldLexemes rest ++ [.endObject])

/-- The lexemes of the elements after the first. -/
def elementLexemes : List Json → List Lexeme
  | [] => []
  | element :: rest => .comma :: (lexemes element ++ elementLexemes rest)

/-- The lexemes of the fields after the first. -/
def fieldLexemes : List (Text × Json) → List Lexeme
  | [] => []
  | (key, value) :: rest =>
    .comma :: .string key :: .colon :: (lexemes value ++ fieldLexemes rest)

end

/-- Only blanks are put between the lexemes. -/
structure Layout.Spaced (layout : Layout) : Prop where
  lineBreak : ∀ depth, ∀ c ∈ layout.lineBreak depth, isSpace c = true
  colon : ∃ gap, layout.colon = ':' :: gap ∧ ∀ c ∈ gap, isSpace c = true

theorem Layout.compact_spaced : Layout.compact.Spaced :=
  ⟨by simp [Layout.compact], [], rfl, by simp⟩

theorem Layout.pretty_spaced : Layout.pretty.Spaced := by
  refine ⟨?_, [' '], rfl, by simp [isSpace]⟩
  intro depth c hc
  simp only [Layout.pretty, List.mem_cons, List.mem_replicate] at hc
  rcases hc with rfl | ⟨_, rfl⟩
  · rfl
  · rfl

variable {layout : Layout}

/-- Line breaks and indentation spell nothing. -/
theorem Layout.Spaced.spells_lineBreak (h : layout.Spaced) (depth : Nat) :
    Spells (layout.lineBreak depth) [] :=
  spells_of_isSpace (h.lineBreak depth)

/-- A colon spells itself, with or without a space after it. -/
theorem Layout.Spaced.spells_colon (h : layout.Spaced) : Spells layout.colon [.colon] := by
  rcases h.colon with ⟨gap, hcolon, hgap⟩
  rw [hcolon]
  exact (spells_sign (c := ':') rfl).append (spells_of_isSpace hgap)

mutual

/-- A printed value spells the lexemes of the value. -/
theorem spells_print (h : layout.Spaced) (depth : Nat) :
    ∀ value : Json, Spells (print layout depth value) value.lexemes
  | .string text => by
      rw [print, lexemes]
      exact spells_quoted text
  | .array [] => by
      rw [print, lexemes]
      exact (spells_sign (c := '[') rfl).append (spells_sign (c := ']') rfl)
  | .array (first :: rest) => by
      rw [print, lexemes]
      have hfirst := spells_print h (depth + 1) first
      have hrest := spells_printElements h (depth + 1) rest
      have hopen := (spells_sign (c := '[') rfl).append (h.spells_lineBreak (depth + 1))
      have hclose := (h.spells_lineBreak depth).append (spells_sign (c := ']') rfl)
      simpa using ((hopen.append hfirst).append hrest).append hclose
  | .object [] => by
      rw [print, lexemes]
      exact (spells_sign (c := '\x7b') rfl).append (spells_sign (c := '\x7d') rfl)
  | .object ((key, first) :: rest) => by
      rw [print, lexemes]
      have hfirst := spells_print h (depth + 1) first
      have hrest := spells_printFields h (depth + 1) rest
      have hopen := (spells_sign (c := '\x7b') rfl).append (h.spells_lineBreak (depth + 1))
      have hkey := (spells_quoted key).append h.spells_colon
      have hclose := (h.spells_lineBreak depth).append (spells_sign (c := '\x7d') rfl)
      simpa using (((hopen.append hkey).append hfirst).append hrest).append hclose

/-- The printed elements of an array spell the lexemes of the elements. -/
theorem spells_printElements (h : layout.Spaced) (depth : Nat) :
    ∀ elements : List Json, Spells (printElements layout depth elements) (elementLexemes elements)
  | [] => by
      rw [printElements, elementLexemes]
      exact spells_nil
  | element :: rest => by
      rw [printElements, elementLexemes]
      have helement := spells_print h depth element
      have hrest := spells_printElements h depth rest
      have hcomma := (spells_sign (c := ',') rfl).append (h.spells_lineBreak depth)
      simpa using (hcomma.append helement).append hrest

/-- The printed fields of an object spell the lexemes of the fields. -/
theorem spells_printFields (h : layout.Spaced) (depth : Nat) :
    ∀ fields : List (Text × Json), Spells (printFields layout depth fields) (fieldLexemes fields)
  | [] => by
      rw [printFields, fieldLexemes]
      exact spells_nil
  | (key, value) :: rest => by
      rw [printFields, fieldLexemes]
      have hvalue := spells_print h depth value
      have hrest := spells_printFields h depth rest
      have hcomma := (spells_sign (c := ',') rfl).append (h.spells_lineBreak depth)
      have hkey := (spells_quoted key).append h.spells_colon
      simpa using ((hcomma.append hkey).append hvalue).append hrest

end

/-! ## Values -/

/-- No value starts with the end of an array. -/
theorem readValue?_beginArray (frames : List Frame) (value : Json) (rest : List Lexeme) :
    readValue? frames (.beginArray :: (value.lexemes ++ rest)) =
      readValue? (.array [] :: frames) (value.lexemes ++ rest) := by
  fun_cases lexemes value <;> simp [readValue?]

mutual

/-- The lexemes of a value are read as the value. -/
theorem readValue?_lexemes (frames : List Frame) (rest : List Lexeme) :
    ∀ value : Json, readValue? frames (value.lexemes ++ rest) = readAfter? value frames rest
  | .string text => by
      rw [lexemes, List.singleton_append, readValue?]
  | .array [] => by
      rw [lexemes, List.cons_append, List.singleton_append, readValue?]
  | .array (first :: elements) => by
      rw [lexemes, List.cons_append, List.append_assoc, List.append_assoc, readValue?_beginArray,
        readValue?_lexemes _ _ first, List.singleton_append, readAfter?_elementLexemes frames rest]
      rfl
  | .object [] => by
      rw [lexemes, List.cons_append, List.singleton_append, readValue?]
  | .object ((key, first) :: fields) => by
      simp only [lexemes, List.cons_append, List.append_assoc, List.nil_append, readValue?]
      rw [readValue?_lexemes _ _ first, readAfter?_fieldLexemes frames rest]
      rfl

/-- The elements that follow are put into the open array. -/
theorem readAfter?_elementLexemes (frames : List Frame) (rest : List Lexeme) :
    ∀ (elements done : List Json) (value : Json),
      readAfter? value (.array done :: frames) (elementLexemes elements ++ .endArray :: rest) =
        readAfter? (.array (done ++ value :: elements)) frames rest
  | [], done, value => by
      rw [elementLexemes, List.nil_append, readAfter?]
  | element :: elements, done, value => by
      rw [elementLexemes, List.cons_append, List.append_assoc, readAfter?,
        readValue?_lexemes _ _ element, readAfter?_elementLexemes frames rest, List.append_assoc,
        List.singleton_append]

/-- The fields that follow are put into the open object. -/
theorem readAfter?_fieldLexemes (frames : List Frame) (rest : List Lexeme) :
    ∀ (fields done : List (Text × Json)) (key : Text) (value : Json),
      readAfter? value (.object done key :: frames) (fieldLexemes fields ++ .endObject :: rest) =
        readAfter? (.object (done ++ (key, value) :: fields)) frames rest
  | [], done, key, value => by
      rw [fieldLexemes, List.nil_append, readAfter?]
  | (next, field) :: fields, done, key, value => by
      simp only [fieldLexemes, List.cons_append, List.append_assoc, readAfter?]
      rw [readValue?_lexemes _ _ field, readAfter?_fieldLexemes frames rest, List.append_assoc,
        List.singleton_append]

end

/-- A printed value is read back, also with blanks after it. -/
theorem read?_print (h : layout.Spaced) (depth : Nat) (value : Json) {gap : Text}
    (hgap : ∀ c ∈ gap, isSpace c = true) : read? (print layout depth value ++ gap) = some value := by
  have hvalue := spells_print h depth value gap
  have hblank := spells_of_isSpace hgap []
  rw [List.append_nil, lexemes?] at hblank
  rw [read?, hvalue, hblank, Option.map_some, Option.map_some, Option.bind_some, List.nil_append,
    readValue?_lexemes, readAfter?]

/-- The compact form of a value is read back. -/
theorem read?_compact (value : Json) : read? (compact value) = some value := by
  have hblank : ∀ c ∈ ([] : Text), isSpace c = true := by simp
  have hread := read?_print Layout.compact_spaced 0 value hblank
  rwa [List.append_nil] at hread

end Json
end DocComment
