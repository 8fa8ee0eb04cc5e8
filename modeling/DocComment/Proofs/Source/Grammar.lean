import DocComment.Source.Token

/-!
# The grammar of tokens

What the tokens of a source are, said without a reader: a block comment ends with
the first closer after its opener, a line comment with the first line feed, a
string literal with the first quote or line feed that is not escaped, and
whatever is never closed runs to the end of the source.  Every other character
stands alone.  A source falls into tokens in exactly one way, and that is how it
is read.

Main results:

- Definition `Token.Precedes`: a token may stand before a given rest of a source.
- Theorems `Token.precedes_read` and `Token.Precedes.read_eq`: the token that is
  read is the one that may stand at the start of a text.
- Theorem `Token.lexes_iff`: the tokens of a source are the only ones into which
  it falls.
-/

namespace DocComment
namespace Token

/-! ## Where a token may end -/

/-- The closer of a block comment. -/
def closer : Text := ['*', '/']

/-- A block comment goes on with a text after its opener and ends there, before
the given rest.  The closer is the first one: it does not occur any earlier, not
even when its own star is counted. -/
inductive EndsBlock : Text → Text → Prop
  | closed (inner rest : Text) (hfirst : ¬ closer <:+: inner ++ ['*']) :
      EndsBlock (inner ++ closer) rest
  | unclosed (inner : Text) (hnone : ¬ closer <:+: inner) : EndsBlock inner []

/-- A line comment goes on with a text and ends there, before the given rest. -/
inductive EndsLine : Text → Text → Prop
  | closed (inner rest : Text) (hfirst : '\n' ∉ inner) : EndsLine (inner ++ ['\n']) rest
  | unclosed (inner : Text) (hnone : '\n' ∉ inner) : EndsLine inner []

/-- A string literal goes on with a text and ends there, before the given rest.
A backslash takes the next character with it, whatever that is. -/
inductive EndsLiteral (quote : Char) : Text → Text → Prop
  | closed (rest : Text) : EndsLiteral quote [quote] rest
  | line (rest : Text) (htemplate : quote ≠ '\x60') : EndsLiteral quote ['\n'] rest
  | unclosed : EndsLiteral quote [] []
  | unclosedEscape : EndsLiteral quote ['\x5c'] []
  | escaped (c : Char) {inner rest : Text} (hinner : EndsLiteral quote inner rest) :
      EndsLiteral quote ('\x5c' :: c :: inner) rest
  | plain {c : Char} {inner rest : Text} (hescape : c ≠ '\x5c') (hquote : c ≠ quote)
      (hline : c = '\n' → quote = '\x60') (hinner : EndsLiteral quote inner rest) :
      EndsLiteral quote (c :: inner) rest

/-- A token may stand before the given rest of a source. -/
def Precedes : Token → Text → Prop
  | .block text, rest => ∃ inner, text = '/' :: '*' :: inner ∧ EndsBlock inner rest
  | .lineComment text, rest => ∃ inner, text = '/' :: '/' :: inner ∧ EndsLine inner rest
  | .literal text, rest =>
    ∃ quote inner, text = quote :: inner ∧ isQuote quote = true ∧ EndsLiteral quote inner rest
  | .plain c, rest =>
    isQuote c = false ∧ (c = '/' → rest.head? ≠ some '*' ∧ rest.head? ≠ some '/')

/-- A source falls into tokens. -/
inductive Lexes : Text → List Token → Prop
  | nil : Lexes [] []
  | cons {token : Token} {rest : Text} {tokens : List Token} (hfirst : token.Precedes rest)
      (hrest : Lexes rest tokens) : Lexes (token.text ++ rest) (token :: tokens)

/-! ## Block comments -/

/-- A text is cut after a closer at its start, and else somewhere in its tail. -/
theorem cutClose_cons (c : Char) (text : Text) :
    cutClose (c :: text) =
      if c = '*' ∧ text.head? = some '/' then (closer, text.tail)
      else (c :: (cutClose text).1, (cutClose text).2) := by
  cases text with
  | nil => simp [cutClose]
  | cons d text =>
      simp only [cutClose, List.head?_cons, Option.some.injEq, List.tail_cons]
      split
      · rename_i h
        rw [h.1, h.2]
        rfl
      · rfl

/-- A closer in a text is at its start or further on. -/
theorem closer_infix_cons {c : Char} {text : Text} :
    closer <:+: c :: text ↔ (c = '*' ∧ text.head? = some '/') ∨ closer <:+: text := by
  have hstart : closer <+: c :: text ↔ c = '*' ∧ text.head? = some '/' := by
    cases text with
    | nil => simp [closer]
    | cons d text => simp [closer, List.cons_prefix_cons, eq_comm]
  rw [List.infix_cons_iff, hstart]

/-- One more character before the end of a block comment, unless it makes an
earlier closer. -/
theorem EndsBlock.cons {c : Char} {inner rest : Text} (h : EndsBlock inner rest)
    (hc : ¬ (c = '*' ∧ (inner ++ rest).head? = some '/')) : EndsBlock (c :: inner) rest := by
  cases h with
  | closed inner _ hfirst =>
      refine .closed (c :: inner) rest ?_
      rw [List.cons_append, closer_infix_cons, not_or]
      refine ⟨?_, hfirst⟩
      rintro ⟨rfl, hhead⟩
      cases inner with
      | nil => simp at hhead
      | cons d inner => exact hc ⟨rfl, by simpa using hhead⟩
  | unclosed _ hnone =>
      refine .unclosed _ ?_
      rw [closer_infix_cons, not_or]
      exact ⟨by simpa using hc, hnone⟩

/-- Cutting at a closer ends a block. -/
theorem endsBlock_cutClose (text : Text) : EndsBlock (cutClose text).1 (cutClose text).2 := by
  induction text with
  | nil => exact .unclosed _ (by decide)
  | cons c text ih =>
      rw [cutClose_cons]
      split
      · exact .closed [] text.tail (by decide)
      · rename_i hc
        refine ih.cons ?_
        rwa [cutClose_append]

/-- A block ends where the cut at a closer is. -/
theorem EndsBlock.cutClose_eq {inner rest : Text} (h : EndsBlock inner rest) :
    cutClose (inner ++ rest) = (inner, rest) := by
  cases h with
  | closed inner _ hfirst =>
      induction inner with
      | nil => simp [cutClose_cons, closer]
      | cons c inner ih =>
          rw [List.cons_append, closer_infix_cons, not_or] at hfirst
          have hc : ¬ (c = '*' ∧ (inner ++ closer ++ rest).head? = some '/') := by
            cases inner with
            | nil => simp [closer]
            | cons d inner => simpa using hfirst.1
          rw [List.cons_append, List.cons_append, cutClose_cons, if_neg hc, ih hfirst.2]
  | unclosed _ hnone =>
      rw [List.append_nil]
      induction inner with
      | nil => rfl
      | cons c inner ih =>
          rw [closer_infix_cons, not_or] at hnone
          rw [cutClose_cons, if_neg hnone.1, ih hnone.2]

/-! ## Line comments -/

/-- Cutting at the end of a line ends the line. -/
theorem endsLine_cutLine (text : Text) : EndsLine (cutLine text).1 (cutLine text).2 := by
  fun_induction cutLine text with
  | case1 => exact .unclosed _ (by simp)
  | case2 rest => exact .closed [] rest (by simp)
  | case3 c rest h ih =>
      generalize cutLine rest = cut at ih ⊢
      rcases cut with ⟨inner, after⟩
      cases ih with
      | closed inner _ hfirst =>
          exact .closed (c :: inner) after (by simp [hfirst, Ne.symm h])
      | unclosed _ hnone => exact .unclosed _ (by simp [hnone, Ne.symm h])

/-- A line ends where the cut at its end is. -/
theorem EndsLine.cutLine_eq {inner rest : Text} (h : EndsLine inner rest) :
    cutLine (inner ++ rest) = (inner, rest) := by
  cases h with
  | closed inner _ hfirst =>
      induction inner with
      | nil => simp [cutLine]
      | cons c inner ih =>
          simp only [List.mem_cons, not_or] at hfirst
          rw [List.cons_append, List.cons_append, cutLine, if_neg (Ne.symm hfirst.1), ih hfirst.2]
  | unclosed _ hnone =>
      rw [List.append_nil]
      induction inner with
      | nil => rfl
      | cons c inner ih =>
          simp only [List.mem_cons, not_or] at hnone
          rw [cutLine, if_neg (Ne.symm hnone.1), ih hnone.2]

/-! ## String literals -/

/-- A character that is no backslash ends a literal or belongs to it. -/
theorem cutLiteral_cons {quote c : Char} (h : c ≠ '\x5c') (text : Text) :
    cutLiteral quote (c :: text) =
      if (c = '\n' ∧ quote ≠ '\x60') ∨ c = quote then ([c], text)
      else (c :: (cutLiteral quote text).1, (cutLiteral quote text).2) := by
  cases text with
  | nil => simp [cutLiteral]
  | cons d text =>
      rw [cutLiteral, if_neg h]
      by_cases hline : c = '\n' ∧ quote ≠ '\x60'
      · rw [if_pos hline, if_pos (.inl hline)]
      · simp only [hline, if_false, false_or]

/-- Cutting at the end of a literal ends the literal. -/
theorem endsLiteral_cutLiteral (quote : Char) (text : Text) :
    EndsLiteral quote (cutLiteral quote text).1 (cutLiteral quote text).2 := by
  fun_induction cutLiteral quote text with
  | case1 => exact .unclosed
  | case2 c =>
      -- The last character of the source is the end, whatever it is.
      by_cases hescape : c = '\x5c'
      · rw [hescape]
        exact .unclosedEscape
      · by_cases hquote : c = quote
        · rw [hquote]
          exact .closed []
        · by_cases hline : c = '\n' ∧ quote ≠ '\x60'
          · rw [hline.1]
            exact .line [] hline.2
          · refine .plain hescape hquote ?_ .unclosed
            rintro rfl
            simpa using hline
  | case3 d rest ih => exact .escaped d ih
  | case4 c d rest _ hline =>
      rw [hline.1]
      exact .line _ hline.2
  | case5 d rest => exact .closed _
  | case6 c d rest hescape hline hquote ih =>
      refine .plain hescape hquote ?_ ih
      rintro rfl
      simpa using hline

theorem ne_of_isQuote {quote : Char} (h : isQuote quote = true) : quote ≠ '\x5c' ∧ quote ≠ '\n' := by
  constructor
  · rintro rfl
    contradiction
  · rintro rfl
    contradiction

/-- A literal ends where the cut at its end is. -/
theorem EndsLiteral.cutLiteral_eq {quote : Char} (hquote : isQuote quote = true)
    {inner rest : Text} (h : EndsLiteral quote inner rest) :
    cutLiteral quote (inner ++ rest) = (inner, rest) := by
  induction h with
  | closed rest =>
      rw [List.singleton_append, cutLiteral_cons (ne_of_isQuote hquote).1, if_pos (.inr rfl)]
  | line rest htemplate =>
      rw [List.singleton_append, cutLiteral_cons (by decide), if_pos (.inl ⟨rfl, htemplate⟩)]
  | unclosed => rfl
  | unclosedEscape => rfl
  | escaped c _ ih =>
      rw [List.cons_append, List.cons_append, cutLiteral, if_pos rfl, ih]
  | plain hescape hne hline _ ih =>
      rw [List.cons_append, cutLiteral_cons hescape, if_neg, ih]
      rintro (⟨rfl, htemplate⟩ | rfl)
      · exact htemplate (hline rfl)
      · exact hne rfl

/-! ## Tokens -/

/-- The token that is read may stand where it is read. -/
theorem precedes_read (c : Char) (rest : Text) : (read c rest).1.Precedes (read c rest).2 := by
  unfold read
  split
  · rename_i h
    exact ⟨_, by rw [h.1], endsBlock_cutClose rest.tail⟩
  · rename_i hblock
    split
    · rename_i h
      rcases List.head?_eq_some_iff.mp h.2 with ⟨rest, rfl⟩
      rw [cutLine, if_neg (by decide), h.1]
      exact ⟨_, rfl, endsLine_cutLine rest⟩
    · rename_i hline
      split
      · rename_i hquote
        exact ⟨c, _, rfl, hquote, endsLiteral_cutLiteral c rest⟩
      · rename_i hquote
        refine ⟨by simpa using hquote, ?_⟩
        rintro rfl
        exact ⟨fun hhead => hblock ⟨rfl, hhead⟩, fun hhead => hline ⟨rfl, hhead⟩⟩

/-- A token that may stand before a rest is read there. -/
theorem Precedes.read_eq {token : Token} {rest : Text} (h : token.Precedes rest) :
    ∃ c text, token.text ++ rest = c :: text ∧ read c text = (token, rest) := by
  cases token with
  | block text =>
      rcases h with ⟨inner, rfl, hends⟩
      refine ⟨'/', '*' :: (inner ++ rest), rfl, ?_⟩
      rw [read, if_pos ⟨rfl, rfl⟩, List.tail_cons, hends.cutClose_eq]
  | lineComment text =>
      rcases h with ⟨inner, rfl, hends⟩
      refine ⟨'/', '/' :: (inner ++ rest), rfl, ?_⟩
      rw [read, if_neg (by simp), if_pos ⟨rfl, rfl⟩, cutLine, if_neg (by decide), hends.cutLine_eq]
  | literal text =>
      rcases h with ⟨quote, inner, rfl, hquote, hends⟩
      have hslash : quote ≠ '/' := by
        rintro rfl
        contradiction
      refine ⟨quote, inner ++ rest, rfl, ?_⟩
      rw [read, if_neg (by simp [hslash]), if_neg (by simp [hslash]), if_pos hquote,
        hends.cutLiteral_eq hquote]
  | plain c =>
      rcases h with ⟨hquote, hslash⟩
      refine ⟨c, rest, rfl, ?_⟩
      rw [read, if_neg fun hc => (hslash hc.1).1 hc.2, if_neg fun hc => (hslash hc.1).2 hc.2,
        hquote, if_neg (by simp)]

/-- Every token of a source stands before some rest of it. -/
theorem exists_precedes_of_mem_lex {token : Token} {source : Text} (h : token ∈ lex source) :
    ∃ rest, token.Precedes rest := by
  fun_induction lex source with
  | case1 => simp at h
  | case2 c rest _ ih =>
      rcases List.mem_cons.mp h with rfl | hmem
      · exact ⟨_, precedes_read c rest⟩
      · exact ih hmem

/-- A source falls into tokens in exactly one way, and that is how it is read. -/
theorem lexes_iff {source : Text} {tokens : List Token} :
    Lexes source tokens ↔ tokens = lex source := by
  constructor
  · intro h
    induction h with
    | nil => rw [lex]
    | cons hfirst _ ih =>
        rcases hfirst.read_eq with ⟨c, text, htext, hread⟩
        rw [htext, lex, hread, ih]
  · rintro rfl
    fun_induction lex source with
    | case1 => exact .nil
    | case2 c rest _ ih =>
        have hcons := Lexes.cons (precedes_read c rest) ih
        rwa [read_text] at hcons

end Token
end DocComment
