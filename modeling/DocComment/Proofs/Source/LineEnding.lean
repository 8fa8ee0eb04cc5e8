import DocComment.Proofs.Source.Seam
import DocComment.Proofs.Text.LineEnding

/-!
# Sources and line endings

A source falls into the same tokens whether its lines end with a line feed or with
a carriage return and a line feed, with one exception.  A backslash at the end of a
line takes one character with it: the line feed in one source, the carriage return
in the other.  There the line feed is left over, and it ends a literal in single or
double quotes.  So the two scans part where such a literal is continued on the next
line, and nowhere else.

Main results:

- Definition `Token.isContinued`: a quoted literal that goes on after an escaped
  line feed.
- Theorem `Token.Lexes.crlf`: a source without such a literal falls into the same
  tokens.
- Theorem `Source.blockComments_crlf`: its block comments are the same, and the
  condition cannot be dropped.
-/

namespace DocComment
namespace Token

/-! ## Line feeds that are escaped -/

/-- A text holds a line feed that a backslash takes with it. -/
def escapesLineFeed : Text → Bool
  | [] => false
  | [_] => false
  | c :: d :: rest =>
    if c = '\x5c' then d == '\n' || escapesLineFeed rest else escapesLineFeed (d :: rest)

/-- A literal in single or double quotes that is continued on the next line. -/
def isContinued : Token → Bool
  | .literal (quote :: inner) => quote != '\x60' && escapesLineFeed inner
  | _ => false

theorem escapesLineFeed_escape {c : Char} {rest : Text} :
    escapesLineFeed ('\x5c' :: c :: rest) = false ↔ c ≠ '\n' ∧ escapesLineFeed rest = false := by
  simp [escapesLineFeed]

theorem escapesLineFeed_cons {c : Char} (h : c ≠ '\x5c') (rest : Text) :
    escapesLineFeed (c :: rest) = escapesLineFeed rest := by
  cases rest with
  | nil => rfl
  | cons d rest => rw [escapesLineFeed, if_neg h]

/-- The start of a text without an escaped line feed has none either. -/
theorem escapesLineFeed_of_append {before after : Text}
    (h : escapesLineFeed (before ++ after) = false) : escapesLineFeed before = false := by
  fun_induction escapesLineFeed before with
  | case1 => rfl
  | case2 => rfl
  | case3 d rest ih =>
      obtain ⟨hd, hrest⟩ := escapesLineFeed_escape.mp h
      simp [hd, ih hrest]
  | case4 c d rest hc ih =>
      rw [List.cons_append, escapesLineFeed_cons hc] at h
      exact ih h

/-- A literal is continued by an escaped line feed in it, backtick literals apart. -/
theorem isContinued_literal {quote : Char} {inner : Text} :
    isContinued (.literal (quote :: inner)) = false ↔
      (quote ≠ '\x60' → escapesLineFeed inner = false) := by
  by_cases hquote : quote = '\x60' <;> simp [isContinued, hquote]

/-! ## Block comments and line comments -/

/-- Only the characters of a line ending can become or cease to be the first of a text. -/
theorem head?_crlf_eq_iff {c : Char} (hreturn : c ≠ '\r') (hline : c ≠ '\n') (text : Text) :
    (Text.crlf text).head? = some c ↔ text.head? = some c := by
  cases text with
  | nil => rfl
  | cons d text =>
      by_cases hd : d = '\n'
      · subst hd
        simp [Ne.symm hreturn, Ne.symm hline]
      · rw [Text.crlf_cons hd, List.head?_cons, List.head?_cons]

/-- Changing line endings makes no closer and breaks none. -/
theorem closer_infix_crlf (text : Text) : closer <:+: Text.crlf text ↔ closer <:+: text := by
  induction text with
  | nil => rfl
  | cons c text ih =>
      by_cases hc : c = '\n'
      · subst hc
        rw [Text.crlf_line_feed, closer_infix_cons, closer_infix_cons, closer_infix_cons, ih]
        simp
      · rw [Text.crlf_cons hc, closer_infix_cons, closer_infix_cons, ih,
          head?_crlf_eq_iff (by decide) (by decide)]

/-- A block still ends at the same place with other line endings. -/
theorem EndsBlock.crlf {inner rest : Text} (h : EndsBlock inner rest) :
    EndsBlock (Text.crlf inner) (Text.crlf rest) := by
  cases h with
  | closed inner _ hfirst =>
      rw [Text.crlf_append]
      refine .closed _ _ ?_
      rw [← closer_infix_crlf, Text.crlf_append] at hfirst
      exact hfirst
  | unclosed _ hnone => exact .unclosed _ (mt (closer_infix_crlf inner).mp hnone)

/-- A line still ends at the same place with other line endings. -/
theorem EndsLine.crlf {inner rest : Text} (h : EndsLine inner rest) :
    EndsLine (Text.crlf inner) (Text.crlf rest) := by
  cases h with
  | closed inner _ hfirst =>
      have hreturn : '\n' ∉ inner ++ ['\r'] := by simp [hfirst]
      have hclosed := EndsLine.closed _ (Text.crlf rest) hreturn
      rw [List.append_assoc] at hclosed
      rw [Text.crlf_append, Text.crlf_of_notMem hfirst]
      exact hclosed
  | unclosed _ hnone =>
      rw [Text.crlf_of_notMem hnone]
      exact .unclosed _ hnone

/-! ## String literals -/

theorem return_ne_of_isQuote {quote : Char} (h : isQuote quote = true) : '\r' ≠ quote := by
  rintro rfl
  contradiction

/-- A literal that stays open does so with either line ending, unless it is quoted
and continued. -/
theorem StaysOpen.crlf {quote : Char} (hquote : isQuote quote = true) {escaping : Bool}
    {inner : Text} (h : StaysOpen quote escaping inner)
    (hsteady : quote ≠ '\x60' → escapesLineFeed inner = false) :
    StaysOpen quote escaping (Text.crlf inner) := by
  have hreturn := return_ne_of_isQuote hquote
  have hfeed := Ne.symm (ne_of_isQuote hquote).2
  induction h with
  | start => exact .start
  | escape => exact .escape
  | escaped c _ ih =>
      have ih := ih fun htemplate => (escapesLineFeed_escape.mp (hsteady htemplate)).2
      rw [Text.crlf_cons (by decide)]
      by_cases hc : c = '\n'
      · -- The backslash takes the carriage return, and a template goes on after the
        -- line feed.
        subst hc
        have htemplate : quote = '\x60' := Decidable.byContradiction fun hne =>
          (escapesLineFeed_escape.mp (hsteady hne)).1 rfl
        exact .escaped '\r' (.plain (by decide) hfeed (fun _ => htemplate) ih)
      · rw [Text.crlf_cons hc]
        exact .escaped c ih
  | @plain c _ _ hescape hne hline _ ih =>
      have ih := ih fun htemplate => by
        rw [← escapesLineFeed_cons hescape]
        exact hsteady htemplate
      by_cases hc : c = '\n'
      · subst hc
        exact .plain (by decide) hreturn (fun heq => absurd heq (by decide))
          (.plain hescape hne hline ih)
      · rw [Text.crlf_cons hc]
        exact .plain hescape hne hline ih

/-- A literal ends with the source, or it stays open up to the character that ends
it. -/
theorem EndsLiteral.exists_staysOpen {quote : Char} {inner rest : Text}
    (h : EndsLiteral quote inner rest) :
    (rest = [] ∧ ∃ escaping, StaysOpen quote escaping inner) ∨
      ∃ text last, inner = text ++ [last] ∧ StaysOpen quote false text ∧
        (last = quote ∨ last = '\n' ∧ quote ≠ '\x60') := by
  induction h with
  | closed rest => exact .inr ⟨[], quote, rfl, .start, .inl rfl⟩
  | line rest htemplate => exact .inr ⟨[], '\n', rfl, .start, .inr ⟨rfl, htemplate⟩⟩
  | unclosed => exact .inl ⟨rfl, false, .start⟩
  | unclosedEscape => exact .inl ⟨rfl, true, .escape⟩
  | escaped c _ ih =>
      rcases ih with ⟨hrest, escaping, hopen⟩ | ⟨text, last, rfl, hopen, hlast⟩
      · exact .inl ⟨hrest, escaping, .escaped c hopen⟩
      · exact .inr ⟨'\x5c' :: c :: text, last, rfl, .escaped c hopen, hlast⟩
  | @plain c _ _ hescape hquote hline _ ih =>
      rcases ih with ⟨hrest, escaping, hopen⟩ | ⟨text, last, rfl, hopen, hlast⟩
      · exact .inl ⟨hrest, escaping, .plain hescape hquote hline hopen⟩
      · exact .inr ⟨c :: text, last, rfl, .plain hescape hquote hline hopen, hlast⟩

/-- The quote ends a literal that stays open, if nothing escapes it. -/
theorem StaysOpen.endsLiteral_quote {quote : Char} {escaping : Bool} {inner : Text}
    (h : StaysOpen quote escaping inner) (hescaping : escaping = false) (rest : Text) :
    EndsLiteral quote (inner ++ [quote]) rest := by
  induction h with
  | start => exact .closed rest
  | escape => contradiction
  | escaped c _ ih => exact .escaped c (ih hescaping)
  | plain hescape hquote hline _ ih => exact .plain hescape hquote hline (ih hescaping)

/-- A literal without escaped line feeds ends at the same place with other line endings.
-/
theorem EndsLiteral.crlf {quote : Char} (hquote : isQuote quote = true) {inner rest : Text}
    (h : EndsLiteral quote inner rest)
    (hsteady : quote ≠ '\x60' → escapesLineFeed inner = false) :
    EndsLiteral quote (Text.crlf inner) (Text.crlf rest) := by
  rcases h.exists_staysOpen with ⟨rfl, escaping, hopen⟩ | ⟨text, last, rfl, hopen, hlast⟩
  · exact (hopen.crlf hquote hsteady).endsLiteral
  · have hopen' := hopen.crlf hquote fun htemplate => escapesLineFeed_of_append (hsteady htemplate)
    rw [Text.crlf_append]
    rcases hlast with rfl | ⟨rfl, htemplate⟩
    · rw [Text.crlf_cons (ne_of_isQuote hquote).2]
      exact hopen'.endsLiteral_quote rfl _
    · -- The carriage return belongs to the literal, and the line feed ends it.
      have hreturn : StaysOpen quote false ['\r'] :=
        .plain (by decide) (return_ne_of_isQuote hquote) (fun heq => absurd heq (by decide)) .start
      have hline := (hopen'.append rfl hreturn).endsLiteral_line rfl htemplate (Text.crlf rest)
      rw [List.append_assoc] at hline
      exact hline

/-! ## Tokens -/

/-- The tokens that are written for a token.  A carriage return before a line feed
that stands alone stands alone too. -/
def crlf : Token → List Token
  | .block text => [.block (Text.crlf text)]
  | .lineComment text => [.lineComment (Text.crlf text)]
  | .literal text => [.literal (Text.crlf text)]
  | .plain c => (Text.ending c).map .plain

/-- The blocks of changed tokens are the changed blocks. -/
theorem filterMap_block?_crlf (tokens : List Token) :
    (tokens.flatMap crlf).filterMap block? = (tokens.filterMap block?).map Text.crlf := by
  induction tokens with
  | nil => rfl
  | cons token tokens ih =>
      rw [List.flatMap_cons, List.filterMap_append, ih, List.filterMap_cons]
      cases token with
      | plain c =>
          have hnone : ((Text.ending c).map Token.plain).filterMap block? = [] := by
            rw [List.filterMap_map, List.filterMap_eq_nil_iff]
            intro d _
            rfl
          rw [crlf, hnone]
          rfl
      | _ => rfl

/-- The tokens that are written for a token stand where it stood. -/
theorem Precedes.lexes_crlf {token : Token} {rest : Text} {tokens : List Token}
    (h : token.Precedes rest) (hsteady : token.isContinued = false)
    (hrest : Lexes (Text.crlf rest) tokens) :
    Lexes (Text.crlf (token.text ++ rest)) (token.crlf ++ tokens) := by
  rw [Text.crlf_append]
  cases token with
  | block text =>
      obtain ⟨inner, rfl, hends⟩ := h
      have hblock : Precedes (.block (Text.crlf ('/' :: '*' :: inner))) (Text.crlf rest) :=
        ⟨_, rfl, hends.crlf⟩
      exact .cons hblock hrest
  | lineComment text =>
      obtain ⟨inner, rfl, hends⟩ := h
      have hline : Precedes (.lineComment (Text.crlf ('/' :: '/' :: inner))) (Text.crlf rest) :=
        ⟨_, rfl, hends.crlf⟩
      exact .cons hline hrest
  | literal text =>
      obtain ⟨quote, inner, rfl, hquote, hends⟩ := h
      have hends' := hends.crlf hquote (isContinued_literal.mp hsteady)
      have hliteral : Precedes (.literal (Text.crlf (quote :: inner))) (Text.crlf rest) :=
        ⟨quote, _, Text.crlf_cons (ne_of_isQuote hquote).2 inner, hquote, hends'⟩
      exact .cons hliteral hrest
  | plain c =>
      obtain ⟨hquote, hslash⟩ := h
      by_cases hc : c = '\n'
      · subst hc
        have hreturn : Precedes (.plain '\r') ('\n' :: Text.crlf rest) := ⟨rfl, by simp⟩
        exact .cons hreturn hrest.cons_line_feed
      · have hplain : Precedes (.plain c) (Text.crlf rest) := by
          refine ⟨hquote, ?_⟩
          rw [ne_eq, ne_eq, head?_crlf_eq_iff (by decide) (by decide),
            head?_crlf_eq_iff (by decide) (by decide)]
          exact hslash
        rw [crlf, Text.ending_of_ne hc, text, Text.crlf_cons hc]
        exact .cons hplain hrest

/-- A source without a continued literal falls into the same tokens with either line
ending. -/
theorem Lexes.crlf {source : Text} {tokens : List Token} (h : Lexes source tokens)
    (hsteady : ∀ token ∈ tokens, token.isContinued = false) :
    Lexes (Text.crlf source) (tokens.flatMap Token.crlf) := by
  induction h with
  | nil => exact .nil
  | @cons token rest tokens hfirst _ ih =>
      have ih := ih fun token htoken => hsteady token (List.mem_cons_of_mem _ htoken)
      exact hfirst.lexes_crlf (hsteady token List.mem_cons_self) ih

/-! ## Where the two scans part -/

/-- A literal with an escaped line feed stays open up to the first one, and the
backslash before it escapes what comes next. -/
theorem EndsLiteral.exists_escape {quote : Char} {inner rest : Text}
    (h : EndsLiteral quote inner rest) (hcontinued : escapesLineFeed inner = true) :
    ∃ before after, inner = before ++ '\n' :: after ∧ StaysOpen quote true before ∧
      escapesLineFeed before = false := by
  induction h with
  | closed rest => contradiction
  | line rest htemplate => contradiction
  | unclosed => contradiction
  | unclosedEscape => contradiction
  | @escaped c inner _ _ ih =>
      by_cases hc : c = '\n'
      · subst hc
        exact ⟨['\x5c'], inner, rfl, .escape, rfl⟩
      · have hrest : escapesLineFeed inner = true := by
          simpa [escapesLineFeed, hc] using hcontinued
        obtain ⟨before, after, rfl, hopen, hsteady⟩ := ih hrest
        exact ⟨'\x5c' :: c :: before, after, rfl, .escaped c hopen,
          escapesLineFeed_escape.mpr ⟨hc, hsteady⟩⟩
  | @plain c _ _ hescape hquote hline _ ih =>
      rw [escapesLineFeed_cons hescape] at hcontinued
      obtain ⟨before, after, rfl, hopen, hsteady⟩ := ih hcontinued
      refine ⟨c :: before, after, rfl, .plain hescape hquote hline hopen, ?_⟩
      rw [escapesLineFeed_cons hescape, hsteady]

/-- Up to the first line feed that continues a literal, a source falls into tokens
that are not continued, and the last of them waits for a character to escape. -/
theorem Lexes.exists_continued {source : Text} {tokens : List Token} (h : Lexes source tokens)
    (hcontinued : ∃ token ∈ tokens, token.isContinued = true) :
    ∃ before after tokens' quote inner, source = before ++ '\n' :: after ∧
      Lexes before (tokens' ++ [.literal (quote :: inner)]) ∧
      (∀ token ∈ tokens' ++ [.literal (quote :: inner)], token.isContinued = false) ∧
      isQuote quote = true ∧ quote ≠ '\x60' ∧ StaysOpen quote true inner := by
  induction h with
  | nil => simp at hcontinued
  | @cons token rest tokens hfirst hrest ih =>
      by_cases htoken : token.isContinued = true
      · cases token with
        | literal text =>
            obtain ⟨quote, inner, rfl, hquote, hends⟩ := hfirst
            simp only [isContinued, Bool.and_eq_true, bne_iff_ne] at htoken
            obtain ⟨before, after, rfl, hopen, hsteady⟩ := hends.exists_escape htoken.2
            have hliteral : Precedes (.literal (quote :: before)) [] :=
              ⟨quote, before, rfl, hquote, hopen.endsLiteral⟩
            have hlexes := Lexes.cons hliteral .nil
            rw [List.append_nil] at hlexes
            refine ⟨quote :: before, after ++ rest, [], quote, before, ?_, hlexes, ?_, hquote,
              htoken.1, hopen⟩
            · simp [text]
            · intro token hmem
              rw [List.nil_append, List.mem_singleton] at hmem
              rw [hmem, isContinued_literal]
              exact fun _ => hsteady
        | _ => contradiction
      · have hlater : ∃ token ∈ tokens, token.isContinued = true := by
          obtain ⟨token', hmem, htoken'⟩ := hcontinued
          rcases List.mem_cons.mp hmem with rfl | hmem
          · contradiction
          · exact ⟨token', hmem, htoken'⟩
        obtain ⟨before, after, tokens', quote, inner, rfl, hlexes, hsteady, hquote⟩ := ih hlater
        have hne : before ≠ [] := by
          rintro rfl
          have hnil := hlexes.eq_nil
          simp at hnil
        have hfirst' : token.Precedes before := by
          refine hfirst.of_head?_eq (by simp) ?_
          rw [List.head?_append, List.head?_eq_some_head hne, Option.some_or]
        refine ⟨token.text ++ before, after, token :: tokens', quote, inner, ?_,
          .cons hfirst' hlexes, ?_, hquote⟩
        · rw [List.append_assoc]
        · intro token' hmem
          rcases List.mem_cons.mp hmem with rfl | hmem
          · simpa using htoken
          · exact hsteady token' hmem

/-- When the last token of a source is part of a longer one, and other tokens follow
that one, the tokens before it stay. -/
theorem Lexes.extend_last {source more next : Text} {tokens rest : List Token} {last longer : Token}
    (h : Lexes source (tokens ++ [last])) (htext : longer.text = last.text ++ more)
    (hlonger : longer.Precedes next) (hnext : Lexes next rest) :
    Lexes (source ++ (more ++ next)) (tokens ++ longer :: rest) := by
  induction tokens generalizing source with
  | nil =>
      cases h with
      | @cons _ rest' _ hfirst hrest =>
          have hnil : rest' = [] := by
            cases hrest
            rfl
          rw [hnil, List.append_nil, ← List.append_assoc, ← htext]
          exact .cons hlonger hnext
  | cons token tokens ih =>
      cases h with
      | @cons _ rest' _ hfirst hrest =>
          have hne : rest' ≠ [] := by
            rintro rfl
            have hnil := hrest.eq_nil
            simp at hnil
          rw [List.append_assoc]
          exact .cons (hfirst.append hne _) (ih hrest)

/-- A block comment on the line after a continued literal begins is found with the
longer line endings only. -/
theorem length_blocks_crlf_probe {before : Text} {tokens : List Token} {quote : Char}
    {inner : Text} (h : Lexes before (tokens ++ [.literal (quote :: inner)]))
    (hsteady : ∀ token ∈ tokens ++ [.literal (quote :: inner)], token.isContinued = false)
    (hquote : isQuote quote = true) (htemplate : quote ≠ '\x60')
    (hopen : StaysOpen quote true inner) :
    (blocks (Text.crlf (before ++ '\n' :: probe))).length =
      (blocks (before ++ '\n' :: probe)).length + 1 := by
  have hhanging : EndsHanging before :=
    ⟨.literal (quote :: inner), by rw [← lexes_iff.mp h]; simp, .escape hquote hopen⟩
  have hinner := hsteady (.literal (quote :: inner)) (by simp)
  -- The backslash takes the carriage return, and the line feed ends the literal.
  have hopen' := (hopen.crlf hquote (isContinued_literal.mp hinner)).append_escaped rfl '\r' .start
  have hends := hopen'.endsLiteral_line rfl htemplate probe
  have hlonger : Precedes (.literal (quote :: (Text.crlf inner ++ ['\r'] ++ ['\n']))) probe :=
    ⟨quote, _, rfl, hquote, hends⟩
  have htext : text (.literal (quote :: (Text.crlf inner ++ ['\r'] ++ ['\n']))) =
      text (.literal (Text.crlf (quote :: inner))) ++ ['\r', '\n'] := by
    simp [text, Text.crlf_cons (ne_of_isQuote hquote).2]
  have hlexes := h.crlf hsteady
  rw [List.flatMap_append] at hlexes
  have hblock : Lexes probe (lex probe) := lexes_iff.mpr rfl
  have hcrlf := Lexes.extend_last hlexes htext hlonger hblock
  have hsource : Text.crlf (before ++ '\n' :: probe) =
      Text.crlf before ++ (['\r', '\n'] ++ probe) := by
    rw [Text.crlf_append]
    rfl
  have hprobe : (lex probe).filterMap block? = [probe] := blocks_probe
  rw [length_blocks_append_probe hhanging, hsource, blocks, ← lexes_iff.mp hcrlf, blocks,
    ← lexes_iff.mp h, List.filterMap_append, filterMap_block?_crlf, List.filterMap_append]
  simp [List.filterMap_cons, block?, hprobe]

end Token

/-! ## Block comments -/

namespace Source

/-- A source has a literal in single or double quotes that is continued on the next
line. -/
def Continued (source : Text) : Prop :=
  ∃ token ∈ Token.lex source, token.isContinued = true

/-- A source without a continued literal has the same block comments with either
line ending.  In a source with one, a block comment on the line after the first
continued line would be found only with the longer ones. -/
theorem blockComments_crlf (source : Text) :
    (¬ Continued source →
      blockComments (Text.crlf source) = (blockComments source).map Text.crlf) ∧
    (Continued source → ∃ before, before <+: source ∧
      blockComments (Text.crlf (before ++ Token.probe)) ≠
        (blockComments (before ++ Token.probe)).map Text.crlf) := by
  have hsource : Token.Lexes source (Token.lex source) := Token.lexes_iff.mpr rfl
  constructor
  · intro hsteady
    have hlexes := hsource.crlf fun token hmem => by
      rw [← Bool.not_eq_true]
      exact fun hcontinued => hsteady ⟨token, hmem, hcontinued⟩
    rw [blockComments_eq_blocks, blockComments_eq_blocks, Token.blocks,
      ← Token.lexes_iff.mp hlexes, Token.filterMap_block?_crlf]
    rfl
  · intro hcontinued
    obtain ⟨before, after, tokens, quote, inner, rfl, hlexes, hsteady, hquote, htemplate, hopen⟩ :=
      hsource.exists_continued hcontinued
    refine ⟨before ++ ['\n'], ⟨after, by simp⟩, ?_⟩
    intro heq
    have hlength := congrArg List.length heq
    rw [List.append_assoc, List.singleton_append, blockComments_eq_blocks,
      blockComments_eq_blocks, List.length_map,
      Token.length_blocks_crlf_probe hlexes hsteady hquote htemplate hopen] at hlength
    omega

/-- A template that is continued on the next line, a quoted literal that ends with
its line, and a block comment of two lines. -/
def templateSource : Text :=
  "\x60a \\\n/*\x60 'b\n/* c\n*/".toList

/-- A template may be continued, and the block comment is found with its own line
ending. -/
theorem blockComments_crlf_templateSource :
    ¬ Continued templateSource ∧
      blockComments (Text.crlf templateSource) = ["/* c\r\n*/".toList] := by
  have hsteady : ¬ Continued templateSource := by
    unfold Continued
    decide +kernel
  refine ⟨hsteady, ?_⟩
  rw [(blockComments_crlf templateSource).1 hsteady]
  decide +kernel

/-- A literal that is continued on a line which looks like a block comment. -/
def continuedSource : Text :=
  "s = 'one \\\n/* two */';".toList

/-- With line feeds alone the source has no block comment, and with the longer line
endings it has one. -/
theorem blockComments_crlf_continuedSource :
    '\r' ∉ continuedSource ∧ blockComments continuedSource = [] ∧
      blockComments (Text.crlf continuedSource) = ["/* two */".toList] ∧
      blockComments (Text.crlf continuedSource) ≠ (blockComments continuedSource).map Text.crlf := by
  decide +kernel

end Source
end DocComment
