import DocComment.Proofs.Source.Agreement
import DocComment.Record

/-!
# Sources one after the other

A line feed between two sources keeps them apart: it ends a line comment and a
quoted literal that were left open, it separates a slash at the end from what
comes next, and after anything that is closed it stands alone.  It does not end a
block comment or a template, and a backslash at the end of a literal takes it
away.  These three are the only ways in which one source can reach into the next.

Main results:

- Definition `Token.Hanging`: the tokens that go on after a line feed.
- Theorem `Token.Lexes.append_of_not_hanging`: a source that does not end with such
  a token falls into its tokens also when another source follows.
- Theorem `Token.Lexes.append_probe_of_hanging`: after a source that does, a block
  comment on the next line is not found.
- Theorem `Record.ofSource_append_iff`: when the records of two sources are those of
  the first followed by those of the second.
-/

namespace DocComment
namespace Token

/-! ## Literals that stay open -/

/-- A string literal goes on with a text and is still open where the text ends.
The flag tells whether the text ends with a backslash that takes the next
character with it. -/
inductive StaysOpen (quote : Char) : Bool → Text → Prop
  | start : StaysOpen quote false []
  | escape : StaysOpen quote true ['\x5c']
  | escaped (c : Char) {escaping : Bool} {inner : Text}
      (hinner : StaysOpen quote escaping inner) :
      StaysOpen quote escaping ('\x5c' :: c :: inner)
  | plain {c : Char} {escaping : Bool} {inner : Text} (hescape : c ≠ '\x5c')
      (hquote : c ≠ quote) (hline : c = '\n' → quote = '\x60')
      (hinner : StaysOpen quote escaping inner) : StaysOpen quote escaping (c :: inner)

/-- A literal that stays open is one that ends with the source. -/
theorem StaysOpen.endsLiteral {quote : Char} {escaping : Bool} {inner : Text}
    (h : StaysOpen quote escaping inner) : EndsLiteral quote inner [] := by
  induction h with
  | start => exact .unclosed
  | escape => exact .unclosedEscape
  | escaped c _ ih => exact .escaped c ih
  | plain hescape hquote hline _ ih => exact .plain hescape hquote hline ih

/-- A line feed ends a literal that stays open, if nothing escapes it and the
literal is no template. -/
theorem StaysOpen.endsLiteral_line {quote : Char} {escaping : Bool} {inner : Text}
    (h : StaysOpen quote escaping inner) (hescaping : escaping = false)
    (htemplate : quote ≠ '\x60') (rest : Text) : EndsLiteral quote (inner ++ ['\n']) rest := by
  induction h with
  | start => exact .line rest htemplate
  | escape => contradiction
  | escaped c _ ih => exact .escaped c (ih hescaping)
  | plain hescape hquote hline _ ih => exact .plain hescape hquote hline (ih hescaping)

/-- A text that would stay open by itself stays open after one that does. -/
theorem StaysOpen.append {quote : Char} {escaping escaping' : Bool} {inner more : Text}
    (h : StaysOpen quote escaping inner) (hescaping : escaping = false)
    (hmore : StaysOpen quote escaping' more) : StaysOpen quote escaping' (inner ++ more) := by
  induction h with
  | start => exact hmore
  | escape => contradiction
  | escaped c _ ih => exact .escaped c (ih hescaping)
  | plain hescape hquote hline _ ih => exact .plain hescape hquote hline (ih hescaping)

/-- A character that is escaped does not end a literal, whatever it is. -/
theorem StaysOpen.append_escaped {quote : Char} {escaping escaping' : Bool} {inner more : Text}
    (h : StaysOpen quote escaping inner) (hescaping : escaping = true) (c : Char)
    (hmore : StaysOpen quote escaping' more) : StaysOpen quote escaping' (inner ++ c :: more) := by
  induction h with
  | start => contradiction
  | escape => exact .escaped c hmore
  | escaped d _ ih => exact .escaped d (ih hescaping)
  | plain hescape hquote hline _ ih => exact .plain hescape hquote hline (ih hescaping)

/-! ## Closed and open tokens -/

/-- A literal ends with the source and stays open, or it ends where it ends
whatever follows. -/
theorem EndsLiteral.open_or_closed {quote : Char} {inner rest : Text}
    (h : EndsLiteral quote inner rest) :
    (rest = [] ∧ ∃ escaping, StaysOpen quote escaping inner) ∨
      ∀ rest', EndsLiteral quote inner rest' := by
  induction h with
  | closed rest => exact .inr .closed
  | line rest htemplate => exact .inr fun rest' => .line rest' htemplate
  | unclosed => exact .inl ⟨rfl, false, .start⟩
  | unclosedEscape => exact .inl ⟨rfl, true, .escape⟩
  | escaped c _ ih =>
      rcases ih with ⟨hrest, escaping, hopen⟩ | hclosed
      · exact .inl ⟨hrest, escaping, .escaped c hopen⟩
      · exact .inr fun rest' => .escaped c (hclosed rest')
  | plain hescape hquote hline _ ih =>
      rcases ih with ⟨hrest, escaping, hopen⟩ | hclosed
      · exact .inl ⟨hrest, escaping, .plain hescape hquote hline hopen⟩
      · exact .inr fun rest' => .plain hescape hquote hline (hclosed rest')

/-- A block runs to the end of the source, or it ends whatever follows it. -/
theorem EndsBlock.open_or_closed {inner rest : Text} (h : EndsBlock inner rest) :
    (rest = [] ∧ ¬ closer <:+: inner) ∨ ∀ rest', EndsBlock inner rest' := by
  cases h with
  | closed inner _ hfirst => exact .inr fun rest' => .closed inner rest' hfirst
  | unclosed _ hnone => exact .inl ⟨rfl, hnone⟩

/-- A line runs to the end of the source, or it ends whatever follows it. -/
theorem EndsLine.open_or_closed {inner rest : Text} (h : EndsLine inner rest) :
    (rest = [] ∧ '\n' ∉ inner) ∨ ∀ rest', EndsLine inner rest' := by
  cases h with
  | closed inner _ hfirst => exact .inr fun rest' => .closed inner rest' hfirst
  | unclosed _ hnone => exact .inl ⟨rfl, hnone⟩

/-- A token at the end of a source that goes on after a line feed: a block comment
that is not closed, a template that is not closed, or a literal that ends with a
backslash. -/
inductive Hanging : Token → Prop
  | block (inner : Text) (hnone : ¬ closer <:+: inner) : Hanging (.block ('/' :: '*' :: inner))
  | template {escaping : Bool} {inner : Text} (hopen : StaysOpen '\x60' escaping inner) :
      Hanging (.literal ('\x60' :: inner))
  | escape {quote : Char} {inner : Text} (hquote : isQuote quote = true)
      (hopen : StaysOpen quote true inner) : Hanging (.literal (quote :: inner))

/-- The last token of a source goes on after a line feed. -/
def EndsHanging (source : Text) : Prop :=
  ∃ token, (lex source).getLast? = some token ∧ token.Hanging

/-- A token that something follows is closed, so that anything may follow it that
starts with the same character. -/
theorem Precedes.of_head?_eq {token : Token} {rest rest' : Text} (h : token.Precedes rest)
    (hne : rest ≠ []) (hhead : rest'.head? = rest.head?) : token.Precedes rest' := by
  cases token with
  | block text =>
      obtain ⟨inner, htext, hends⟩ := h
      rcases hends.open_or_closed with ⟨hnil, _⟩ | hclosed
      · contradiction
      · exact ⟨inner, htext, hclosed _⟩
  | lineComment text =>
      obtain ⟨inner, htext, hends⟩ := h
      rcases hends.open_or_closed with ⟨hnil, _⟩ | hclosed
      · contradiction
      · exact ⟨inner, htext, hclosed _⟩
  | literal text =>
      obtain ⟨quote, inner, htext, hquote, hends⟩ := h
      rcases hends.open_or_closed with ⟨hnil, _⟩ | hclosed
      · contradiction
      · exact ⟨quote, inner, htext, hquote, hclosed _⟩
  | plain c =>
      obtain ⟨hquote, hslash⟩ := h
      refine ⟨hquote, ?_⟩
      rw [hhead]
      exact hslash

/-- A token that precedes a rest also precedes longer ones. -/
theorem Precedes.append {token : Token} {rest : Text} (h : token.Precedes rest)
    (hne : rest ≠ []) (more : Text) : token.Precedes (rest ++ more) := by
  refine h.of_head?_eq hne ?_
  rw [List.head?_append, List.head?_eq_some_head hne, Option.some_or]

/-- A last token that does not go on after a line feed stands before it, or ends
with it and is no block comment. -/
theorem Precedes.line_feed {token : Token} (h : token.Precedes []) (hends : ¬ token.Hanging)
    (next : Text) :
    token.Precedes ('\n' :: next) ∨
      ∃ longer : Token, longer.text = token.text ++ ['\n'] ∧ longer.Precedes next ∧
        token.block? = none ∧ longer.block? = none := by
  cases token with
  | block text =>
      obtain ⟨inner, rfl, hblock⟩ := h
      rcases hblock.open_or_closed with ⟨_, hnone⟩ | hclosed
      · exact absurd (.block inner hnone) hends
      · exact .inl ⟨inner, rfl, hclosed _⟩
  | lineComment text =>
      obtain ⟨inner, rfl, hline⟩ := h
      rcases hline.open_or_closed with ⟨_, hnone⟩ | hclosed
      · exact .inr ⟨.lineComment ('/' :: '/' :: (inner ++ ['\n'])), rfl,
          ⟨_, rfl, .closed inner next hnone⟩, rfl, rfl⟩
      · exact .inl ⟨inner, rfl, hclosed _⟩
  | literal text =>
      obtain ⟨quote, inner, rfl, hquote, hliteral⟩ := h
      rcases hliteral.open_or_closed with ⟨_, escaping, hopen⟩ | hclosed
      · have hescaping : escaping = false := by
          cases escaping with
          | false => rfl
          | true => exact absurd (.escape hquote hopen) hends
        have htemplate : quote ≠ '\x60' := by
          intro heq
          rw [heq] at hopen hends
          exact hends (.template hopen)
        exact .inr ⟨.literal (quote :: (inner ++ ['\n'])), rfl,
          ⟨quote, _, rfl, hquote, hopen.endsLiteral_line hescaping htemplate next⟩, rfl, rfl⟩
      · exact .inl ⟨quote, inner, rfl, hquote, hclosed _⟩
  | plain c =>
      refine .inl ⟨h.1, ?_⟩
      intro _
      simp

/-! ## Sources that end well -/

theorem Lexes.eq_nil {tokens : List Token} (h : Lexes [] tokens) : tokens = [] := by
  rw [lexes_iff.mp h, lex]

theorem Lexes.ne_nil {source : Text} {tokens : List Token} (h : Lexes source tokens)
    (hne : source ≠ []) : tokens ≠ [] := by
  cases h with
  | nil => contradiction
  | cons _ _ => simp

/-- The token for a line feed that stands alone. -/
theorem Lexes.cons_line_feed {next : Text} {tokens : List Token} (h : Lexes next tokens) :
    Lexes ('\n' :: next) (.plain '\n' :: tokens) := by
  have hfirst : Precedes (.plain '\n') next := ⟨rfl, by simp⟩
  exact .cons hfirst h

/-- A source that does not end with a hanging token falls into tokens with the same
block comments also when another source follows on the next line. -/
theorem Lexes.append_of_not_hanging {source : Text} {tokens : List Token} (h : Lexes source tokens)
    (hlast : ∀ token, tokens.getLast? = some token → ¬ token.Hanging) (next : Text) :
    ∃ tokens', Lexes (source ++ '\n' :: next) (tokens' ++ lex next) ∧
      tokens'.filterMap block? = tokens.filterMap block? := by
  have hnext : Lexes next (lex next) := lexes_iff.mpr rfl
  induction h with
  | nil => exact ⟨[.plain '\n'], hnext.cons_line_feed, rfl⟩
  | @cons token rest tokens hfirst hrest ih =>
      rw [List.append_assoc]
      by_cases hnil : rest = []
      · -- The token is the last one, and the line feed comes next.
        subst hnil
        have htokens := hrest.eq_nil
        subst htokens
        rcases hfirst.line_feed (hlast token rfl) next with hstands | ⟨longer, htext, hlonger, hkind⟩
        · refine ⟨[token, .plain '\n'], .cons hstands hnext.cons_line_feed, ?_⟩
          simp [List.filterMap_cons, block?]
        · refine ⟨[longer], ?_, ?_⟩
          · have hlexes := Lexes.cons hlonger hnext
            rw [htext, List.append_assoc] at hlexes
            exact hlexes
          · simp [hkind.1, hkind.2]
      · have htokens := hrest.ne_nil hnil
        have hlast' : ∀ last, tokens.getLast? = some last → ¬ last.Hanging := by
          intro last hmem
          apply hlast last
          rw [List.getLast?_cons_of_ne_nil htokens]
          exact hmem
        obtain ⟨tokens', hlexes, hblocks⟩ := ih hlast'
        refine ⟨token :: tokens', .cons (hfirst.append hnil _) hlexes, ?_⟩
        rw [List.filterMap_cons, List.filterMap_cons, hblocks]

/-- The block comments of two sources one after the other. -/
theorem blocks_append {source : Text} (h : ¬ EndsHanging source) (next : Text) :
    blocks (source ++ '\n' :: next) = blocks source ++ blocks next := by
  have hsource : Lexes source (lex source) := lexes_iff.mpr rfl
  have hlast : ∀ token, (lex source).getLast? = some token → ¬ token.Hanging := by
    intro token htoken hhanging
    exact h ⟨token, htoken, hhanging⟩
  obtain ⟨tokens', hlexes, hblocks⟩ := hsource.append_of_not_hanging hlast next
  rw [blocks, ← lexes_iff.mp hlexes, List.filterMap_append, hblocks]
  rfl

/-! ## Sources that reach into the next one -/

/-- The shortest block comment. -/
def probe : Text := ['/', '*', '*', '/']

theorem blocks_probe : blocks probe = [probe] := by
  have hfirst : ¬ closer <:+: [] ++ ['*'] := by decide
  have hprobe : Precedes (.block probe) [] := ⟨[] ++ closer, rfl, .closed [] [] hfirst⟩
  have hlexes : Lexes probe [.block probe] := .cons hprobe .nil
  rw [blocks, ← lexes_iff.mp hlexes]
  rfl

/-- A line feed and what follows it do not complete a closer. -/
theorem closer_notInfix_append {inner more : Text} (h : ¬ closer <:+: inner)
    (hhead : more.head? ≠ some '/') (hmore : ¬ closer <:+: more) : ¬ closer <:+: inner ++ more := by
  induction inner with
  | nil => exact hmore
  | cons c inner ih =>
      rw [closer_infix_cons, not_or] at h
      rw [List.cons_append, closer_infix_cons, not_or]
      refine ⟨?_, ih h.2⟩
      cases inner with
      | nil =>
          intro hstart
          exact hhead hstart.2
      | cons d inner => exact h.1

/-- A text without quotes, backslashes and line feeds does not end a literal. -/
theorem staysOpen_of_forall {quote : Char} (hquote : isQuote quote = true) {text : Text}
    (h : ∀ c ∈ text, c ≠ '\x5c' ∧ c ≠ '\n' ∧ isQuote c = false) : StaysOpen quote false text := by
  induction text with
  | nil => exact .start
  | cons c text ih =>
      obtain ⟨hescape, hline, hc⟩ := h c List.mem_cons_self
      refine .plain hescape ?_ (fun heq => absurd heq hline) ?_
      · intro heq
        rw [heq, hquote] at hc
        contradiction
      · exact ih fun d hd => h d (List.mem_cons_of_mem c hd)

theorem staysOpen_probe {quote : Char} (hquote : isQuote quote = true) :
    StaysOpen quote false probe := by
  apply staysOpen_of_forall hquote
  intro c hc
  simp only [probe, List.mem_cons, List.not_mem_nil, or_false] at hc
  rcases hc with rfl | rfl | rfl | rfl <;> decide

/-- A hanging token swallows a block comment on the next line. -/
theorem Hanging.exists_longer {token : Token} (h : token.Hanging) :
    ∃ longer : Token, longer.text = token.text ++ '\n' :: probe ∧ longer.Precedes [] ∧
      longer.block?.isSome = token.block?.isSome := by
  cases h with
  | block inner hnone =>
      -- The closer of the swallowed comment closes this one.
      have hfirst : ¬ closer <:+: (inner ++ ['\n', '/', '*']) ++ ['*'] := by
        rw [List.append_assoc]
        exact closer_notInfix_append hnone (by simp) (by decide)
      refine ⟨.block ('/' :: '*' :: (inner ++ ['\n', '/', '*'] ++ closer)), ?_, ?_, rfl⟩
      · simp [text, closer, probe]
      · exact ⟨_, rfl, .closed _ [] hfirst⟩
  | @template escaping inner hopen =>
      have hmore : StaysOpen '\x60' false (inner ++ '\n' :: probe) := by
        cases escaping with
        | false =>
            apply hopen.append rfl
            exact .plain (by decide) (by decide) (fun _ => rfl) (staysOpen_probe rfl)
        | true => exact hopen.append_escaped rfl '\n' (staysOpen_probe rfl)
      exact ⟨.literal ('\x60' :: (inner ++ '\n' :: probe)), rfl,
        ⟨'\x60', _, rfl, rfl, hmore.endsLiteral⟩, rfl⟩
  | @escape quote inner hquote hopen =>
      have hmore := hopen.append_escaped rfl '\n' (staysOpen_probe hquote)
      exact ⟨.literal (quote :: (inner ++ '\n' :: probe)), rfl,
        ⟨quote, _, rfl, hquote, hmore.endsLiteral⟩, rfl⟩

/-- After a source that ends with a hanging token, a block comment on the next line
is not found. -/
theorem Lexes.append_probe_of_hanging {source : Text} {tokens : List Token}
    (h : Lexes source tokens) {last : Token} (hlast : tokens.getLast? = some last)
    (hhanging : last.Hanging) :
    ∃ tokens', Lexes (source ++ '\n' :: probe) tokens' ∧
      (tokens'.filterMap block?).length = (tokens.filterMap block?).length := by
  induction h with
  | nil => simp at hlast
  | @cons token rest tokens hfirst hrest ih =>
      rw [List.append_assoc]
      by_cases hnil : rest = []
      · subst hnil
        have htokens := hrest.eq_nil
        subst htokens
        rw [List.getLast?_singleton, Option.some.injEq] at hlast
        subst hlast
        obtain ⟨longer, htext, hlonger, hkind⟩ := hhanging.exists_longer
        have hlexes := Lexes.cons hlonger .nil
        rw [htext, List.append_nil] at hlexes
        refine ⟨[longer], hlexes, ?_⟩
        rw [List.length_filterMap_eq_countP, List.length_filterMap_eq_countP,
          List.countP_singleton, List.countP_singleton, hkind]
      · rw [List.getLast?_cons_of_ne_nil (hrest.ne_nil hnil)] at hlast
        obtain ⟨tokens', hlexes, hlength⟩ := ih hlast
        refine ⟨token :: tokens', .cons (hfirst.append hnil _) hlexes, ?_⟩
        rw [List.filterMap_cons, List.filterMap_cons]
        cases token.block? with
        | none => exact hlength
        | some text => rw [List.length_cons, List.length_cons, hlength]

/-- A source that ends hanging swallows a comment that is put after it. -/
theorem length_blocks_append_probe {source : Text} (h : EndsHanging source) :
    (blocks (source ++ '\n' :: probe)).length = (blocks source).length := by
  have hsource : Lexes source (lex source) := lexes_iff.mpr rfl
  obtain ⟨last, hlast, hhanging⟩ := h
  obtain ⟨tokens', hlexes, hlength⟩ := hsource.append_probe_of_hanging hlast hhanging
  rw [blocks, ← lexes_iff.mp hlexes, hlength]
  rfl

end Token

/-! ## Records -/

namespace Record

/-- The records of a source are those of its block tokens. -/
theorem ofSource_eq_map_blocks (source : Text) :
    ofSource source = (Token.blocks source).map ofComment := by
  rw [ofSource, Source.blockComments_eq_blocks]

/-- The records of a source with any other on the lines after it are the records of
the two, one after the other, exactly when the first does not end within a block
comment, within a template, or within a literal that ends with a backslash. -/
theorem ofSource_append_iff (source : Text) :
    (∀ next, ofSource (source ++ '\n' :: next) = ofSource source ++ ofSource next) ↔
      ¬ Token.EndsHanging source := by
  constructor
  · intro h hends
    have hlength := congrArg List.length (h Token.probe)
    simp only [ofSource_eq_map_blocks, List.length_append, List.length_map,
      Token.length_blocks_append_probe hends, Token.blocks_probe, List.length_singleton] at hlength
    omega
  · intro h next
    rw [ofSource_eq_map_blocks, ofSource_eq_map_blocks, ofSource_eq_map_blocks,
      Token.blocks_append h next, List.map_append]

-- A literal that is left open ends with its line, but not when a backslash is its
-- last character.
example :
    Token.blocks ("'/*".toList ++ '\n' :: Token.probe) = [Token.probe] ∧
      Token.blocks ("'/*\\".toList ++ '\n' :: Token.probe) = [] := by
  decide +kernel

end Record
end DocComment
