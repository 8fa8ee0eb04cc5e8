import DocComment.Proofs.Param.PathText
import DocComment.Proofs.Record.Assembly
import DocComment.Proofs.Tag.Layout
import DocComment.Proofs.Types.Arrays

/-!
# The grammar of parameter lines

A parameter line has one layout: the tag, a type in braces which may be left out,
the path, and a description.  The layout can be given by a pattern whose parts
overlap, or by saying how the line falls into its parts.  The pattern can go wrong
ways, but each of them ends at a path with a brace, so that both give the same
entries.

Main results:

- Definition `ParamEntry.linePattern`: the pattern of parameter lines.
- Definition `ParamEntry.ReadsAs`: how a line falls into its parts.
- Theorem `ParamEntry.parse?_eq_groups`: an entry is what the groups of the pattern
  give.
- Theorem `ParamEntry.parse?_eq_some_iff`: an entry is what the parts of the line
  give.
- Theorem `ParamEntry.line_grammar`: both ways to read a line, and the tags that are
  parameter entries.
-/

namespace DocComment

/-- No blank is a letter. -/
theorem Text.isLetter_of_isBlank {c : Char} (h : Text.isBlank c = true) :
    Text.isLetter c = false := by
  by_contra hletter
  have hpart : Text.isIdentPart c = true := by
    rw [Bool.not_eq_false] at hletter
    simp [Text.isIdentPart, Text.isIdentStart, hletter]
  rw [Text.isBlank_of_isIdentPart hpart] at h
  contradiction

/-- A text does not start with a letter when it starts with blanks, or when what comes
after them does not. -/
theorem Text.isLetter_of_mem_head?_append {blanks rest : Text} (hblanks : allBlank blanks = true)
    (hrest : blanks = [] → ∀ c ∈ rest.head?, isLetter c = false) :
    ∀ c ∈ (blanks ++ rest).head?, isLetter c = false := by
  intro c hc
  cases blanks with
  | nil => exact hrest rfl c hc
  | cons d blanks =>
      cases hc
      exact isLetter_of_isBlank (isBlank_of_mem hblanks List.mem_cons_self)

theorem FieldPath.parse?_nil : FieldPath.parse? [] = none := by
  decide

/-- A path does not start with a brace. -/
theorem FieldPath.parse?_brace (rest : Text) : FieldPath.parse? ('\x7b' :: rest) = none := by
  rw [Option.eq_none_iff_forall_ne_some]
  intro path hpath
  rcases FieldPath.parse?_eq_some_iff.mp hpath with ⟨hne, hnamed, htext⟩
  rcases FieldPath.exists_text_eq_cons hne hnamed with ⟨c, more, hcons, hpart⟩
  rw [hcons] at htext
  cases htext
  exact absurd hpart (by decide)

namespace ParamEntry

/-! ## The parts of a line -/

/-- The type part at the start of a text, and what follows it.  It is given when
the first closing brace has a blank after it, and absent in all other cases. -/
inductive TypePart : Text → Option Text → Text → Prop
  | given {blanks type rest : Text} {c : Char} (hblanks : Text.allBlank blanks = true)
      (hclose : '\x7d' ∉ type) (hblank : Text.isBlank c = true) :
      TypePart (blanks ++ '\x7b' :: (type ++ '\x7d' :: c :: rest)) (some type) (c :: rest)
  | absent {text : Text}
      (hnone : ∀ blanks type c rest, text = blanks ++ '\x7b' :: (type ++ '\x7d' :: c :: rest) →
        Text.allBlank blanks = true → '\x7d' ∉ type → Text.isBlank c = false) :
      TypePart text none text

/-- A text falls into blanks, a word, and the description after it, which starts
with no blank and stands on one line. -/
structure Words (text token description blanks gap : Text) : Prop where
  text_eq : text = blanks ++ (token ++ (gap ++ description))
  blanks_ne_nil : blanks ≠ []
  blanks_blank : Text.allBlank blanks = true
  token_ne_nil : token ≠ []
  token_filled : ∀ c ∈ token, Text.isBlank c = false
  gap_blank : Text.allBlank gap = true
  gap_ne_nil : description ≠ [] → gap ≠ []
  description_start : ∀ c ∈ description.head?, Text.isBlank c = false
  description_line : '\n' ∉ description

/-- A line falls into the tag, a type part, the token of the path and a
description. -/
def ReadsAs (line : Text) (type : Option Text) (token description : Text) : Prop :=
  ∃ text rest blanks gap, line = "@param".toList ++ text ∧ TypePart text type rest ∧
    Words rest token description blanks gap

/-- The type part that a text has. -/
theorem typePart_eq_iff {text rest : Text} {type : Option Text} :
    typePart text = (type, rest) ↔ TypePart text type rest := by
  constructor
  · intro h
    unfold typePart at h
    split at h
    · rename_i type' rest' hbraces
      rcases Tag.braces?_eq_some_iff.mp hbraces with ⟨blanks, rfl, hblanks, hclose⟩
      split at h
      · rename_i hstart
        rcases Tag.startsBlank_iff.mp hstart with ⟨c, rest, rfl, hblank⟩
        cases h
        exact .given hblanks hclose hblank
      · rename_i hstart
        cases h
        refine .absent ?_
        intro blanks' type c rest htext hblanks' hclose'
        rw [Tag.braces?_eq_some_iff.mpr ⟨blanks', htext, hblanks', hclose'⟩] at hbraces
        cases hbraces
        simpa [Tag.startsBlank] using hstart
    · rename_i hbraces
      cases h
      refine .absent ?_
      intro blanks type c rest htext hblanks hclose
      rw [Tag.braces?_eq_some_iff.mpr ⟨blanks, htext, hblanks, hclose⟩] at hbraces
      contradiction
  · intro h
    cases h with
    | @given blanks type rest c hblanks hclose hblank =>
        have hstart : Tag.startsBlank (c :: rest) = true := hblank
        rw [typePart, Tag.braces?_eq_some_iff.mpr ⟨blanks, rfl, hblanks, hclose⟩]
        exact if_pos hstart
    | absent hnone =>
        unfold typePart
        split
        · rename_i type rest hbraces
          rcases Tag.braces?_eq_some_iff.mp hbraces with ⟨blanks, htext, hblanks, hclose⟩
          rw [if_neg]
          intro hstart
          rcases Tag.startsBlank_iff.mp hstart with ⟨c, rest, rfl, hblank⟩
          rw [hnone blanks type c rest htext hblanks hclose] at hblank
          contradiction
        · rfl

/-- The word and the description that a text has. -/
theorem exists_words_iff {text token description : Text} :
    (∃ blanks gap, Words text token description blanks gap) ↔
      token ≠ [] ∧ ∃ rest, Tag.word? text = some (token, rest) ∧
        Text.remainder? rest = some description := by
  constructor
  · rintro ⟨blanks, gap, h⟩
    refine ⟨h.token_ne_nil, gap ++ description, ?_, ?_⟩
    · refine (Tag.word?_eq_some_iff h.token_ne_nil).mpr
        ⟨blanks, h.text_eq, h.blanks_ne_nil, h.blanks_blank, h.token_filled, ?_⟩
      intro c hc
      cases gap with
      | nil =>
          have hnil : description = [] := by
            by_contra hne
            exact h.gap_ne_nil hne rfl
          rw [hnil] at hc
          contradiction
      | cons d gap =>
          cases hc
          exact Text.isBlank_of_mem h.gap_blank List.mem_cons_self
    · refine Text.remainder?_eq_some_iff.mpr
        ⟨gap, rfl, h.gap_blank, ?_, h.description_start, h.description_line⟩
      intro hgap
      by_contra hne
      exact h.gap_ne_nil hne hgap
  · rintro ⟨hne, rest, hword, hremainder⟩
    rcases (Tag.word?_eq_some_iff hne).mp hword with
      ⟨blanks, htext, hblanks, hblank, htoken, _⟩
    rcases Text.remainder?_eq_some_iff.mp hremainder with
      ⟨gap, rfl, hgap, hempty, hstart, hline⟩
    exact ⟨blanks, gap, htext, hblanks, hblank, hne, htoken, hgap,
      fun hdescription hnil => hdescription (hempty hnil), hstart, hline⟩

/-! ## Reading by parts -/

/-- The type that a type part gives: none for empty braces. -/
def typeOf? (type : Text) : Option TypeExpr :=
  if Text.allBlank type then none else some (TypeExpr.parse type)

/-- A type that is left blank counts as none. -/
theorem map_parse_field? (type : Text) :
    (Text.field? type).map TypeExpr.parse = typeOf? type := by
  unfold Text.field? typeOf?
  cases hblank : Text.allBlank type with
  | true =>
      have hnil : Text.trim type = [] := by
        by_contra hne
        have hfilled := (Text.trimmed_trim type).allBlank_eq_false hne
        rw [Text.allBlank_trim, hblank] at hfilled
        contradiction
      rw [if_pos hnil, if_pos rfl, Option.map_none]
  | false =>
      rw [if_neg (Text.trim_ne_nil hblank), if_neg (by decide), Option.map_some,
        TypeExpr.parse_trim]

/-- Read what follows the type part. -/
def ofFields? (type : Option Text) (text : Text) : Option ParamEntry := do
  let (token, afterToken) ← Tag.word? text
  let path ← FieldPath.parse? token
  let description ← Text.remainder? afterToken
  return { type := (type.bind Text.field?).map TypeExpr.parse
           path
           description := Text.trimEnd description }

theorem ofText?_eq (text : Text) :
    ofText? text = ofFields? (typePart text).1 (typePart text).2 :=
  rfl

/-- The text after the type falls into the words of an entry. -/
theorem ofFields?_eq_some_iff {type : Option Text} {text : Text} {entry : ParamEntry} :
    ofFields? type text = some entry ↔
      ∃ token description blanks gap, Words text token description blanks gap ∧
        FieldPath.parse? token = some entry.path ∧
        entry.type = type.bind typeOf? ∧ entry.description = Text.trimEnd description := by
  have htype : (type.bind Text.field?).map TypeExpr.parse = type.bind typeOf? := by
    rw [Option.map_bind]
    exact congrArg type.bind (funext map_parse_field?)
  simp only [ofFields?, htype, Option.bind_eq_bind, Option.bind_eq_some_iff, Option.pure_def,
    Option.some.injEq]
  constructor
  · rintro ⟨⟨token, rest⟩, hword, path, hpath, description, hremainder, rfl⟩
    have hne : token ≠ [] := by
      rintro rfl
      rw [FieldPath.parse?_nil] at hpath
      contradiction
    rcases exists_words_iff.mpr ⟨hne, rest, hword, hremainder⟩ with ⟨blanks, gap, hwords⟩
    exact ⟨token, description, blanks, gap, hwords, hpath, rfl, rfl⟩
  · rintro ⟨token, description, blanks, gap, hwords, hpath, htype, hdescription⟩
    rcases exists_words_iff.mp ⟨blanks, gap, hwords⟩ with ⟨_, rest, hword, hremainder⟩
    refine ⟨(token, rest), hword, entry.path, hpath, description, hremainder, ?_⟩
    rw [← htype, ← hdescription]

/-- An entry is what the parts of the line give. -/
theorem parse?_eq_some_iff {line : Text} {entry : ParamEntry} :
    parse? line = some entry ↔
      ∃ type token description, ReadsAs line type token description ∧
        FieldPath.parse? token = some entry.path ∧
        entry.type = type.bind typeOf? ∧ entry.description = Text.trimEnd description := by
  rw [parse?, Option.bind_eq_some_iff]
  constructor
  · rintro ⟨text, hline, hentry⟩
    rw [ofText?_eq] at hentry
    rcases ofFields?_eq_some_iff.mp hentry with
      ⟨token, description, blanks, gap, hwords, hparts⟩
    exact ⟨_, token, description, ⟨text, _, blanks, gap, Text.after?_eq_some_iff.mp hline,
      typePart_eq_iff.mp rfl, hwords⟩, hparts⟩
  · rintro ⟨type, token, description, ⟨text, rest, blanks, gap, hline, htype, hwords⟩, hparts⟩
    refine ⟨text, Text.after?_eq_some_iff.mpr hline, ?_⟩
    rw [ofText?_eq, typePart_eq_iff.mpr htype]
    exact ofFields?_eq_some_iff.mpr ⟨token, description, blanks, gap, hwords, hparts⟩

/-- A line falls into its parts in one way at most. -/
theorem ReadsAs.unique {line token token' description description' : Text}
    {type type' : Option Text} (h : ReadsAs line type token description)
    (h' : ReadsAs line type' token' description') :
    type = type' ∧ token = token' ∧ description = description' := by
  rcases h with ⟨text, rest, blanks, gap, hline, htype, hwords⟩
  rcases h' with ⟨text', rest', blanks', gap', hline', htype', hwords'⟩
  rw [hline] at hline'
  rcases List.append_cancel_left hline' with rfl
  have hpart := typePart_eq_iff.mpr htype
  rw [typePart_eq_iff.mpr htype'] at hpart
  cases hpart
  rcases exists_words_iff.mp ⟨blanks, gap, hwords⟩ with ⟨_, after, hword, hremainder⟩
  rcases exists_words_iff.mp ⟨blanks', gap', hwords'⟩ with ⟨_, after', hword', hremainder'⟩
  rw [hword] at hword'
  cases hword'
  rw [hremainder] at hremainder'
  cases hremainder'
  exact ⟨rfl, rfl, rfl⟩

/-- A word that starts with a brace is no path. -/
theorem ofFields?_brace {text inner : Text} (h : Text.trimStart text = '\x7b' :: inner)
    (type : Option Text) : ofFields? type text = none := by
  have hblank : Text.isBlank '\x7b' = false := by decide
  unfold ofFields? Tag.word?
  split
  · rw [h, List.takeWhile_cons_of_pos (by simp [hblank])]
    simp [FieldPath.parse?_brace]
  · rfl

/-! ## Reading by the pattern -/

/-- The pattern of what follows the type part.  The path is group 2 and the
description group 3. -/
def fieldsPattern : Pattern :=
  .sequence [.plus Text.isBlank, .group 2 (.plus fun c => !Text.isBlank c),
    Tag.remainderPattern 3]

/-- The pattern of a parameter line.  The type is group 1. -/
def linePattern : Pattern :=
  .sequence [.literal "@param".toList, .maybe Tag.bracesPattern, fieldsPattern]

/-- The entry that the groups of a line give. -/
def ofGroups? (groups : Pattern.Groups) : Option ParamEntry := do
  let path ← (groups.lookup 2).bind FieldPath.parse?
  return { type := ((groups.lookup 1).bind Text.field?).map TypeExpr.parse
           path
           description := ((groups.lookup 3).map Text.trimEnd).getD [] }

/-- The group of a type part. -/
def typeGroups : Option Text → Pattern.Groups
  | some type => [(1, type)]
  | none => []

section Matching

open Pattern

/-- The groups of a word and what follows it.  There is no group of an empty word,
and none of the description when nothing follows the word. -/
def wordGroups? (groups : Groups) (parts : Text × Text) : Option Groups :=
  if parts.1 = [] then none
  else (Text.remainder? parts.2).map fun description =>
    if parts.2 = [] then (2, parts.1) :: groups else (3, description) :: (2, parts.1) :: groups

/-- After the type part, the pattern matches in one way. -/
theorem matchThen_fieldsPattern (groups : Groups) (text : Text) :
    fieldsPattern.matchThen groups text atEnd = (Tag.word? text).bind (wordGroups? groups) := by
  have hword : ∀ (groups : Groups) (text : Text),
      (group 2 (plus fun c => !Text.isBlank c)).matchThen groups text (fun groups text =>
          (Tag.remainderPattern 3).matchThen groups text atEnd) =
        wordGroups? groups (text.takeWhile fun c => !Text.isBlank c,
          text.dropWhile fun c => !Text.isBlank c) := by
    intro groups text
    rw [matchThen_group_plus_of_stop, Tag.matchThen_remainderPattern]
    · rfl
    · intro groups c rest hc
      have hblank : Text.isBlank c = false := by simpa using hc
      rw [Tag.matchThen_remainderPattern, Text.remainder?, hblank]
      rfl
  simp only [fieldsPattern, matchThen_sequence_cons, matchThen_sequence_nil]
  rw [matchThen_plus_of_stop]
  · rw [hword, Tag.word?]
    cases text with
    | nil => rfl
    | cons c rest =>
        cases hc : Text.isBlank c with
        | true => simp [Tag.startsBlank, Text.trimStart, hc]
        | false => simp [Tag.startsBlank, hc]
  · intro groups c rest hc
    rw [hword, wordGroups?, if_pos (by simp [hc])]

/-- The groups of a line give the entry of their texts. -/
theorem ofGroups?_of_lookup {groups : Groups} {type : Option Text} {token description : Text}
    (htype : groups.lookup 1 = type) (htoken : groups.lookup 2 = some token)
    (hdescription : ((groups.lookup 3).map Text.trimEnd).getD [] = Text.trimEnd description) :
    ofGroups? groups = (FieldPath.parse? token).bind fun path => some
      { type := (type.bind Text.field?).map TypeExpr.parse, path,
        description := Text.trimEnd description } := by
  rw [ofGroups?, htype, htoken, hdescription, Option.bind_some]
  rfl

/-- The groups of a word give the entry of the word and its description. -/
theorem bind_wordGroups? (type : Option Text) (token rest : Text) :
    (wordGroups? (typeGroups type) (token, rest)).bind ofGroups? =
      (FieldPath.parse? token).bind fun path =>
        (Text.remainder? rest).bind fun description => some
          { type := (type.bind Text.field?).map TypeExpr.parse, path,
            description := Text.trimEnd description } := by
  have htype : (typeGroups type).lookup 1 = type ∧ (typeGroups type).lookup 3 = none := by
    cases type with
    | none => exact ⟨rfl, rfl⟩
    | some type => exact ⟨rfl, rfl⟩
  unfold wordGroups?
  split
  · rename_i hnil
    have htoken : token = [] := hnil
    rw [htoken, FieldPath.parse?_nil]
    rfl
  · cases hremainder : Text.remainder? rest with
    | none => simp
    | some description =>
        simp only [Option.map_some, Option.bind_some]
        split
        · rename_i hrest
          have hdescription : description = [] := by
            have hrest : rest = [] := hrest
            rw [hrest] at hremainder
            cases hremainder
            rfl
          refine ofGroups?_of_lookup htype.1 rfl ?_
          rw [hdescription]
          exact congrArg (fun found => (Option.map Text.trimEnd found).getD []) htype.2
        · exact ofGroups?_of_lookup htype.1 rfl rfl

/-- The groups of the text after the type give the entry of its words. -/
theorem bind_ofGroups? (type : Option Text) (text : Text) :
    (fieldsPattern.matchThen (typeGroups type) text atEnd).bind ofGroups? =
      ofFields? type text := by
  rw [matchThen_fieldsPattern, ofFields?, Option.bind_eq_bind]
  cases Tag.word? text with
  | none => rfl
  | some parts =>
      rcases parts with ⟨token, rest⟩
      exact bind_wordGroups? type token rest

/-- An entry is what the groups of the pattern give. -/
theorem parse?_eq_groups (line : Text) :
    parse? line = (linePattern.groups? line).bind ofGroups? := by
  have hgroups : linePattern.groups? line =
      (Text.after? "@param".toList line).bind fun text =>
        ((Tag.braces? text).bind fun parts =>
          fieldsPattern.matchThen (typeGroups (some parts.1)) parts.2 atEnd).or
        (fieldsPattern.matchThen (typeGroups none) text atEnd) := by
    rw [groups?, linePattern, matchThen_sequence_cons, matchThen_literal]
    congr 1
    funext text
    rw [matchThen_sequence_cons, matchThen, Tag.matchThen_bracesPattern]
    rfl
  rw [hgroups, parse?, Option.bind_assoc]
  congr 1
  funext text
  have huntyped := bind_ofGroups? none text
  cases hbraces : Tag.braces? text with
  | none =>
      have hpart : typePart text = (none, text) := by rw [typePart, hbraces]
      rw [ofText?_eq, hpart]
      exact huntyped.symm
  | some parts =>
      rcases parts with ⟨type, rest⟩
      rw [ofText?_eq, Option.bind_some]
      cases hstart : Tag.startsBlank rest with
      | true =>
          -- Without the type part, the path would start with the brace.
          have hpart : typePart text = (some type, rest) := by
            simp only [typePart, hbraces, hstart, if_true]
          rw [ofFields?_brace (Tag.trimStart_of_braces? hbraces)] at huntyped
          rw [hpart, ← bind_ofGroups? (some type) rest]
          cases hmatch : fieldsPattern.matchThen (typeGroups (some type)) rest atEnd with
          | none => exact huntyped.symm
          | some groups => rfl
      | false =>
          have hnone : fieldsPattern.matchThen (typeGroups (some type)) rest atEnd = none := by
            rw [matchThen_fieldsPattern, Tag.word?, hstart]
            rfl
          have hpart : typePart text = (none, text) := by
            simp only [typePart, hbraces, hstart, Bool.false_eq_true, if_false]
          rw [hpart, hnone, Option.none_or]
          exact huntyped.symm

end Matching

/-! ## Parameter lines among the tags -/

/-- Braces that are no type part make the line malformed. -/
theorem parse?_of_brace {text : Text} (hopen : (Text.trimStart text).head? = some '\x7b')
    (hnone : ∀ type rest, ¬ TypePart text (some type) rest) :
    parse? ("@param".toList ++ text) = none := by
  rcases List.head?_eq_some_iff.mp hopen with ⟨inner, htrim⟩
  have hpart : typePart text = (none, text) := by
    cases htype : typePart text with
    | mk type rest =>
        cases typePart_eq_iff.mp htype with
        | given hblanks hclose hblank => exact absurd (.given hblanks hclose hblank) (hnone _ _)
        | absent => rfl
  rw [parse?, Text.after?_eq_some_iff.mpr rfl, Option.bind_some, ofText?_eq, hpart]
  exact ofFields?_brace htrim none

/-- What follows the tag of a parameter line starts with a blank or with a brace. -/
theorem TypePart.isLetter_head? {text rest token description blanks gap : Text}
    {type : Option Text} (htype : TypePart text type rest)
    (hwords : Words rest token description blanks gap) :
    ∀ c ∈ text.head?, Text.isLetter c = false := by
  cases htype with
  | given hblanks _ _ =>
      refine Text.isLetter_of_mem_head?_append hblanks ?_
      intro _ c hc
      cases hc
      decide
  | absent _ =>
      rw [hwords.text_eq]
      exact Text.isLetter_of_mem_head?_append hwords.blanks_blank
        fun hnil => absurd hnil hwords.blanks_ne_nil

/-- A line that falls into the parts of an entry has the label of one. -/
theorem ReadsAs.label?_eq {line token description : Text} {type : Option Text}
    (h : ReadsAs line type token description) : Tag.label? line = some "param".toList := by
  rcases h with ⟨text, rest, blanks, gap, rfl, htype, hwords⟩
  exact Tag.label?_append (by decide) (by decide) (htype.isLetter_head? hwords)

end ParamEntry

/-- The parameter tags are the lines that are read as parameter entries. -/
theorem Tag.parse?_eq_param_iff {line : Text} {entry : ParamEntry} :
    Tag.parse? line = some (.param entry) ↔ ParamEntry.parse? line = some entry := by
  constructor
  · intro h
    cases Tag.reads_of_parse? h with
    | param _ hparse => exact hparse
  · intro h
    rcases ParamEntry.parse?_eq_some_iff.mp h with ⟨type, token, description, hreads, _⟩
    rw [Tag.parse?_of_param hreads.label?_eq, h]
    rfl

/-- The grammar of parameter lines.  The first match of the pattern gives the same
entries as the parts into which a line falls, and it falls into them in one way.
Braces that are no type part make a line malformed.  The parameter tags are the
lines with this grammar. -/
theorem ParamEntry.line_grammar :
    (∀ line : Text, parse? line = (linePattern.groups? line).bind ofGroups?) ∧
    (∀ (line : Text) (entry : ParamEntry), parse? line = some entry ↔
      ∃ type token description, ReadsAs line type token description ∧
        FieldPath.parse? token = some entry.path ∧
        entry.type = type.bind typeOf? ∧ entry.description = Text.trimEnd description) ∧
    (∀ (line token token' description description' : Text) (type type' : Option Text),
      ReadsAs line type token description → ReadsAs line type' token' description' →
        type = type' ∧ token = token' ∧ description = description') ∧
    (∀ text : Text, (Text.trimStart text).head? = some '\x7b' →
      (∀ type rest, ¬ TypePart text (some type) rest) →
        parse? ("@param".toList ++ text) = none) ∧
    ∀ (line : Text) (entry : ParamEntry),
      Tag.parse? line = some (.param entry) ↔ parse? line = some entry := by
  refine ⟨parse?_eq_groups, fun line entry => parse?_eq_some_iff, ?_, ?_,
    fun line entry => Tag.parse?_eq_param_iff⟩
  · intro line token token' description description' type type' h h'
    exact h.unique h'
  · intro text hopen hnone
    exact parse?_of_brace hopen hnone

/-- The text after the tag of a line whose type, path and description stand between
blanks of all kinds. -/
def ParamEntry.spreadText : Text :=
  "\x7b a\x7bb \x7d\n rows[].id \n the id ".toList

theorem ParamEntry.line_grammar_spreadText :
    Tag.parse? ("@param".toList ++ spreadText) = some (.param
      { type := some (TypeExpr.parse " a\x7bb ".toList)
        path := FieldPath.cellPath
        description := "the id".toList }) ∧
    parse? ("@param".toList ++ " \x7bstring\x7did the id".toList) = none := by
  obtain ⟨_, hparts, _, hbrace, htag⟩ := line_grammar
  constructor
  · have htype : TypePart spreadText (some " a\x7bb ".toList) "\n rows[].id \n the id ".toList :=
      typePart_eq_iff.mp (by decide)
    have hwords : ∃ blanks gap, Words "\n rows[].id \n the id ".toList "rows[].id".toList
        "the id ".toList blanks gap :=
      exists_words_iff.mpr ⟨by decide, " \n the id ".toList, by decide, by decide⟩
    rcases hwords with ⟨blanks, gap, hwords⟩
    rw [htag, hparts]
    refine ⟨_, _, _, ⟨_, _, _, _, rfl, htype, hwords⟩, by decide, ?_, by decide⟩
    rw [Option.bind_some, typeOf?, if_neg (by decide)]
  · refine hbrace _ (by decide) ?_
    intro type rest htype
    have hnone : typePart " \x7bstring\x7did the id".toList =
        (none, " \x7bstring\x7did the id".toList) := by decide
    rw [typePart_eq_iff.mpr htype] at hnone
    cases hnone

end DocComment
