import DocComment.Comment.Heading
import DocComment.Proofs.Comment.Layout
import DocComment.Proofs.Text.Field

/-!
# Written prose

The prose lines that state a name and a description: the name and a colon before
the first paragraph, and an empty line before every further one.

Main results:

- Theorem `Comment.describe_spread`: the paragraphs of a description are read
  back.
- Definition `Comment.Heading.Writable`: the names and descriptions that prose
  can state.
- Theorem `Comment.Heading.Writable.ofProse_prose`: the prose of a heading is
  read as the heading.
-/

namespace DocComment
namespace Comment

/-! ## Paragraphs -/

/-- A paragraph that can be written: a text on one line that is not taken for a
tag. -/
structure Paragraph (text : Text) : Prop where
  ne_nil : text ≠ []
  inline : text.Inline
  not_tag : startsTag text = false

theorem Paragraph.filled {text : Text} (h : Paragraph text) : text.Filled :=
  ⟨h.ne_nil, h.inline⟩

/-- The lines of further paragraphs, each after an empty line. -/
def spread (paras : List Text) : List Text :=
  paras.flatMap fun para => [[], para]

/-- The lines of spread paragraphs are the paragraphs, and empty lines. -/
theorem mem_spread {line : Text} {paras : List Text} (h : line ∈ spread paras) :
    line = [] ∨ line ∈ paras := by
  simp only [spread, List.mem_flatMap, List.mem_cons, List.not_mem_nil, or_false] at h
  rcases h with ⟨para, hmem, rfl | rfl⟩
  · exact .inl rfl
  · exact .inr hmem

/-- The lines end with the last paragraph. -/
theorem getLast?_cons_spread (first : Text) (rest : List Text) :
    (first :: spread rest).getLast? = (first :: rest).getLast? := by
  induction rest generalizing first with
  | nil => rfl
  | cons next rest ih =>
      have hspread : spread (next :: rest) = [] :: next :: spread rest := rfl
      rw [hspread, List.getLast?_cons_cons, List.getLast?_cons_cons, List.getLast?_cons_cons]
      exact ih next

/-- The lines of a description are its paragraphs and the empty lines between
them. -/
theorem splitOn_intercalate_spread {first : Text} {rest : List Text}
    (h : ∀ para ∈ first :: rest, para.Filled) :
    (['\n', '\n'].intercalate (first :: rest)).splitOn '\n' = first :: spread rest := by
  have hjoin : ['\n', '\n'].intercalate (first :: rest) =
      ['\n'].intercalate (first :: spread rest) := by
    rw [Text.intercalate_cons, Text.intercalate_cons, spread, List.flatMap_assoc]
    simp
  have hfeeds : ∀ line ∈ first :: spread rest, '\n' ∉ line := by
    intro line hline
    rcases List.mem_cons.mp hline with rfl | hmem
    · exact (h line List.mem_cons_self).inline.one_line
    · rcases mem_spread hmem with rfl | hmem
      · simp
      · exact (h line (List.mem_cons_of_mem _ hmem)).inline.one_line
  rw [hjoin, List.splitOn_intercalate '\n' hfeeds (by simp)]

/-- The runs of lines between blank lines. -/
def runsOf (lines : List Text) : List (List Text) :=
  (lines.splitOnP Text.allBlank).filter fun run => !run.isEmpty

/-- A blank line ends a run. -/
theorem runsOf_append_cons {line : Text} (h : Text.allBlank line = true)
    (before after : List Text) :
    runsOf (before ++ line :: after) = runsOf before ++ runsOf after := by
  rw [runsOf, List.splitOnP_append_cons before after h, List.filter_append]
  rfl

/-- The paragraph of a run: its trimmed lines joined by single spaces. -/
def paragraphOf (run : List Text) : Text :=
  [' '].intercalate (run.map Text.trim)

/-- Every run between blank lines gives a paragraph. -/
theorem paragraphs_eq_map (lines : List Text) :
    paragraphs lines = (runsOf lines).map paragraphOf :=
  rfl

/-- A blank line ends a paragraph. -/
theorem paragraphs_append_cons {line : Text} (h : Text.allBlank line = true)
    (before after : List Text) :
    paragraphs (before ++ line :: after) = paragraphs before ++ paragraphs after := by
  rw [paragraphs_eq_map, runsOf_append_cons h, List.map_append, ← paragraphs_eq_map,
    ← paragraphs_eq_map]

/-- A filled line is a paragraph of its own. -/
theorem paragraphs_singleton {text : Text} (h : text.Filled) : paragraphs [text] = [text] := by
  have hsplit : [text].splitOnP Text.allBlank = [[text]] :=
    List.splitOnP_eq_singleton (by simpa using h.allBlank_eq_false)
  rw [paragraphs, hsplit]
  simp [h.inline.trimmed.trim_eq]

/-- Paragraphs with empty lines between them are read back. -/
theorem paragraphs_spread {first : Text} {rest : List Text}
    (h : ∀ para ∈ first :: rest, para.Filled) :
    paragraphs (first :: spread rest) = first :: rest := by
  induction rest generalizing first with
  | nil => exact paragraphs_singleton (h first List.mem_cons_self)
  | cons next rest ih =>
      have hspread : first :: spread (next :: rest) = [first] ++ [] :: next :: spread rest := rfl
      rw [hspread, paragraphs_append_cons rfl, paragraphs_singleton (h first List.mem_cons_self),
        ih fun para hmem => h para (List.mem_cons_of_mem _ hmem), List.singleton_append]

/-- The paragraphs of a description are read back. -/
theorem describe_spread {first : Text} {rest : List Text}
    (h : ∀ para ∈ first :: rest, para.Filled) :
    describe (first :: spread rest) = ['\n', '\n'].intercalate (first :: rest) := by
  rw [describe, paragraphs_spread h]

/-! ## Names -/

/-- The line opens with a record name and a colon, with which the line ends or
after which a blank stands. -/
def OpensNamed (line : Text) : Prop :=
  ∃ name rest, Text.isRecordName name = true ∧ line = name ++ ':' :: rest ∧
    ∀ c ∈ rest.head?, Text.isBlank c = true

/-- A line that opens with no name and colon is not a named one. -/
theorem namedLine?_eq_none {line : Text} (h : ¬ OpensNamed line) : namedLine? line = none := by
  cases hnamed : namedLine? line with
  | none => rfl
  | some found =>
      refine absurd ?_ h
      simp only [namedLine?] at hnamed
      split at hnamed
      · rename_i rest hdrop
        split at hnamed
        · rename_i hname
          refine ⟨line.takeWhile Text.isNamePart, rest, hname, ?_, ?_⟩
          · rw [← hdrop, List.takeWhile_append_dropWhile]
          · intro c hc
            cases rest with
            | nil => simp at hc
            | cons d rest =>
                cases hc
                simp only [Text.remainder?] at hnamed
                split at hnamed
                · assumption
                · simp at hnamed
        · contradiction
      · contradiction

/-- Every character of a record name may continue one. -/
theorem isNamePart_of_mem {name : Text} (hname : Text.isRecordName name = true) {c : Char}
    (hc : c ∈ name) : Text.isNamePart c = true := by
  cases name with
  | nil => simp at hc
  | cons d rest =>
      simp only [Text.isRecordName, Bool.and_eq_true, List.all_eq_true] at hname
      rcases List.mem_cons.mp hc with rfl | hc
      · simp [Text.isNamePart, Text.isIdentPart, hname.1]
      · exact hname.2 c hc

/-- No character of a record name is blank. -/
theorem isBlank_of_isNamePart {c : Char} (h : Text.isNamePart c = true) :
    Text.isBlank c = false := by
  simp only [Text.isNamePart, Bool.or_eq_true, beq_iff_eq] at h
  rcases h with hpart | rfl
  · exact Text.isBlank_of_isIdentPart hpart
  · decide

/-- The first line of prose: the first paragraph, with the name before it. -/
def opening (name first : Text) : Text :=
  if name = [] then first else name ++ ':' :: Text.spaced first

/-- A line that opens with a name has the colon right after the name. -/
theorem opening_of_isRecordName {name : Text} (hname : Text.isRecordName name = true)
    (first : Text) : opening name first = name ++ ':' :: Text.spaced first := by
  refine if_neg ?_
  rintro rfl
  contradiction

/-- A name, a colon and what follows them on the line. -/
theorem namedLine?_append {name after text : Text} (hname : Text.isRecordName name = true)
    (hafter : Text.remainder? after = some text) :
    namedLine? (name ++ ':' :: after) = some (name, text) := by
  have hparts : ∀ c ∈ name, Text.isNamePart c = true := fun c => isNamePart_of_mem hname
  have hcolon : ∀ c ∈ (':' :: after).head?, Text.isNamePart c = false := by
    intro c hc
    cases hc
    decide
  rw [namedLine?]
  simp only [Text.takeWhile_append_eq hparts hcolon, Text.dropWhile_append_eq hparts hcolon, hname,
    if_true, hafter, Option.map_some]

/-- The name in the first line is read back, and so is the paragraph after it. -/
theorem namedLine?_opening {name first : Text} (hname : Text.isRecordName name = true)
    (hfirst : first.Inline) : namedLine? (opening name first) = some (name, first) := by
  rw [opening_of_isRecordName hname]
  exact namedLine?_append hname hfirst.remainder?_spaced

/-- The first line with a name can be written. -/
theorem paragraph_opening {name first : Text} (hname : Text.isRecordName name = true)
    (hfirst : first.Inline) : Paragraph (opening name first) := by
  have hnamed : (name ++ [':']).Inline := by
    refine Text.inline_of_forall_not_blank ?_
    intro c hc
    rcases List.mem_append.mp hc with hmem | hmem
    · exact isBlank_of_isNamePart (isNamePart_of_mem hname hmem)
    · rw [List.mem_singleton.mp hmem]
      decide
  have hinline : (name ++ ':' :: Text.spaced first).Inline := by
    simpa using hnamed.append_spaced (by simp) hfirst
  rw [opening_of_isRecordName hname]
  refine ⟨by simp, hinline, ?_⟩
  cases name with
  | nil => contradiction
  | cons c rest =>
      simp only [Text.isRecordName, Bool.and_eq_true] at hname
      have hat : c ≠ '@' := by
        rintro rfl
        exact absurd hname.1 (by decide)
      simpa [startsTag] using hat

/-! ## Prose lines -/

/-- Lines that can be written as prose: each on one line and not taken for a tag,
with no empty line at the edges. -/
structure IsProse (lines : List Text) : Prop where
  inline : ∀ line ∈ lines, line.Inline
  not_tag : ∀ line ∈ lines, startsTag line = false
  edged : Edged lines

theorem isProse_nil : IsProse [] :=
  ⟨by simp, by simp, by simp, by simp⟩

/-- Paragraphs with empty lines between them can be written as prose. -/
theorem isProse_cons_spread {first : Text} {rest : List Text}
    (h : ∀ para ∈ first :: rest, Paragraph para) : IsProse (first :: spread rest) := by
  have hline : ∀ line ∈ first :: spread rest, line = [] ∨ line ∈ first :: rest := by
    intro line hmem
    rcases List.mem_cons.mp hmem with rfl | hmem
    · exact .inr List.mem_cons_self
    · exact (mem_spread hmem).imp_right (List.mem_cons_of_mem _)
  refine ⟨?_, ?_, ?_, ?_⟩
  · intro line hmem
    rcases hline line hmem with rfl | hpara
    · exact Text.inline_nil
    · exact (h line hpara).inline
  · intro line hmem
    rcases hline line hmem with rfl | hpara
    · rfl
    · exact (h line hpara).not_tag
  · intro line hmem
    cases hmem
    exact (h first List.mem_cons_self).ne_nil
  · intro line hmem
    rw [getLast?_cons_spread] at hmem
    exact (h line (List.mem_of_mem_getLast? hmem)).ne_nil

/-! ## Headings -/

namespace Heading

/-- The name and the description can be stated in prose.  A description without a
name must not look like one with a name. -/
structure Writable (heading : Heading) : Prop where
  name : heading.name = [] ∨ Text.isRecordName heading.name = true
  description : ∃ paras : List Text, heading.description = ['\n', '\n'].intercalate paras ∧
    (∀ para ∈ paras, Paragraph para) ∧
    (heading.name = [] → ∀ first ∈ paras.head?, ¬ OpensNamed first)

/-- The prose that states the name and the description. -/
def prose (heading : Heading) : List Text :=
  if heading.name = [] ∧ heading.description = [] then []
  else
    match heading.description.splitOn '\n' with
    | [] => []
    | first :: rest => opening heading.name first :: rest

/-- The prose of a heading with at least one paragraph. -/
theorem prose_of_cons {heading : Heading} {first : Text} {rest : List Text}
    (hdescription : heading.description = ['\n', '\n'].intercalate (first :: rest))
    (hparas : ∀ para ∈ first :: rest, Paragraph para) :
    heading.prose = opening heading.name first :: spread rest := by
  have hsplit := splitOn_intercalate_spread fun para hmem => (hparas para hmem).filled
  have hne : heading.description ≠ [] := by
    intro hnil
    rw [← hdescription, hnil, List.splitOn_nil] at hsplit
    exact (hparas first List.mem_cons_self).ne_nil (List.cons.inj hsplit).1.symm
  rw [prose, if_neg fun hboth => hne hboth.2, hdescription, hsplit]

/-- The prose of a name alone. -/
theorem prose_of_nil {heading : Heading} (hdescription : heading.description = [])
    (hname : heading.name ≠ []) : heading.prose = [opening heading.name []] := by
  rw [prose, if_neg fun hboth => hname hboth.1, hdescription, List.splitOn_nil]

/-- The prose of a heading is read as the heading. -/
theorem Writable.ofProse_prose {heading : Heading} (h : heading.Writable) :
    ofProse heading.prose none = heading := by
  rcases heading with ⟨name, description⟩
  rcases h.description with ⟨paras, hdescription, hparas, hfirst⟩
  simp only at hdescription hfirst
  cases paras with
  | nil =>
      rw [List.intercalate_nil] at hdescription
      rcases h.name with hname | hname
      · simp only at hname
        rw [hname, hdescription]
        rfl
      · simp only at hname
        have hne : name ≠ [] := by
          rintro rfl
          contradiction
        rw [prose_of_nil hdescription hne, ofProse, namedLine?_opening hname (by decide),
          hdescription]
        rfl
  | cons first rest =>
      have hpara := hparas first List.mem_cons_self
      have hfilled : ∀ para ∈ first :: rest, para.Filled := fun para hmem =>
        (hparas para hmem).filled
      rw [prose_of_cons hdescription hparas, ofProse]
      rcases h.name with hname | hname
      · simp only at hname
        subst hname
        have hopening : opening [] first = first := if_pos rfl
        simp only [hopening, namedLine?_eq_none (hfirst rfl first rfl), describe_spread hfilled,
          hdescription, Option.getD_none]
      · simp only [namedLine?_opening hname hpara.inline, describe_spread hfilled, hdescription]

/-- The prose of a heading can be written. -/
theorem Writable.isProse_prose {heading : Heading} (h : heading.Writable) :
    IsProse heading.prose := by
  rcases h.description with ⟨paras, hdescription, hparas, _⟩
  cases paras with
  | nil =>
      rw [List.intercalate_nil] at hdescription
      by_cases hnil : heading.name = []
      · have hprose : heading.prose = [] := if_pos ⟨hnil, hdescription⟩
        rw [hprose]
        exact isProse_nil
      · rw [prose_of_nil hdescription hnil]
        refine @isProse_cons_spread (opening heading.name []) [] ?_
        intro para hmem
        rw [List.mem_singleton.mp hmem]
        exact paragraph_opening (h.name.resolve_left hnil) (by decide)
  | cons first rest =>
      rw [prose_of_cons hdescription hparas]
      refine isProse_cons_spread ?_
      intro para hmem
      rcases List.mem_cons.mp hmem with rfl | hmem
      · have hfirst := hparas first List.mem_cons_self
        rcases h.name with hname | hname
        · rw [hname]
          exact hfirst
        · exact paragraph_opening hname hfirst.inline
      · exact hparas para (List.mem_cons_of_mem _ hmem)

end Heading

end Comment
end DocComment
