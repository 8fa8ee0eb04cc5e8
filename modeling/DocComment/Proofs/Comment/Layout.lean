import DocComment.Comment.Lines
import DocComment.Comment.Sections
import DocComment.Proofs.Comment.Delimiters

/-!
# The layout of written comments

A comment is written with its delimiters on lines of their own and every line
between them behind a star.  Reading takes all of this away again.

Main results:

- Theorem `Comment.Encloses.lines_eq`: the lines of a comment whose delimiters stand
  on lines of their own.
- Definition `Comment.enclose`: the comment with given lines.
- Theorem `Comment.lines_enclose`: the lines of a comment are read back.
- Theorem `Comment.ofLines_append`: prose followed by tag lines falls into its
  sections.
-/

namespace DocComment

/-- Joining texts is writing the separator before each text but the first. -/
theorem Text.intercalate_cons (separator first : Text) (rest : List Text) :
    separator.intercalate (first :: rest) =
      first ++ rest.flatMap fun text => separator ++ text := by
  induction rest generalizing first with
  | nil => simp
  | cons next rest ih =>
      rw [List.intercalate_cons_cons, ih next, List.flatMap_cons]
      simp

namespace Comment

/-! ## Decorated lines -/

/-- A line with the star that decorates it. -/
def decorate (line : Text) : Text :=
  ' ' :: '*' :: Text.spaced line

/-- The decoration is taken away again. -/
theorem undecorate_decorate {line : Text} (h : line.Inline) :
    undecorate (decorate line) = line := by
  have hstar : Text.Inline ['*'] := by decide
  have htrim : Text.trim (decorate line) = '*' :: Text.spaced line := by
    rw [decorate, Text.trim, Text.trimStart_space]
    exact (hstar.append_spaced (by simp) h).trimmed
  simp only [undecorate, htrim]
  exact h.trimmed.trim_spaced

/-- A decorated line stays on one line. -/
theorem notMem_decorate {line : Text} (h : line.Inline) : '\n' ∉ decorate line := by
  unfold decorate Text.spaced
  split
  · decide
  · simp [h.one_line]

/-! ## Lines at the edges -/

/-- Neither the first nor the last line is empty. -/
structure Edged (lines : List Text) : Prop where
  first : ∀ line ∈ lines.head?, line ≠ []
  last : ∀ line ∈ lines.getLast?, line ≠ []

/-- Lines of which none is empty have no empty line at their ends. -/
theorem edged_of_forall_ne_nil {lines : List Text} (h : ∀ line ∈ lines, line ≠ []) :
    Edged lines where
  first := fun line hline => h line (List.mem_of_mem_head? hline)
  last := fun line hline => h line (List.mem_of_mem_getLast? hline)

/-- Lines without empty ends can be put together. -/
theorem Edged.append {lines lines' : List Text} (h : Edged lines) (h' : Edged lines') :
    Edged (lines ++ lines') := by
  constructor
  · intro line hline
    rw [List.head?_append, Option.mem_def, Option.or_eq_some_iff] at hline
    rcases hline with hline | ⟨_, hline⟩
    · exact h.first line hline
    · exact h'.first line hline
  · intro line hline
    rw [List.getLast?_append, Option.mem_def, Option.or_eq_some_iff] at hline
    rcases hline with hline | ⟨_, hline⟩
    · exact h'.last line hline
    · exact h.last line hline

/-- Nothing is dropped in front of a line that is not empty. -/
theorem dropWhile_isEmpty_eq {lines : List Text} (h : ∀ line ∈ lines.head?, line ≠ []) :
    lines.dropWhile List.isEmpty = lines := by
  cases lines with
  | nil => rfl
  | cons line lines =>
      have hline : line.isEmpty = false := by simpa using h line (by simp)
      rw [List.dropWhile_cons, hline]
      rfl

/-- Only the empty lines around the lines are dropped. -/
theorem dropEdges_surrounded {lines : List Text} (h : Edged lines) :
    dropEdges ([] :: (lines ++ [[]])) = lines := by
  have hstart : ([] :: (lines ++ [[]])).dropWhile List.isEmpty =
      if lines = [] then [] else lines ++ [[]] := by
    cases lines with
    | nil => rfl
    | cons line lines =>
        rw [List.dropWhile_cons, List.isEmpty_nil, if_pos rfl, if_neg (by simp)]
        exact dropWhile_isEmpty_eq fun line' hline' => h.first line' (by simpa using hline')
  have hend : ∀ line ∈ lines.reverse.head?, line ≠ [] := by
    rw [List.head?_reverse]
    exact h.last
  rw [dropEdges, hstart]
  split
  · rename_i hnil
    rw [hnil]
    rfl
  · rw [List.reverse_append, List.reverse_singleton, List.singleton_append, List.dropWhile_cons,
      List.isEmpty_nil, if_pos rfl, dropWhile_isEmpty_eq hend, List.reverse_reverse]

/-! ## Whole comments -/

/-- The text between the delimiters of a comment: the rest of the opening line, the
rows, and the start of the closing line. -/
def between (rows : List Text) (closing : Text) : Text :=
  ['\n'].intercalate ([] :: (rows ++ [closing]))

/-- Neither the opening nor the closing line has a star between the delimiters. -/
theorem bare_between (rows : List Text) {closing : Text} (h : Text.allBlank closing = true) :
    Bare (between rows closing) := by
  have hbetween : between rows closing =
      (rows.flatMap fun row => '\n' :: row) ++ '\n' :: closing := by
    rw [between, Text.intercalate_cons, List.flatMap_append]
    simp
  rw [hbetween]
  constructor
  · cases rows with
    | nil => simp
    | cons row rows => simp
  · intro hlast
    have hstar : Text.isBlank '*' = true := by
      have hblank : ('\n' :: closing).all Text.isBlank = true := by
        rw [List.all_cons, Text.isBlank_newline, Bool.true_and]
        exact h
      refine List.all_eq_true.mp hblank '*' (List.mem_of_mem_getLast? ?_)
      rwa [List.getLast?_append, List.getLast?_cons, Option.some_or, ← List.getLast?_cons] at hlast
    contradiction

/-- The lines of a comment whose delimiters stand on lines of their own are its rows
without their decoration. -/
theorem Encloses.lines_eq {comment closing : Text} {rows : List Text}
    (h : Encloses comment (between rows closing)) (hrows : ∀ row ∈ rows, '\n' ∉ row)
    (hclosing : Text.allBlank closing = true) (hline : '\n' ∉ closing)
    (hedges : Edged (rows.map undecorate)) : Comment.lines comment = rows.map undecorate := by
  have hbody : body comment = between rows closing := by
    have hnil : Text.allBlank [] = true := rfl
    simpa using h.body_eq hnil hnil
  have hfeeds : ∀ row ∈ [] :: (rows ++ [closing]), '\n' ∉ row := by
    intro row hrow
    simp only [List.mem_cons, List.mem_append, List.not_mem_nil, or_false] at hrow
    rcases hrow with rfl | hrow | rfl
    · simp
    · exact hrows row hrow
    · exact hline
  have hblank : undecorate closing = [] := by
    have htrim : Text.trim closing = [] := Text.trim_append_of_allBlank [] hclosing
    simp only [undecorate, htrim]
  rw [Comment.lines, hbody, between, List.splitOn_intercalate '\n' hfeeds (by simp), List.map_cons,
    List.map_append, List.map_singleton, hblank]
  exact dropEdges_surrounded hedges

/-- The text between the delimiters: each line after a line feed, and the start
of the line with the closer. -/
def inside (lines : List Text) : Text :=
  (lines.flatMap fun line => '\n' :: decorate line) ++ ['\n', ' ']

/-- The comment with the given lines. -/
def enclose (lines : List Text) : Text :=
  "/**".toList ++ (inside lines ++ "*/".toList)

theorem inside_eq (lines : List Text) : inside lines = between (lines.map decorate) [' '] := by
  rw [between, Text.intercalate_cons]
  simp [inside, List.flatMap_map]

/-- The lines of a comment are read back. -/
theorem lines_enclose {lines : List Text} (h : ∀ line ∈ lines, line.Inline)
    (hedges : Edged lines) : Comment.lines (enclose lines) = lines := by
  have hclean : (lines.map decorate).map undecorate = lines := by
    rw [List.map_map]
    refine (List.map_congr_left ?_).trans (List.map_id lines)
    intro line hline
    exact undecorate_decorate (h line hline)
  have hencloses : Encloses (enclose lines) (between (lines.map decorate) [' ']) := by
    refine ⟨bare_between _ (by decide), 1, 0, ?_⟩
    rw [← inside_eq]
    simp [enclose, stars, List.replicate_succ]
  have hfeeds : ∀ row ∈ lines.map decorate, '\n' ∉ row := by
    intro row hrow
    obtain ⟨line, hline, rfl⟩ := List.mem_map.mp hrow
    exact notMem_decorate (h line hline)
  rw [hencloses.lines_eq hfeeds (by decide) (by decide) (by rwa [hclean]), hclean]

/-! ## Sections -/

/-- Lines that all start a tag are the tags. -/
theorem foldLines_of_startsTag {tags : List Text} (h : ∀ tag ∈ tags, startsTag tag = true) :
    foldLines tags = ([], tags) := by
  induction tags with
  | nil => rfl
  | cons tag tags ih =>
      have hrest := ih fun tag' hmem => h tag' (List.mem_cons_of_mem _ hmem)
      simp [foldLines, hrest, h tag List.mem_cons_self]

/-- Prose followed by tag lines falls into its sections. -/
theorem ofLines_append {prose tags : List Text} (hprose : ∀ line ∈ prose, startsTag line = false)
    (htags : ∀ tag ∈ tags, startsTag tag = true) :
    Sections.ofLines (prose ++ tags) = ⟨prose, tags⟩ := by
  have hwhile : ∀ line ∈ prose, (!startsTag line) = true := by
    intro line hline
    rw [hprose line hline]
    rfl
  have hstop : ∀ tag ∈ tags.head?, (!startsTag tag) = false := by
    intro tag htag
    rw [htags tag (List.mem_of_mem_head? htag)]
    rfl
  rw [Sections.ofLines, Text.takeWhile_append_eq hwhile hstop,
    Text.dropWhile_append_eq hwhile hstop, foldLines_of_startsTag htags]

end Comment
end DocComment
