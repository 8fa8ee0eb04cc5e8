import DocComment.Proofs.Param.Order
import DocComment.Proofs.Tag.Continuation

/-!
# Malformed lines in a comment

Nothing is taken from a malformed tag.  A tag is a line with its continuation lines,
though, and it is judged as a whole.  So a line that is malformed on its own can be
taken out of its comment with the lines after it, up to the next tag, unless it ends
too early.  The lines after it may then be what it lacks, and the record holds them.

Main results:

- Theorem `Record.idle_of_ofSections_eq`: a single tag without a trace in the record
  says nothing.
- Theorem `Record.ofLines_malformed`: which malformed lines can be taken out together
  with the lines that continue them.
-/

namespace DocComment

/-! ## Tags that say something -/

/-- Nothing is taken from a malformed tag. -/
theorem Tag.idle_of_parse?_eq_none {tag : Text} (h : parse? tag = none) (earlier : List Text) :
    Idle earlier tag where
  name := .inl (by rw [nameOf?, h])
  throws := .inl (by rw [throwsOf?, h])
  entry := by rw [entryOf?, h]

/-- The name in a name tag is not empty. -/
theorem Tag.ne_nil_of_nameOf? {tag name : Text} (h : nameOf? tag = some name) : name ≠ [] := by
  have hparse := (of_nameOf? h).2
  simp only [parseName?, Option.bind_eq_bind, Option.bind_eq_some_iff] at hparse
  obtain ⟨text, _, rest, hrest, hname⟩ := hparse
  split at hname
  · contradiction
  · rename_i hne
    cases hname
    obtain ⟨_, _, hstart⟩ := Text.remainder?_eq_some hrest
    obtain ⟨c, more, rfl⟩ := List.exists_cons_of_ne_nil hne
    have hblank : Text.allBlank (c :: more) = false := by
      simp [Text.allBlank, Text.isBlank_of_trimStart_eq_cons hstart]
    have htrim := Text.trim_ne_nil hblank
    rwa [Text.trim, hstart] at htrim

namespace Record

/-- A single tag without a trace in the record says nothing. -/
theorem idle_of_ofSections_eq {tag : Text}
    (h : ofSections ⟨[], [tag]⟩ = ofSections ⟨[], []⟩) : Tag.Idle [] tag where
  name := by
    left
    have hname := congrArg Record.name h
    rw [ofSections_eq_kinds, ofSections_eq_kinds] at hname
    cases hread : Tag.nameOf? tag with
    | none => rfl
    | some name =>
        have hnil : name = [] := by simpa [hread, Comment.Heading.ofProse] using hname
        exact absurd hnil (Tag.ne_nil_of_nameOf? hread)
  throws := by
    left
    have hthrows := congrArg Record.throws h
    rw [ofSections_eq_kinds, ofSections_eq_kinds] at hthrows
    simpa using hthrows
  entry := by
    have hparams := congrArg Record.params h
    rw [params_ofSections, params_ofSections] at hparams
    cases hread : Tag.entryOf? tag with
    | none => rfl
    | some entry =>
        obtain ⟨token, hpath⟩ := Tag.readable_of_entryOf? hread
        obtain ⟨step, rest, hsteps⟩ := List.exists_cons_of_ne_nil (FieldPath.ne_nil_of_parse? hpath)
        have hne := Branch.insertAt_cons_ne_nil entry step rest []
        simp [hread, Branch.forest, Branch.ofEntries, Branch.insert, hsteps, hne] at hparams

/-! ## Taking out malformed lines -/

/-- A malformed line can be taken out of a comment together with the lines that continue
it, if it does not end too early, or if it is still malformed with them.  Every line
that ends too early can be completed by one more line, and then the record of the two
is not empty. -/
theorem ofLines_malformed {line : Text} (hline : line.Inline)
    (hstart : Comment.startsTag line = true) (hnone : Tag.parse? line = none) :
    (∀ before continuation after : List Text,
      (∀ more ∈ continuation, Comment.startsTag more = false) → Comment.OpensTag after →
      (Tag.Unfinished line → Tag.parse? (line ++ (Comment.foldLines continuation).1) = none) →
      ofLines (before ++ line :: (continuation ++ after)) = ofLines (before ++ after)) ∧
    (Tag.Unfinished line → ∃ more : Text, more.Inline ∧ more ≠ [] ∧
      Comment.startsTag more = false ∧ ofLines [line, more] ≠ ofLines []) := by
  constructor
  · intro before continuation after hcontinuation hafter hfolded
    have hblank : ∀ c ∈ (Comment.foldLines continuation).1.head?, Text.isBlank c = true := by
      intro c hc
      rw [Comment.eq_space_of_mem_head?_foldLines hc]
      exact Text.isBlank_space
    -- What counts is the tag with its continuation, which is malformed in both cases.
    have htag : Tag.parse? (line ++ (Comment.foldLines continuation).1) = none := by
      by_cases hunfinished : Tag.Unfinished line
      · exact hfolded hunfinished
      · exact Tag.parse?_append_eq_none hline hstart hnone hunfinished hblank
    exact ofLines_insert hstart hcontinuation hafter (Tag.idle_of_parse?_eq_none htag _)
  · intro hunfinished
    obtain ⟨more, hmore⟩ := hunfinished.exists_completes
    refine ⟨more, hmore.inline, hmore.ne_nil, hmore.continues, ?_⟩
    intro heq
    have hsections : Comment.Sections.ofLines [line, more] = ⟨[], [line ++ ' ' :: more]⟩ := by
      simp [Comment.Sections.ofLines, Comment.foldLines, hstart, hmore.continues, hmore.ne_nil]
    rw [ofLines, ofLines, hsections] at heq
    exact hmore.not_idle (idle_of_ofSections_eq heq)

/-- A path may not start with a digit, so nothing that follows mends the first line; an
entry without a path can be completed. -/
theorem ofLines_malformed_param :
    ofLines (["load: Reads a table.".toList] ++ "@param \x7bnumber\x7d 1st The".toList ::
        (["first row.".toList, [], "From 1.".toList] ++ ["@throws no rows".toList])) =
      ofLines (["load: Reads a table.".toList] ++ ["@throws no rows".toList]) ∧
    ∃ more : Text, more.Inline ∧ more ≠ [] ∧ Comment.startsTag more = false ∧
      ofLines ["@param \x7bnumber\x7d".toList, more] ≠ ofLines [] := by
  have hpath : Tag.parse? "@param \x7bnumber\x7d 1st The".toList = none := by decide
  have htype : Tag.Unfinished "@param \x7bnumber\x7d".toList :=
    .paramType (show Text.allBlank [' '] = true by decide)
      (show '\x7d' ∉ "number".toList by decide)
  constructor
  · refine (ofLines_malformed (by decide) (by decide) hpath).1 _ _ _ (by decide) ?_ ?_
    · unfold Comment.OpensTag
      decide
    · intro _
      decide
  · exact (ofLines_malformed (by decide) (by decide) (by decide)).2 htype

/-- A throws line that says nothing on its own, and its continuation in the record. -/
theorem ofLines_continued_throws :
    Comment.lines "/**\n * @throws\n * no rows\n */".toList =
        ["@throws".toList, "no rows".toList] ∧
      Comment.startsTag "@throws".toList = true ∧ Tag.parse? "@throws".toList = none ∧
      Comment.startsTag "no rows".toList = false ∧
      (ofLines ["@throws".toList, "no rows".toList]).throws =
        some ⟨none, some "no rows".toList⟩ ∧
      ofLines ["@throws".toList, "no rows".toList] ≠ ofLines [] := by
  refine ⟨by decide, by decide, by decide, by decide, by decide, ?_⟩
  intro heq
  exact absurd (congrArg Record.throws heq) (by decide)

end Record
end DocComment
