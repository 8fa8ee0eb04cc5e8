import DocComment.Proofs.Comment.Clean

/-!
# Descriptions as lists of paragraphs

The lines that are not blank stand in runs, with blank lines between them and around
them.  A description holds one paragraph for each run and nothing else: its
paragraphs can be told apart again, the number of blank lines makes no difference,
and the lines of a description have this description.  A record name and a colon
on the first line are not part of it.

Main results:

- Definition `Comment.Runs`: the maximal runs of lines that are not blank.
- Theorem `Comment.runs_iff`: every list of lines has exactly one list of runs.
- Theorem `Comment.runsOf_gap`: blank lines do nothing but end a run.
- Theorem `Text.splitBreaks_intercalate`: texts joined by double line feeds are told
  apart again.
- Theorem `Comment.describe_splitOn_describe`: a description describes itself.
- Theorem `Comment.ofProse_canonical`: the description and the name in prose.
-/

namespace DocComment

/-! ## Parts between double line feeds -/

namespace Text

/-- The parts of a text between the double line feeds in it, from the left. -/
def splitBreaks : Text → List Text
  | [] => [[]]
  | '\n' :: '\n' :: rest => [] :: splitBreaks rest
  | c :: rest => (splitBreaks rest).modifyHead (c :: ·)

/-- A character other than a line feed belongs to the part that it stands before. -/
theorem splitBreaks_cons {c : Char} (h : c ≠ '\n') (rest : Text) :
    splitBreaks (c :: rest) = (splitBreaks rest).modifyHead (c :: ·) := by
  rw [splitBreaks]
  intro _ hc
  exact absurd hc h

/-- A text on one line belongs to the part that it stands before. -/
theorem splitBreaks_append {line : Text} (h : '\n' ∉ line) (rest : Text) :
    splitBreaks (line ++ rest) = (splitBreaks rest).modifyHead (line ++ ·) := by
  induction line with
  | nil =>
      rw [List.nil_append]
      cases splitBreaks rest with
      | nil => rfl
      | cons first parts => rfl
  | cons c line ih =>
      have hc : c ≠ '\n' := by
        rintro rfl
        exact h List.mem_cons_self
      rw [List.cons_append, splitBreaks_cons hc, ih fun hmem => h (List.mem_cons_of_mem c hmem),
        List.modifyHead_modifyHead]
      rfl

/-- Texts on one line each that are joined by double line feeds are told apart
again. -/
theorem splitBreaks_intercalate {texts : List Text} (hne : texts ≠ [])
    (h : ∀ text ∈ texts, '\n' ∉ text) : splitBreaks (['\n', '\n'].intercalate texts) = texts := by
  induction texts with
  | nil => contradiction
  | cons first rest ih =>
      have hfirst := h first List.mem_cons_self
      cases rest with
      | nil =>
          have halone := splitBreaks_append hfirst []
          simpa [splitBreaks] using halone
      | cons next rest =>
          have hrest := ih (by simp) fun text hmem => h text (List.mem_cons_of_mem first hmem)
          rw [List.intercalate_cons_cons, List.append_assoc, splitBreaks_append hfirst,
            List.cons_append, List.cons_append, List.nil_append, splitBreaks, hrest,
            List.modifyHead_cons, List.append_nil]

end Text

namespace Comment

/-! ## Runs of lines -/

/-- The lines hold nothing but blanks. -/
def BlankLines (lines : List Text) : Prop :=
  ∀ line ∈ lines, Text.allBlank line = true

/-- The maximal runs of lines that are not blank.  Before the first run there may be
blank lines, and after every run the lines end or go on with a blank one. -/
inductive Runs : List Text → List (List Text) → Prop
  | none {gap : List Text} (hgap : BlankLines gap) : Runs gap []
  | cons {gap run rest : List Text} {runs : List (List Text)} (hgap : BlankLines gap)
      (hne : run ≠ []) (hrun : ∀ line ∈ run, Text.allBlank line = false)
      (hend : ∀ line ∈ rest.head?, Text.allBlank line = true) (hrest : Runs rest runs) :
      Runs (gap ++ run ++ rest) (run :: runs)

/-- A blank line before the lines belongs to no run. -/
theorem Runs.blank_cons {line : Text} (hline : Text.allBlank line = true) {lines : List Text}
    {runs : List (List Text)} (h : Runs lines runs) : Runs (line :: lines) runs := by
  have hcons : ∀ gap, BlankLines gap → BlankLines (line :: gap) := by
    intro gap hgap other hother
    rcases List.mem_cons.mp hother with rfl | hmem
    · exact hline
    · exact hgap other hmem
  cases h with
  | none hgap => exact .none (hcons _ hgap)
  | cons hgap hne hrun hend hrest => exact .cons (hcons _ hgap) hne hrun hend hrest

/-- Every list of lines has runs. -/
theorem exists_runs (lines : List Text) : ∃ runs, Runs lines runs := by
  induction lines with
  | nil => exact ⟨[], .none (by simp [BlankLines])⟩
  | cons line rest ih =>
      rcases ih with ⟨runs, hruns⟩
      cases hline : Text.allBlank line with
      | true => exact ⟨runs, hruns.blank_cons hline⟩
      | false =>
          have hnil : BlankLines [] := by simp [BlankLines]
          by_cases hend : ∀ next ∈ rest.head?, Text.allBlank next = true
          · -- The line is a run of its own.
            exact ⟨[line] :: runs,
              @Runs.cons [] [line] rest runs hnil (by simp) (by simpa using hline) hend hruns⟩
          · -- The line belongs to the first run of the rest.
            cases hruns with
            | none hgap =>
                exact absurd (fun next hnext => hgap next (List.mem_of_mem_head? hnext)) hend
            | @cons gap run rest runs hgap hne hrun hend' hrest =>
                cases gap with
                | nil =>
                    refine ⟨(line :: run) :: runs,
                      @Runs.cons [] (line :: run) rest runs hnil (by simp) ?_ hend' hrest⟩
                    intro other hother
                    rcases List.mem_cons.mp hother with rfl | hmem
                    · exact hline
                    · exact hrun other hmem
                | cons next gap =>
                    refine absurd ?_ hend
                    intro other hother
                    cases hother
                    exact hgap _ List.mem_cons_self

/-- Blank lines have no runs. -/
theorem runsOf_blankLines {gap : List Text} (h : BlankLines gap) : runsOf gap = [] := by
  induction gap with
  | nil => rfl
  | cons line gap ih =>
      have hgap : BlankLines gap := fun other hmem => h other (List.mem_cons_of_mem line hmem)
      have hsplit := runsOf_append_cons (h line List.mem_cons_self) [] gap
      rw [List.nil_append, ih hgap] at hsplit
      exact hsplit

/-- Between two lists of lines, blank lines do nothing but end a run. -/
theorem runsOf_gap {gap : List Text} (h : BlankLines gap) (hne : gap ≠ [])
    (before after : List Text) :
    runsOf (before ++ gap ++ after) = runsOf before ++ runsOf after := by
  induction gap generalizing before with
  | nil => contradiction
  | cons line gap ih =>
      have hline := h line List.mem_cons_self
      have hgap : BlankLines gap := fun other hmem => h other (List.mem_cons_of_mem line hmem)
      rw [List.append_assoc, List.cons_append, runsOf_append_cons hline]
      cases gap with
      | nil => rfl
      | cons next gap =>
          have hrest := ih hgap (by simp) []
          rw [List.nil_append] at hrest
          rw [hrest]
          rfl

/-- Blank lines at the ends of the lines belong to no run. -/
theorem runsOf_edges {gap gap' : List Text} (h : BlankLines gap) (h' : BlankLines gap')
    (lines : List Text) : runsOf (gap ++ lines ++ gap') = runsOf lines := by
  have hstart : runsOf (gap ++ lines) = runsOf lines := by
    cases gap with
    | nil => rfl
    | cons line gap =>
        have hsplit := runsOf_gap h (by simp) [] lines
        exact hsplit
  cases gap' with
  | nil => rw [List.append_nil, hstart]
  | cons line gap' =>
      have hsplit := runsOf_gap h' (by simp) (gap ++ lines) []
      rw [List.append_nil, hstart] at hsplit
      rw [hsplit]
      exact List.append_nil _

/-- Lines that are not blank are one run. -/
theorem runsOf_run {run : List Text} (hne : run ≠ [])
    (h : ∀ line ∈ run, Text.allBlank line = false) : runsOf run = [run] := by
  rw [runsOf, List.splitOnP_eq_singleton h]
  simp [hne]

/-- The runs of lines are those that splitting at blank lines leaves. -/
theorem Runs.eq_runsOf {lines : List Text} {runs : List (List Text)} (h : Runs lines runs) :
    runs = runsOf lines := by
  induction h with
  | none hgap => rw [runsOf_blankLines hgap]
  | @cons gap run rest runs hgap hne hrun hend hrest ih =>
      have hedges := runsOf_edges hgap (by simp [BlankLines] : BlankLines []) (run ++ rest)
      rw [List.append_nil, ← List.append_assoc] at hedges
      rw [hedges, ih]
      cases rest with
      | nil =>
          rw [List.append_nil, runsOf_run hne hrun]
          rfl
      | cons line rest =>
          have hline : Text.allBlank line = true := hend line rfl
          have hsplit := runsOf_append_cons hline [] rest
          rw [List.nil_append] at hsplit
          rw [runsOf_append_cons hline, runsOf_run hne hrun, hsplit]
          rfl

/-- Every list of lines has exactly one list of runs. -/
theorem runs_iff {lines : List Text} {runs : List (List Text)} :
    Runs lines runs ↔ runs = runsOf lines := by
  constructor
  · exact Runs.eq_runsOf
  · rintro rfl
    rcases exists_runs lines with ⟨runs, hruns⟩
    rwa [← hruns.eq_runsOf]

/-! ## Descriptions -/

/-- Only the runs between blank lines count for a description. -/
theorem describe_eq_of_runsOf_eq {lines lines' : List Text} (h : runsOf lines = runsOf lines') :
    describe lines = describe lines' := by
  rw [describe, describe, paragraphs_eq_map, paragraphs_eq_map, h]

/-- The paragraphs of a description are told apart again. -/
theorem splitBreaks_describe {lines : List Text} (hlines : ∀ line ∈ lines, '\n' ∉ line)
    (hne : runsOf lines ≠ []) :
    Text.splitBreaks (describe lines) = (runsOf lines).map paragraphOf := by
  rw [describe, Text.splitBreaks_intercalate]
  · rfl
  · simpa [paragraphs_eq_map] using hne
  · intro para hpara
    exact (filled_of_mem_paragraphs hlines hpara).inline.one_line

/-- A description describes itself. -/
theorem describe_splitOn_describe {lines : List Text} (hlines : ∀ line ∈ lines, '\n' ∉ line) :
    describe ((describe lines).splitOn '\n') = describe lines := by
  have hfilled : ∀ para ∈ paragraphs lines, para.Filled := fun para =>
    filled_of_mem_paragraphs hlines
  cases hparas : paragraphs lines with
  | nil =>
      rw [describe, describe, hparas]
      rfl
  | cons first rest =>
      rw [hparas] at hfilled
      have hdescribe : describe lines = ['\n', '\n'].intercalate (first :: rest) := by
        rw [describe, hparas]
      rw [hdescribe, splitOn_intercalate_spread hfilled, describe_spread hfilled]

/-! ## Headings -/

/-- A name on the first line is the name of the record, and the description starts
behind it. -/
theorem ofProse_of_named {name after : Text} (hname : Text.isRecordName name = true)
    (hblank : ∀ c ∈ after.head?, Text.isBlank c = true) (hline : '\n' ∉ after)
    (rest : List Text) (nameTag : Option Text) :
    Heading.ofProse ((name ++ ':' :: after) :: rest) nameTag =
      ⟨name, describe (Text.trimStart after :: rest)⟩ := by
  rw [Heading.ofProse, namedLine?_append hname (Text.remainder?_of_isBlank hblank hline)]

/-- Without a name on the first line the prose is the description. -/
theorem ofProse_of_not_named {prose : List Text} (h : ∀ first ∈ prose.head?, ¬ OpensNamed first)
    (nameTag : Option Text) :
    Heading.ofProse prose nameTag = ⟨nameTag.getD [], describe prose⟩ := by
  cases prose with
  | nil => rfl
  | cons first rest => rw [Heading.ofProse, namedLine?_eq_none (h first rfl)]

/-- The description in lines of prose is the list of the paragraphs of their runs:
split at the double line feeds it gives these paragraphs back, its own lines have
the same description, and further blank lines change nothing, at the ends or where
some stand already.  A record name and a colon at the start of the first line, with a
blank or nothing behind them, give the name whatever the name tag says, and the
description goes on behind them; without them the whole prose is the description. -/
theorem ofProse_canonical {lines : List Text} (hlines : ∀ line ∈ lines, '\n' ∉ line) :
    (∃ runs, Runs lines runs ∧ (∀ other, Runs lines other → other = runs) ∧
      (runs = [] → describe lines = []) ∧
      (runs ≠ [] → Text.splitBreaks (describe lines) =
        runs.map fun run => [' '].intercalate (run.map Text.trim))) ∧
    describe ((describe lines).splitOn '\n') = describe lines ∧
    (∀ gap gap', BlankLines gap → BlankLines gap' →
      describe (gap ++ lines ++ gap') = describe lines) ∧
    (∀ before gap after gap', lines = before ++ gap ++ after → gap ≠ [] → BlankLines gap →
      gap' ≠ [] → BlankLines gap' → describe (before ++ gap' ++ after) = describe lines) ∧
    (∀ nameTag name after rest, lines = (name ++ ':' :: after) :: rest →
      Text.isRecordName name = true → (∀ c ∈ after.head?, Text.isBlank c = true) →
      Heading.ofProse lines nameTag = ⟨name, describe (Text.trimStart after :: rest)⟩) ∧
    (∀ nameTag, (∀ first ∈ lines.head?, ¬ OpensNamed first) →
      Heading.ofProse lines nameTag = ⟨nameTag.getD [], describe lines⟩) := by
  refine ⟨⟨runsOf lines, runs_iff.mpr rfl, fun other => runs_iff.mp, ?_, ?_⟩,
    describe_splitOn_describe hlines, ?_, ?_, ?_, ?_⟩
  · intro hnil
    rw [describe, paragraphs_eq_map, hnil]
    rfl
  · exact splitBreaks_describe hlines
  · intro gap gap' hgap hgap'
    exact describe_eq_of_runsOf_eq (runsOf_edges hgap hgap' lines)
  · rintro before gap after gap' rfl hne hgap hne' hgap'
    apply describe_eq_of_runsOf_eq
    rw [runsOf_gap hgap' hne', runsOf_gap hgap hne]
  · rintro nameTag name after rest rfl hname hblank
    have hline : '\n' ∉ after := by
      have hfirst := hlines _ List.mem_cons_self
      intro hmem
      exact hfirst (List.mem_append_right name (List.mem_cons_of_mem ':' hmem))
    exact ofProse_of_named hname hblank hline rest nameTag
  · intro nameTag hfirst
    exact ofProse_of_not_named hfirst nameTag

/-- Prose with a name, with blanks around its lines, and with two blank lines in a
row. -/
def paddedProse : List Text :=
  ["load-all:  Loads".toList, "  all rows ".toList, "\t ".toList, [], "Then stops.".toList]

/-- The name counts before the name tag, and of the blank lines one is as good as
two. -/
theorem ofProse_paddedProse :
    (∀ line ∈ paddedProse, '\n' ∉ line) ∧
      Heading.ofProse paddedProse (some "load".toList) =
        ⟨"load-all".toList, "Loads all rows\n\nThen stops.".toList⟩ ∧
      describe (paddedProse.take 2 ++ [[]] ++ ["Then stops.".toList]) =
        "load-all:  Loads all rows\n\nThen stops.".toList := by
  have hlines : ∀ line ∈ paddedProse, '\n' ∉ line := by decide
  have hblank : ∀ c ∈ "  Loads".toList.head?, Text.isBlank c = true := by
    intro c hc
    cases hc
    decide
  rcases ofProse_canonical hlines with ⟨_, _, _, hgap, hnamed, _⟩
  refine ⟨hlines, ?_, ?_⟩
  · rw [hnamed (some "load".toList) "load-all".toList "  Loads".toList paddedProse.tail rfl
      (by decide) hblank]
    rfl
  · rw [hgap (paddedProse.take 2) ["\t ".toList, []] ["Then stops.".toList] [[]] rfl (by decide)
      (by simp [BlankLines]; decide) (by decide) (by simp [BlankLines]; decide)]
    rfl

end Comment
end DocComment
