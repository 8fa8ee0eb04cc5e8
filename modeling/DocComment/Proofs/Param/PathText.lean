import Mathlib.Data.List.Induction
import DocComment.Proofs.Comment.Layout
import DocComment.Proofs.Tag.Line

/-!
# Path texts

A path text is a list of segments with points between them, and a segment is an
identifier with at most one pair of brackets.  Reading and writing paths are
inverse to each other on exactly these texts.  So a draft, which finds its cells
by path texts that it builds up step by step, never takes one place for another.

Main results:

- Theorem `FieldPath.parse?_eq_some_iff`: the texts that are read as a path.
- Theorem `FieldPath.text_inj`: different paths have different texts.
- Theorem `Draft.follow_foldl_pass`: what is left to do after some steps.
- Theorem `Draft.Walk.key_along`: the path text after some steps is the text of
  the steps.
- Theorem `FieldPath.parse?_bijective`: reading and writing as a bijection, and
  what it means for the keys of a draft.
-/

namespace DocComment

/-! ## Segments -/

/-- A segment of a path text: an identifier with at most one pair of brackets. -/
def IsSegment (segment : Text) : Prop :=
  ∃ name, Text.isIdentifier name = true ∧ (segment = name ∨ segment = name ++ brackets)

namespace Step

/-- A step that was read has the text that it was read from. -/
theorem text_of_parse? {segment : Text} {step : Step} (h : parse? segment = some step) :
    step.text = segment := by
  unfold parse? at h
  split at h
  · rename_i name hname
    split at h
    · cases h
      exact (Text.before?_eq_some_iff.mp hname).symm
    · contradiction
  · split at h
    · cases h
      rfl
    · contradiction

/-- The text of a step with an identifier for its name is a segment. -/
theorem isSegment_text {step : Step} (h : Text.isIdentifier step.name = true) :
    IsSegment step.text := by
  refine ⟨step.name, h, ?_⟩
  unfold text
  split
  · exact .inr rfl
  · exact .inl rfl

/-- Every segment is the text of a step. -/
theorem exists_of_isSegment {segment : Text} (h : IsSegment segment) :
    ∃ step : Step, Text.isIdentifier step.name = true ∧ step.text = segment := by
  rcases h with ⟨name, hname, hplain | hmarked⟩
  · exact ⟨⟨name, false⟩, hname, hplain.symm⟩
  · exact ⟨⟨name, true⟩, hname, hmarked.symm⟩

/-- The text of a step is its name, with brackets after it when it is marked. -/
theorem text_eq (step : Step) :
    step.text = step.name ++ if step.marked then brackets else [] := by
  unfold text
  split <;> simp

end Step

/-! ## Paths -/

namespace FieldPath

/-- The steps that were read have the texts that they were read from. -/
theorem map_text_of_mapM_parse? {segments : List Text} {path : FieldPath}
    (h : segments.mapM Step.parse? = some path) : path.map Step.text = segments := by
  induction segments generalizing path with
  | nil =>
      simp only [List.mapM_nil, Option.pure_def, Option.some.injEq] at h
      rw [← h]
      rfl
  | cons segment segments ih =>
      simp only [List.mapM_cons, Option.bind_eq_bind, Option.bind_eq_some_iff, Option.pure_def,
        Option.some.injEq] at h
      rcases h with ⟨step, hstep, rest, hrest, rfl⟩
      rw [List.map_cons, Step.text_of_parse? hstep, ih hrest]

/-- A path that was read has the text that it was read from. -/
theorem text_of_parse? {token : Text} {path : FieldPath} (h : parse? token = some path) :
    text path = token := by
  rw [text, map_text_of_mapM_parse? h, List.intercalate_splitOn]

/-- A path that was read has a step. -/
theorem ne_nil_of_parse? {token : Text} {path : FieldPath} (h : parse? token = some path) :
    path ≠ [] := by
  rintro rfl
  have hsegments := map_text_of_mapM_parse? h
  exact List.splitOn_ne_nil '.' token hsegments.symm

/-- The texts that are read as a path are the texts of the paths with a step whose
names are identifiers. -/
theorem parse?_eq_some_iff {token : Text} {path : FieldPath} :
    parse? token = some path ↔ path ≠ [] ∧ path.Named ∧ text path = token := by
  constructor
  · intro h
    exact ⟨ne_nil_of_parse? h, named_of_mapM_parse? h, text_of_parse? h⟩
  · rintro ⟨hne, hnamed, rfl⟩
    exact parse?_text hne hnamed

/-- Segments are the texts of the steps of a path. -/
theorem exists_map_text_eq {segments : List Text} (h : ∀ segment ∈ segments, IsSegment segment) :
    ∃ path : FieldPath, path.Named ∧ path.map Step.text = segments := by
  induction segments with
  | nil => exact ⟨[], by simp [Named], rfl⟩
  | cons segment segments ih =>
      rcases Step.exists_of_isSegment (h segment List.mem_cons_self) with ⟨step, hname, hstep⟩
      rcases ih fun segment' hmem => h segment' (List.mem_cons_of_mem _ hmem) with
        ⟨path, hnamed, hpath⟩
      refine ⟨step :: path, ?_, by rw [List.map_cons, hstep, hpath]⟩
      intro step' hmem
      rcases List.mem_cons.mp hmem with rfl | hmem
      · exact hname
      · exact hnamed step' hmem

/-- A text is read as some path exactly when it is made of segments. -/
theorem exists_parse?_iff {token : Text} :
    (∃ path, parse? token = some path) ↔
      ∃ segments : List Text, segments ≠ [] ∧ (∀ segment ∈ segments, IsSegment segment) ∧
        token = ['.'].intercalate segments := by
  constructor
  · rintro ⟨path, hpath⟩
    rcases parse?_eq_some_iff.mp hpath with ⟨hne, hnamed, rfl⟩
    refine ⟨path.map Step.text, by simpa using hne, ?_, rfl⟩
    intro segment hsegment
    rcases List.mem_map.mp hsegment with ⟨step, hstep, rfl⟩
    exact Step.isSegment_text (hnamed step hstep)
  · rintro ⟨segments, hne, hsegments, rfl⟩
    rcases exists_map_text_eq hsegments with ⟨path, hnamed, rfl⟩
    exact ⟨path, parse?_text (by simpa using hne) hnamed⟩

/-- The text of a path with a step is not empty. -/
theorem text_ne_nil {path : FieldPath} (hne : path ≠ []) (h : path.Named) : text path ≠ [] := by
  rcases exists_text_eq_cons hne h with ⟨c, more, htext, _⟩
  rw [htext]
  exact List.cons_ne_nil c more

/-- Different paths have different texts. -/
theorem text_inj {path path' : FieldPath} (h : path.Named) (h' : path'.Named)
    (heq : text path = text path') : path = path' := by
  by_cases hne : path = []
  · by_cases hne' : path' = []
    · rw [hne, hne']
    · rw [hne] at heq
      exact absurd heq.symm (text_ne_nil hne' h')
  · have hne' : path' ≠ [] := by
      rintro rfl
      exact text_ne_nil hne h heq
    have hread := parse?_text hne h
    rw [heq, parse?_text hne' h'] at hread
    exact (Option.some.inj hread).symm

/-- The text of a path with one more step. -/
theorem text_concat {steps : FieldPath} (h : steps.Named) (step : Step) :
    text (steps ++ [step]) =
      Draft.extend (text steps) step.name ++ if step.marked then brackets else [] := by
  cases steps with
  | nil => simp [text, Draft.extend, Step.text_eq]
  | cons first rest =>
      have hne : text (first :: rest) ≠ [] := text_ne_nil (by simp) h
      rw [Draft.extend, if_neg (by simpa using hne)]
      simp [text, Text.intercalate_cons, List.flatMap_append, Step.text_eq]

end FieldPath

/-! ## The keys of a draft -/

namespace Draft

/-- How far the steps of a path have been followed: the draft as it is by then, the
cell that was reached, and the path text that was built up. -/
structure Walk where
  draft : Draft
  parent : Option Nat
  key : Text

namespace Walk

/-- Go past one step.  The place of the step is made an object, or an array of
objects when the step is marked. -/
def pass (walk : Walk) (step : Step) : Walk :=
  let (draft, i) := walk.draft.child walk.parent (extend walk.key step.name) step.name
  if step.marked then
    let (draft, j) := (draft.setType i .array).itemsOf i (extend walk.key step.name)
    ⟨draft.setType j .object, some j, extend walk.key step.name ++ brackets⟩
  else ⟨draft.setType i .object, some i, extend walk.key step.name⟩

/-- Go past the given steps from the top of a draft. -/
def along (draft : Draft) (steps : FieldPath) : Walk :=
  steps.foldl pass ⟨draft, none, []⟩

/-- Going past a step adds its text to the path text. -/
theorem key_pass (walk : Walk) (step : Step) :
    (walk.pass step).key =
      extend walk.key step.name ++ if step.marked then brackets else [] := by
  cases hmarked : step.marked with
  | true => simp [pass, hmarked]
  | false => simp [pass, hmarked]

/-- The path text after some steps is the text of the steps. -/
theorem key_along (draft : Draft) {steps : FieldPath} (h : steps.Named) :
    (along draft steps).key = steps.text := by
  induction steps using List.reverseRecOn with
  | nil => rfl
  | append_singleton steps step ih =>
      have hsteps : FieldPath.Named steps := fun step' hmem =>
        h step' (List.mem_append_left _ hmem)
      have hkey := ih hsteps
      unfold along at hkey ⊢
      rw [List.foldl_append, List.foldl_cons, List.foldl_nil, key_pass, hkey,
        FieldPath.text_concat hsteps]

end Walk

/-- Following a path goes past its first step when there is another. -/
theorem follow_pass (entry : ParamEntry) (walk : Walk) (step next : Step) (rest : FieldPath) :
    follow entry walk.draft walk.parent walk.key (step :: next :: rest) =
      follow entry (walk.pass step).draft (walk.pass step).parent (walk.pass step).key
        (next :: rest) := by
  cases hmarked : step.marked with
  | true => simp [follow, Walk.pass, hmarked]
  | false => simp [follow, Walk.pass, hmarked]

/-- Following a path goes past its first steps and then follows the others. -/
theorem follow_foldl_pass (entry : ParamEntry) (walk : Walk) (steps : FieldPath) (next : Step)
    (rest : FieldPath) :
    follow entry walk.draft walk.parent walk.key (steps ++ next :: rest) =
      let reached := steps.foldl Walk.pass walk
      follow entry reached.draft reached.parent reached.key (next :: rest) := by
  induction steps generalizing walk with
  | nil => rfl
  | cons step steps ih =>
      rw [List.foldl_cons, ← ih (walk.pass step)]
      cases steps with
      | nil => exact follow_pass entry walk step next rest
      | cons second steps => exact follow_pass entry walk step second (steps ++ next :: rest)

end Draft

/-- Reading paths is a bijection between the texts made of segments and the lists
of steps, at least one, with identifiers for names; writing is its inverse.  So
the path text under which a draft goes on after the first steps of an entry is the
text of these steps, the one under which it looks for the next place is the text
of that place, and different steps lead to different path texts, whatever the
drafts. -/
theorem FieldPath.parse?_bijective :
    (∀ token : Text,
      (∃ path, parse? token = some path) ↔
        ∃ segments : List Text, segments ≠ [] ∧ (∀ segment ∈ segments, IsSegment segment) ∧
          token = ['.'].intercalate segments) ∧
    (∀ (token : Text) (path : FieldPath), parse? token = some path →
      path ≠ [] ∧
      (∀ step ∈ path, Text.isIdentifier step.name = true ∧
        '.' ∉ step.name ∧ '[' ∉ step.name ∧ ']' ∉ step.name) ∧
      text path = token) ∧
    (∀ path : FieldPath, path ≠ [] → (∀ step ∈ path, Text.isIdentifier step.name = true) →
      parse? (text path) = some path) ∧
    (∀ (draft : Draft) (entry : ParamEntry) (steps : FieldPath) (next : Step) (rest : FieldPath),
      entry.path.Readable → entry.path = steps ++ next :: rest →
      let walk := Draft.Walk.along draft steps
      draft.add entry = Draft.follow entry walk.draft walk.parent walk.key (next :: rest) ∧
      walk.key = text steps ∧
      Draft.extend walk.key next.name = text (steps ++ [⟨next.name, false⟩])) ∧
    (∀ (draft draft' : Draft) (steps steps' : FieldPath),
      (∀ step ∈ steps, Text.isIdentifier step.name = true) →
      (∀ step ∈ steps', Text.isIdentifier step.name = true) →
      steps ≠ steps' →
      (Draft.Walk.along draft steps).key ≠ (Draft.Walk.along draft' steps').key) := by
  refine ⟨fun token => exists_parse?_iff, ?_, ?_, ?_, ?_⟩
  · intro token path h
    rcases parse?_eq_some_iff.mp h with ⟨hne, hnamed, htext⟩
    refine ⟨hne, ?_, htext⟩
    intro step hstep
    have hplain : ∀ c, Text.isIdentPart c = false → c ∉ step.name := by
      intro c hc hmem
      rw [Text.isIdentPart_of_mem (hnamed step hstep) hmem] at hc
      contradiction
    exact ⟨hnamed step hstep, hplain '.' (by decide), hplain '[' (by decide),
      hplain ']' (by decide)⟩
  · intro path hne hnamed
    exact parse?_text hne hnamed
  · intro draft entry steps next rest hreadable hpath
    have hnamed : Named steps := by
      intro step hstep
      refine hreadable.named step ?_
      rw [hpath]
      exact List.mem_append_left _ hstep
    have hkey := Draft.Walk.key_along draft hnamed
    refine ⟨?_, hkey, ?_⟩
    · rw [Draft.add, hpath]
      exact Draft.follow_foldl_pass entry ⟨draft, none, []⟩ steps next rest
    · rw [hkey, text_concat hnamed]
      simp
  · intro draft draft' steps steps' hnamed hnamed' hne heq
    rw [Draft.Walk.key_along draft hnamed, Draft.Walk.key_along draft' hnamed'] at heq
    exact hne (text_inj hnamed hnamed' heq)

/-- The path of a field in the rows of a table. -/
def FieldPath.cellPath : FieldPath :=
  [⟨"rows".toList, true⟩, ⟨"id".toList, false⟩]

theorem FieldPath.parse?_bijective_cellPath :
    text cellPath = "rows[].id".toList ∧
      parse? (text cellPath) = some cellPath ∧
      (Draft.Walk.along Draft.empty [⟨"rows".toList, true⟩]).key = "rows[]".toList ∧
      (Draft.Walk.along Draft.empty [⟨"rows".toList, true⟩]).key ≠
        (Draft.Walk.along Draft.empty [⟨"rows".toList, false⟩]).key := by
  obtain ⟨_, hread, hwritten, hkeys, hapart⟩ := parse?_bijective
  have hpath : parse? "rows[].id".toList = some cellPath := by decide
  have hentry := hkeys Draft.empty ⟨none, cellPath, []⟩ [⟨"rows".toList, true⟩]
    ⟨"id".toList, false⟩ [] ⟨_, hpath⟩ rfl
  exact ⟨(hread _ _ hpath).2.2, hwritten _ (by decide) (by decide),
    hentry.2.1.trans (by decide),
    hapart _ _ _ _ (by decide) (by decide) (by decide)⟩

end DocComment
