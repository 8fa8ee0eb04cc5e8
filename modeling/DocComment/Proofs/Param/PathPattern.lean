import DocComment.Proofs.Param.PathText
import DocComment.Proofs.Text.Pattern

/-!
# The pattern of a path

The texts that spell a path are those that a pattern matches: a step, and then further
steps with points before them.  A step is matched in one way only, because what may
follow it, a point or the end of the text, does not belong to a step.  So the loop over
the further steps goes exactly as far as the segments between the points.

Main results:

- Theorem `Step.matchThen_pattern`: a step is matched in one way that counts.
- Theorem `FieldPath.groups?_eq`: the pattern of a path matches when every segment is a
  step.
- Theorem `FieldPath.parse?_eq_of_pattern`: a path is read from the segments of a text
  that the pattern matches.
-/

namespace DocComment

open Pattern

/-! ## Steps -/

namespace Step

/-- The pattern of a step: an identifier and at most one pair of brackets. -/
def pattern : Pattern :=
  .sequence [.one Text.isIdentStart, .many Text.isIdentPart, .maybe (.literal brackets)]

/-- What comes after an identifier and its brackets at the start of a text. -/
def rest? : Text → Option Text
  | [] => none
  | c :: text =>
    if Text.isIdentStart c then
      some ((Text.after? brackets (text.dropWhile Text.isIdentPart)).getD
        (text.dropWhile Text.isIdentPart))
    else none

/-- The step that a segment of a path stands for. -/
def ofSegment (segment : Text) : Step :=
  match Text.before? brackets segment with
  | some name => ⟨name, true⟩
  | none => ⟨segment, false⟩

/-- A step at the start of a text ends before a point, whatever follows the point. -/
theorem rest?_append {rest : Text} (h : ∀ c ∈ rest.head?, c = '.') (segment : Text) :
    rest? (segment ++ rest) = (rest? segment).map (· ++ rest) := by
  have hpart : ∀ c ∈ rest.head?, Text.isIdentPart c = false := by
    intro c hc
    rw [h c hc]
    decide
  cases segment with
  | nil =>
      cases rest with
      | nil => rfl
      | cons c rest =>
          rw [List.nil_append, h c rfl]
          rfl
  | cons c segment =>
      have hdrop : (segment ++ rest).dropWhile Text.isIdentPart =
          segment.dropWhile Text.isIdentPart ++ rest := by
        rw [List.dropWhile_append]
        split
        · rename_i hempty
          have hself : rest.dropWhile Text.isIdentPart = rest := by
            cases rest with
            | nil => rfl
            | cons d rest => rw [List.dropWhile_cons_of_neg (by simp [hpart d rfl])]
          rw [List.isEmpty_iff.mp hempty, hself, List.nil_append]
        · rfl
      have hpoint : ∀ c ∈ rest.head?, c ∉ brackets := by
        intro c hc
        rw [h c hc]
        decide
      rw [List.cons_append, rest?, rest?, hdrop, Text.after?_append_of_notMem hpoint]
      split
      · cases Text.after? brackets (segment.dropWhile Text.isIdentPart) <;> rfl
      · rfl

/-- What comes after a step is a suffix of the text. -/
theorem rest?_suffix {text rest : Text} (h : rest? text = some rest) : rest <:+ text := by
  cases text with
  | nil => contradiction
  | cons c text =>
      rw [rest?] at h
      split at h
      · rw [Option.some.injEq] at h
        have htail : text.dropWhile Text.isIdentPart <:+ c :: text :=
          (List.dropWhile_suffix _).trans (List.suffix_cons c text)
        cases hmarked : Text.after? brackets (text.dropWhile Text.isIdentPart) with
        | some left =>
            rw [hmarked, Option.getD_some] at h
            rw [Text.after?_eq_some_iff.mp hmarked, h] at htail
            exact (List.suffix_append brackets rest).trans htail
        | none =>
            rw [hmarked, Option.getD_none] at h
            rwa [h] at htail
      · contradiction

/-- Nothing is left after the text of a step. -/
theorem rest?_text {step : Step} (h : Text.isIdentifier step.name = true) :
    rest? step.text = some [] := by
  rcases step with ⟨_ | ⟨c, name⟩, marked⟩
  · contradiction
  · simp only [Text.isIdentifier, Bool.and_eq_true, List.all_eq_true] at h
    rw [text_eq, List.cons_append, rest?, if_pos h.1, List.dropWhile_append_of_pos h.2]
    cases marked <;> rfl

/-- A text after which nothing is left is the text of a step. -/
theorem exists_of_rest?_eq_nil {segment : Text} (h : rest? segment = some []) :
    ∃ step : Step, Text.isIdentifier step.name = true ∧ step.text = segment := by
  cases segment with
  | nil => contradiction
  | cons c text =>
      rw [rest?] at h
      split at h
      · rename_i hc
        have hname : Text.isIdentifier (c :: text.takeWhile Text.isIdentPart) = true := by
          simp [Text.isIdentifier, hc]
        have hsplit := List.takeWhile_append_dropWhile (p := Text.isIdentPart) (l := text)
        rw [Option.some.injEq] at h
        cases hmarked : Text.after? brackets (text.dropWhile Text.isIdentPart) with
        | some rest =>
            rw [hmarked, Option.getD_some] at h
            rw [Text.after?_eq_some_iff.mp hmarked, h, List.append_nil] at hsplit
            refine ⟨⟨c :: text.takeWhile Text.isIdentPart, true⟩, hname, ?_⟩
            rw [text_eq, if_pos rfl, List.cons_append, hsplit]
        | none =>
            rw [hmarked, Option.getD_none] at h
            rw [h, List.append_nil] at hsplit
            refine ⟨⟨c :: text.takeWhile Text.isIdentPart, false⟩, hname, ?_⟩
            rw [text_eq, if_neg Bool.false_ne_true, List.append_nil, hsplit]
      · contradiction

/-- A text is read as a step exactly when nothing is left after its identifier and
brackets. -/
theorem isSome_parse?_iff {segment : Text} :
    (parse? segment).isSome = true ↔ rest? segment = some [] := by
  constructor
  · intro h
    rcases Option.isSome_iff_exists.mp h with ⟨step, hstep⟩
    rw [← text_of_parse? hstep]
    exact rest?_text (isIdentifier_of_parse? hstep)
  · intro h
    rcases exists_of_rest?_eq_nil h with ⟨step, hname, rfl⟩
    rw [parse?_text hname]
    rfl

/-- The step that was read is the one that the segment stands for. -/
theorem eq_ofSegment {segment : Text} {step : Step} (h : parse? segment = some step) :
    step = ofSegment segment := by
  unfold parse? at h
  unfold ofSegment
  cases hmarked : Text.before? brackets segment with
  | some name =>
      rw [hmarked] at h
      rcases Option.ite_none_right_eq_some.mp h with ⟨_, hstep⟩
      exact (Option.some.inj hstep).symm
  | none =>
      rw [hmarked] at h
      rcases Option.ite_none_right_eq_some.mp h with ⟨_, hstep⟩
      exact (Option.some.inj hstep).symm

section Matching

variable {α : Type} {groups : Groups} {next : Groups → Text → Option α}
  (hstop : ∀ groups c rest, c ≠ '.' → next groups (c :: rest) = none)

include hstop

/-- A step is matched in one way when only a point or the end may follow it. -/
theorem matchThen_pattern (text : Text) :
    pattern.matchThen groups text next = (rest? text).bind (next groups) := by
  have hmaybe : ∀ (groups : Groups) (tail : Text),
      (maybe (literal brackets)).matchThen groups tail next =
        next groups ((Text.after? brackets tail).getD tail) := by
    intro groups tail
    rw [matchThen, matchThen_literal]
    cases hmarked : Text.after? brackets tail with
    | none => rfl
    | some rest =>
        have hnone : next groups tail = none := by
          rw [Text.after?_eq_some_iff.mp hmarked]
          exact hstop groups '[' _ (by decide)
        rw [hnone, Option.or_none]
        rfl
  have hpart : ∀ (groups : Groups) c rest, Text.isIdentPart c = true →
      (maybe (literal brackets)).matchThen groups (c :: rest) next = none := by
    intro groups c rest hc
    have hbracket : '[' ≠ c := by
      rintro rfl
      exact absurd hc (by decide)
    rw [hmaybe, brackets, Text.after?, if_neg hbracket, Option.getD_none]
    refine hstop groups c rest ?_
    rintro rfl
    exact absurd hc (by decide)
  cases text with
  | nil => rfl
  | cons c text =>
      rw [pattern, matchThen_sequence_cons, matchThen, rest?]
      by_cases hc : Text.isIdentStart c = true
      · rw [if_pos hc, if_pos hc, Option.bind_some]
        simp only [matchThen_sequence_cons, matchThen_sequence_nil]
        rw [matchThen_many_of_stop hpart, hmaybe]
      · rw [if_neg hc, if_neg hc, Option.bind_none]

/-- A segment before a point or the end is matched when it is a step. -/
theorem matchThen_pattern_append {segment rest : Text} (hpoint : '.' ∉ segment)
    (hrest : ∀ c ∈ rest.head?, c = '.') :
    pattern.matchThen groups (segment ++ rest) next =
      if (parse? segment).isSome then next groups rest else none := by
  rw [matchThen_pattern hstop, rest?_append hrest]
  by_cases hleft : rest? segment = some []
  · rw [hleft, if_pos (isSome_parse?_iff.mpr hleft)]
    rfl
  · rw [if_neg (mt isSome_parse?_iff.mp hleft)]
    cases hsome : rest? segment with
    | none => rfl
    | some left =>
        cases left with
        | nil => exact absurd hsome hleft
        | cons c left =>
            -- What is left starts inside the segment, and no point does.
            have hmem : c ∈ segment := (rest?_suffix hsome).subset List.mem_cons_self
            refine hstop groups c (left ++ rest) ?_
            rintro rfl
            exact hpoint hmem

end Matching

end Step

/-! ## Paths -/

namespace FieldPath

/-- The pattern of a path: a step, and further steps with points before them. -/
def pattern : Pattern :=
  .sequence [Step.pattern, .loop (.sequence [.literal ['.'], Step.pattern])]

/-- Segments, with a point before each. -/
def dotted (segments : List Text) : Text :=
  segments.flatMap fun segment => '.' :: segment

/-- Segments with points before them start with a point. -/
theorem eq_point_of_mem_head?_dotted {segments : List Text} {c : Char}
    (h : c ∈ (dotted segments).head?) : c = '.' := by
  cases segments with
  | nil => contradiction
  | cons segment segments =>
      cases h
      rfl

/-- Every segment is read as a step. -/
def allSteps (segments : List Text) : Bool :=
  segments.all fun segment => (Step.parse? segment).isSome

@[simp]
theorem allSteps_cons (segment : Text) (segments : List Text) :
    allSteps (segment :: segments) = ((Step.parse? segment).isSome && allSteps segments) :=
  rfl

/-- One round of the loop in a path: a point and a step. -/
abbrev round (groups : Groups) (text : Text) (next : Groups → Text → Option Groups) :
    Option Groups :=
  (sequence [literal ['.'], Step.pattern]).matchThen groups text next

/-- The loop over the further steps goes no further than to the end or to a point. -/
theorem loopThen_round_of_ne (rounds : Nat) (groups : Groups) {c : Char} (hc : c ≠ '.')
    (rest : Text) : loopThen round atEnd rounds groups (c :: rest) = none := by
  rw [loopThen_of_stop, atEnd_cons]
  intro next
  rw [round, matchThen_sequence_cons, matchThen_literal, Text.after?, if_neg hc.symm,
    Option.bind_none]

/-- The loop over the further steps takes all segments when each of them is a step. -/
theorem loopThen_round_dotted {segments : List Text} (h : ∀ segment ∈ segments, '.' ∉ segment)
    {rounds : Nat} (hrounds : (dotted segments).length ≤ rounds) (groups : Groups) :
    loopThen round atEnd rounds groups (dotted segments) =
      if allSteps segments then some groups else none := by
  induction segments generalizing rounds groups with
  | nil => cases rounds <;> rfl
  | cons segment segments ih =>
      cases rounds with
      | zero => simp [dotted] at hrounds
      | succ rounds =>
          have htext : dotted (segment :: segments) = '.' :: (segment ++ dotted segments) := rfl
          rw [htext] at hrounds ⊢
          have hlength :
              (dotted segments).length < ('.' :: (segment ++ dotted segments)).length := by
            rw [List.length_cons, List.length_append]
            omega
          have hrest : (dotted segments).length ≤ rounds :=
            Nat.le_of_lt_succ (hlength.trans_le hrounds)
          have hround : ∀ next : Groups → Text → Option Groups,
              round groups ('.' :: (segment ++ dotted segments)) next =
                Step.pattern.matchThen groups (segment ++ dotted segments) next := by
            intro next
            rw [round, matchThen_sequence_cons, matchThen_literal, Text.after?, if_pos rfl]
            rfl
          rw [loopThen, hround, atEnd_cons, Option.or_none, Step.matchThen_pattern_append]
          · rw [if_pos hlength, ih (fun other hmem => h other (List.mem_cons_of_mem _ hmem)) hrest]
            cases hstep : (Step.parse? segment).isSome <;> simp [hstep]
          · intro groups c rest hc
            split
            · exact loopThen_round_of_ne rounds groups hc rest
            · rfl
          · exact h segment List.mem_cons_self
          · exact fun c => eq_point_of_mem_head?_dotted

/-- The pattern of a path matches when every segment between the points is a step. -/
theorem groups?_eq (token : Text) :
    pattern.groups? token = if allSteps (token.splitOn '.') then some [] else none := by
  have hsegments : ∀ segment ∈ token.splitOn '.', '.' ∉ segment :=
    fun segment => Text.notMem_of_mem_splitOn
  have htoken : ['.'].intercalate (token.splitOn '.') = token := List.intercalate_splitOn '.'
  rcases List.exists_cons_of_ne_nil (List.splitOn_ne_nil '.' token) with ⟨first, rest, hsplit⟩
  rw [hsplit] at htoken hsegments
  have htext : token = first ++ dotted rest := by
    rw [← htoken, Text.intercalate_cons]
    rfl
  have hloop : ∀ groups : Groups, (loop (sequence [literal ['.'], Step.pattern])).matchThen groups
      (dotted rest) atEnd = if allSteps rest then some groups else none :=
    loopThen_round_dotted (fun segment hmem => hsegments segment (List.mem_cons_of_mem _ hmem))
      (Nat.le_refl _)
  rw [hsplit, groups?, pattern, matchThen_sequence_cons, htext, Step.matchThen_pattern_append]
  · rw [matchThen_sequence_cons]
    simp only [matchThen_sequence_nil]
    rw [hloop]
    cases hstep : (Step.parse? first).isSome <;> simp [hstep]
  · intro groups c rest hc
    exact loopThen_round_of_ne _ groups hc rest
  · exact hsegments first List.mem_cons_self
  · exact fun c => eq_point_of_mem_head?_dotted

/-- A list of segments is read when every segment is a step, and each gives the step it
stands for. -/
theorem mapM_parse? (segments : List Text) :
    segments.mapM Step.parse? =
      if allSteps segments then some (segments.map Step.ofSegment) else none := by
  induction segments with
  | nil => rfl
  | cons segment segments ih =>
      rw [List.mapM_cons, ih]
      cases hstep : Step.parse? segment with
      | none => simp [hstep]
      | some step =>
          cases hsteps : allSteps segments <;> simp [hstep, hsteps, ← Step.eq_ofSegment hstep]

/-- A path is read when the pattern matches, and its steps are those that the segments
between the points stand for. -/
theorem parse?_eq_of_pattern (token : Text) :
    parse? token =
      if (pattern.groups? token).isSome then some ((token.splitOn '.').map Step.ofSegment)
      else none := by
  rw [parse?, mapM_parse?, groups?_eq]
  cases allSteps (token.splitOn '.') <;> rfl

end FieldPath
end DocComment
