import DocComment.Comment.Heading
import DocComment.Proofs.Comment.Delimiters
import DocComment.Proofs.Tag.Layout

/-!
# The patterns of a comment

The delimiters of a comment and a name on its first line are described by patterns.
The readers give what the groups of the patterns keep.

A complete comment has more than one match.  The opener takes all of its stars, and
gives back one of them only when the closer has no star of its own; the text between
them ends at the first place where the closer matches up to the end.

Main results:

- Theorem `Comment.enclosed?_eq_groups`: the text between the delimiters is what the
  pattern of a complete comment keeps.
- Theorem `Comment.body_eq_of_patterns`: a comment loses its delimiters by the pattern
  of a complete comment, or else by those of the opener and the closer.
- Theorem `Comment.namedLine?_eq_groups`: a name and the text after it are what the
  pattern of a named line keeps.
-/

namespace DocComment
namespace Comment

open Pattern

/-! ## The patterns of the delimiters -/

/-- The pattern of an opener, with the blanks before it. -/
def openerPattern : Pattern :=
  .sequence [.many Text.isBlank, .literal ['/'], .plus (· == '*')]

/-- The pattern of a closer, with the blanks after it. -/
def closerPattern : Pattern :=
  .sequence [.plus (· == '*'), .literal ['/'], .many Text.isBlank]

/-- The pattern of a complete comment.  The text between the delimiters is group 1, as
short as possible. -/
def blockPattern : Pattern :=
  .sequence [openerPattern, .group 1 (.few fun _ => true), closerPattern]

/-! ## The closer -/

/-- A text is a closer, with blanks after it. -/
def Closes (text : Text) : Prop :=
  ∃ n, Text.trimEnd text = stars (n + 1) ++ ['/']

/-- A closer may have any number of further stars before it and of blanks after it. -/
theorem closes_of_stars {blanks : Text} (h : Text.allBlank blanks = true) (n : Nat) :
    Closes (stars n ++ Token.closer ++ blanks) := by
  have hclose : Text.trimEnd Token.closer = Token.closer := by decide
  have hne : Text.trimEnd Token.closer ≠ [] := by decide
  refine ⟨n, ?_⟩
  rw [Text.trimEnd_append_of_allBlank _ h, Text.trimEnd_append hne, hclose, stars_append_closer]

/-- The whole run of stars in front is taken. -/
theorem takeWhile_stars_append {text : Text} (h : text.head? ≠ some '*') (n : Nat) :
    (stars n ++ text).takeWhile (· == '*') = stars n := by
  refine Text.takeWhile_append_eq ?_ ?_
  · intro c hc
    simp [List.eq_of_mem_replicate hc]
  · intro c hc
    rw [beq_eq_false_iff_ne]
    rintro rfl
    exact h hc

/-- Stars are matched up to the first other character, and a slash and blanks have to
follow them. -/
theorem matchThen_closerPattern {rest : Text} (h : rest.head? ≠ some '*') (n : Nat)
    (groups : Groups) :
    closerPattern.matchThen groups (stars n ++ rest) atEnd =
      if n = 0 then none
      else (Text.after? ['/'] rest).bind fun blanks =>
        if Text.allBlank blanks then some groups else none := by
  have hstop : ∀ blanks : Text, (many Text.isBlank).matchThen groups blanks atEnd =
      if Text.allBlank blanks then some groups else none := by
    intro blanks
    rw [matchThen_many_of_stop fun groups c rest _ => atEnd_cons groups c rest, atEnd]
    simp [Text.allBlank]
  simp only [closerPattern, matchThen_sequence_cons, matchThen_sequence_nil]
  rw [matchThen_plus_of_stop (literal_stop (by decide) _ _), takeWhile_stars_append h,
    matchThen_literal]
  have hdrop := dropStars_stars_append h n
  rw [dropStars] at hdrop
  rw [hdrop]
  simp only [hstop, stars, List.replicate_eq_nil_iff]

/-- The pattern of a closer matches every closer. -/
theorem Closes.matchThen_eq {text : Text} (h : Closes text) (groups : Groups) :
    closerPattern.matchThen groups text atEnd = some groups := by
  rcases h with ⟨n, hn⟩
  rcases Text.exists_eq_trimEnd_append text with ⟨blanks, htext, hblanks⟩
  rw [hn, List.append_assoc] at htext
  rw [htext, matchThen_closerPattern (by simp), if_neg n.succ_ne_zero]
  simp [Text.after?, hblanks]

/-- The pattern of a closer matches nothing else. -/
theorem closes_of_matchThen_ne_none {groups : Groups} {text : Text}
    (h : closerPattern.matchThen groups text atEnd ≠ none) : Closes text := by
  rcases exists_eq_stars_append text with ⟨n, rest, rfl, hrest⟩
  rw [matchThen_closerPattern hrest] at h
  cases n with
  | zero => exact absurd (if_pos rfl) h
  | succ n =>
      rw [if_neg n.succ_ne_zero] at h
      cases hslash : Text.after? ['/'] rest with
      | none =>
          rw [hslash] at h
          contradiction
      | some blanks =>
          rw [hslash, Option.bind_some] at h
          have hblanks : Text.allBlank blanks = true := by
            by_contra hne
            exact h (if_neg hne)
          rw [Text.after?_eq_some_iff.mp hslash, ← List.append_assoc, ← stars_append_closer]
          exact closes_of_stars hblanks n

/-- A text that ends with a closer still does so with a text before it. -/
theorem Closes.trimEnd_append {text : Text} (h : Closes text) (front : Text) :
    ∃ n, Text.trimEnd (front ++ text) = front ++ stars n ++ Token.closer := by
  rcases h with ⟨n, hn⟩
  refine ⟨n, ?_⟩
  rw [Text.trimEnd_append (by simp [hn]), hn, List.append_assoc, stars_append_closer]

/-- A closer starts with the first star of its run. -/
theorem getLast?_of_closes_append {front text : Text} (hne : front ≠ []) (h : Closes text)
    (happend : Closes (front ++ text)) : front.getLast? = some '*' := by
  rcases happend with ⟨m, hm⟩
  rcases h.trimEnd_append front with ⟨n, hn⟩
  rw [hn, List.append_assoc, stars_append_closer, ← List.append_assoc, List.append_left_inj] at hm
  have hlast : front.getLast hne ∈ stars (m + 1) := by
    rw [← hm]
    exact List.mem_append_left _ (List.getLast_mem hne)
  rw [List.getLast?_eq_some_getLast hne, List.eq_of_mem_replicate hlast]

/-- The text before the closer at the end, if there is one.  Blanks may stand after the
closer. -/
def beforeCloser? (text : Text) : Option Text :=
  (Text.before? Token.closer (Text.trimEnd text)).map dropStarsEnd

/-- A text that is kept up to a closer ends at the first place where the closer matches,
so the closer has all the stars before the last slash. -/
theorem matchThen_group_beforeCloser (number : Nat) (groups : Groups) (text : Text) :
    (group number (few fun _ => true)).matchThen groups text
        (fun groups rest => closerPattern.matchThen groups rest atEnd) =
      (beforeCloser? text).map fun word => (number, word) :: groups := by
  rw [matchThen, matchThen, beforeCloser?]
  cases hclose : Text.before? Token.closer (Text.trimEnd text) with
  | none =>
      rw [Option.map_none, Option.map_none, fewThen_eq_none_iff]
      intro word rest htext _
      by_contra hmatch
      rcases (closes_of_matchThen_ne_none hmatch).trimEnd_append word with ⟨n, hn⟩
      rw [← htext] at hn
      rw [Text.before?_eq_some_iff.mpr hn] at hclose
      contradiction
  | some front =>
      rcases exists_eq_append_stars front with ⟨word, n, rfl, hlast⟩
      rcases Text.exists_eq_trimEnd_append text with ⟨blanks, htext, hblanks⟩
      have hcloses : Closes (stars n ++ Token.closer ++ blanks) := closes_of_stars hblanks n
      have hsplit : text = word ++ (stars n ++ Token.closer ++ blanks) := by
        rw [htext, Text.before?_eq_some_iff.mp hclose]
        simp only [List.append_assoc]
      rw [Option.map_some, Option.map_some, dropStarsEnd_append_stars hlast, hsplit]
      refine fewThen_of_first (fun _ _ => rfl) ?_ ?_
      · rw [take_length_sub]
        exact hcloses.matchThen_eq _
      · intro front back hword hne
        by_contra hmatch
        have hback := getLast?_of_closes_append hne hcloses (closes_of_matchThen_ne_none hmatch)
        rw [hword, List.getLast?_append, hback, Option.some_or] at hlast
        exact hlast rfl

/-! ## The opener -/

/-- What comes after the slash and the first star of an opener.  Blanks may stand before
the opener. -/
def afterOpener? (text : Text) : Option Text :=
  Text.after? ['/', '*'] (Text.trimStart text)

/-- The pattern of an opener leaves only the number of its stars open. -/
theorem matchThen_openerPattern {α : Type} (groups : Groups) (text : Text)
    (next : Groups → Text → Option α) :
    openerPattern.matchThen groups text next =
      (afterOpener? text).bind (manyThen (· == '*') (next groups)) := by
  have hstar : ∀ rest : Text, (plus (· == '*')).matchThen groups rest next =
      (Text.after? ['*'] rest).bind (manyThen (· == '*') (next groups)) :=
    fun rest => matchThen_literal ['*'] fun groups rest =>
      (many (· == '*')).matchThen groups rest next
  simp only [openerPattern, matchThen_sequence_cons, matchThen_sequence_nil]
  rw [matchThen_many_of_stop (literal_stop (by decide) _ _), matchThen_literal, afterOpener?,
    Text.trimStart]
  simp only [hstar]
  rw [← Option.bind_assoc, ← Text.after?_append]
  rfl

/-! ## The readers -/

/-- A text loses its opener by the pattern of an opener. -/
theorem dropOpener_eq_of_pattern (text : Text) :
    dropOpener text = ((openerPattern.start? text).map Prod.snd).getD text := by
  have hlongest : ∀ rest : Text,
      manyThen (· == '*') ((fun groups rest => some (groups, rest)) ([] : Groups)) rest =
        some ([], dropStars rest) := by
    intro rest
    exact manyThen_of_ne_none (Option.some_ne_none _)
  rw [start?, matchThen_openerPattern, funext hlongest, dropOpener_eq, ← afterOpener?]
  cases afterOpener? text <;> rfl

/-- A text loses its closer by the pattern of a closer. -/
theorem dropCloser_eq_of_pattern (text : Text) :
    dropCloser text = (closerPattern.beforeEnd? text).getD text := by
  have hfound : closerPattern.beforeEnd? text = beforeCloser? text := by
    rw [beforeEnd?, groups?, found, matchThen_sequence_cons]
    simp only [matchThen_sequence_cons, matchThen_sequence_nil, matchThen_group_beforeCloser]
    cases beforeCloser? text <;> rfl
  rw [hfound, dropCloser_eq]
  rfl

/-- The text between the stars of an opener and the closer at the end. -/
def enclosedAfter? (text : Text) : Option Text :=
  (Text.before? Token.closer (Text.trimEnd text)).map fun inner => dropStarsEnd (dropStars inner)

/-- Where no star stands in front, there is none to drop. -/
theorem enclosedAfter?_of_ne {c : Char} (hc : c ≠ '*') (text : Text) :
    enclosedAfter? (c :: text) = beforeCloser? (c :: text) := by
  rw [enclosedAfter?, beforeCloser?]
  cases hclose : Text.before? Token.closer (Text.trimEnd (c :: text)) with
  | none => rfl
  | some inner =>
      have hhead : inner.head? ≠ some '*' := by
        intro hstar
        rcases List.head?_eq_some_iff.mp hstar with ⟨rest, rfl⟩
        have hprefix := Text.trimEnd_prefix (c :: text)
        rw [Text.before?_eq_some_iff.mp hclose, List.cons_append, List.cons_prefix_cons] at hprefix
        exact hc hprefix.1.symm
      have hstars := dropStars_stars_append hhead 0
      rw [stars, List.replicate_zero, List.nil_append] at hstars
      rw [Option.map_some, Option.map_some, hstars]

/-- A star in front is dropped, unless it belongs to the closer and nothing is left. -/
theorem enclosedAfter?_star (text : Text) :
    enclosedAfter? ('*' :: text) = (enclosedAfter? text).or (beforeCloser? ('*' :: text)) := by
  rw [enclosedAfter?, enclosedAfter?, beforeCloser?, Text.trimEnd_cons (by decide)]
  cases hclose : Text.before? Token.closer (Text.trimEnd text) with
  | some inner =>
      have htrim : '*' :: Text.trimEnd text = ('*' :: inner) ++ Token.closer := by
        rw [Text.before?_eq_some_iff.mp hclose]
        rfl
      rw [Text.before?_eq_some_iff.mpr htrim]
      rfl
  | none =>
      rw [Option.map_none, Option.none_or]
      cases hclose' : Text.before? Token.closer ('*' :: Text.trimEnd text) with
      | none => rfl
      | some inner =>
          have htrim := Text.before?_eq_some_iff.mp hclose'
          cases inner with
          | nil => rfl
          | cons d inner =>
              -- The closer would stand after the star already.
              rw [List.cons_append, List.cons.injEq] at htrim
              rw [Text.before?_eq_some_iff.mpr htrim.2] at hclose
              contradiction

/-- The stars of an opener go on as far as they can.  The last of them is given back when
the closer has no other star, and nothing stands between the two then. -/
theorem manyThen_beforeCloser (text : Text) :
    manyThen (· == '*') beforeCloser? text = enclosedAfter? text := by
  induction text with
  | nil => rfl
  | cons c text ih =>
      by_cases hc : c = '*'
      · subst hc
        rw [manyThen, if_pos (by rfl), ih, enclosedAfter?_star]
      · rw [manyThen, if_neg (by simpa using hc), enclosedAfter?_of_ne hc]

/-- Trimming the end of a comment leaves its opener alone. -/
theorem enclosed?_eq_bind (text : Text) :
    enclosed? text = (afterOpener? text).bind enclosedAfter? := by
  rw [enclosed?_eq]
  cases hopen : afterOpener? text with
  | some rest =>
      have htrim : Text.trim text = ['/', '*'] ++ Text.trimEnd rest := by
        rw [Text.trim, Text.after?_eq_some_iff.mp hopen, List.cons_append, List.cons_append,
          List.nil_append, Text.trimEnd_cons (by decide), Text.trimEnd_cons (by decide)]
        rfl
      rw [Text.after?_eq_some_iff.mpr htrim]
      rfl
  | none =>
      have hnone : Text.after? ['/', '*'] (Text.trim text) = none := by
        rw [Option.eq_none_iff_forall_ne_some]
        intro inner htrim
        rcases Text.trimEnd_prefix (Text.trimStart text) with ⟨rest, hrest⟩
        rw [← Text.trim, Text.after?_eq_some_iff.mp htrim, List.append_assoc] at hrest
        rw [afterOpener?, Text.after?_eq_some_iff.mpr hrest.symm] at hopen
        contradiction
      rw [hnone]
      rfl

/-- The text between the delimiters of a complete comment is what the pattern keeps. -/
theorem enclosed?_eq_groups (text : Text) :
    enclosed? text = (blockPattern.groups? text).bind (List.lookup 1) := by
  have hgroups : blockPattern.groups? text =
      ((afterOpener? text).bind enclosedAfter?).map fun word => [(1, word)] := by
    have hstars : ∀ rest : Text,
        manyThen (· == '*') (fun rest => (beforeCloser? rest).map fun word => [(1, word)]) rest =
          (enclosedAfter? rest).map fun word => [(1, word)] := by
      intro rest
      rw [manyThen_map, manyThen_beforeCloser]
    rw [groups?, blockPattern, matchThen_sequence_cons, matchThen_openerPattern, Option.map_bind]
    simp only [matchThen_sequence_cons, matchThen_sequence_nil, matchThen_group_beforeCloser]
    rw [funext hstars]
    rfl
  rw [hgroups, enclosed?_eq_bind]
  cases (afterOpener? text).bind enclosedAfter? <;> rfl

/-- The opener and the closer have one star between them here, which the opener gives
back. -/
example : (blockPattern.groups? " /***/\n".toList).bind (List.lookup 1) = some [] := by
  decide

/-- The body of a comment, read with the patterns of its delimiters: what the pattern of a
complete comment keeps, or else what the patterns of the opener and the closer leave. -/
theorem body_eq_of_patterns (raw : Text) :
    body raw = ((blockPattern.groups? raw).bind (List.lookup 1)).getD
      (let opened := ((openerPattern.start? raw).map Prod.snd).getD raw
       (closerPattern.beforeEnd? opened).getD opened) := by
  rw [body, enclosed?_eq_groups, dropOpener_eq_of_pattern, dropCloser_eq_of_pattern]
  cases (blockPattern.groups? raw).bind (List.lookup 1) <;> rfl

/-! ## The named line -/

/-- The pattern of a line that opens with a name and a colon.  The name is group 1, and
the text after the colon is group 2. -/
def namedPattern : Pattern :=
  .sequence [.group 1 (.seq (.one Text.isIdentStart) (.many Text.isNamePart)), .literal [':'],
    Tag.remainderPattern 2]

/-- The name and the text that the groups of a named line keep.  A text that is left out
is empty. -/
def namedOfGroups? (groups : Groups) : Option (Text × Text) :=
  (groups.lookup 1).map fun name => (name, (groups.lookup 2).getD [])

/-- What the groups keep after a name: the remainder of the line. -/
theorem bind_namedOfGroups? (name text : Text) :
    ((Tag.remainderPattern 2).matchThen [(1, name)] text atEnd).bind namedOfGroups? =
      (Text.remainder? text).map fun rest => (name, rest) := by
  rw [Tag.matchThen_remainderPattern]
  cases hrest : Text.remainder? text with
  | none => rfl
  | some rest =>
      cases text with
      | nil =>
          cases hrest
          rfl
      | cons c text =>
          rw [Option.map_some, if_neg (List.cons_ne_nil c text)]
          rfl

/-- A name is read by its first character and the characters that may follow, and the
colon stands right after it. -/
theorem namedLine?_cons (c : Char) (rest : Text) :
    namedLine? (c :: rest) =
      if Text.isIdentStart c then
        (Text.after? [':'] (rest.dropWhile Text.isNamePart)).bind fun after =>
          (Text.remainder? after).map fun text => (c :: rest.takeWhile Text.isNamePart, text)
      else none := by
  by_cases hstart : Text.isIdentStart c = true
  · have hpart : Text.isNamePart c = true := by
      simp [Text.isNamePart, Text.isIdentPart, hstart]
    have hname : Text.isRecordName (c :: rest.takeWhile Text.isNamePart) = true := by
      simp [Text.isRecordName, hstart]
    simp only [namedLine?, List.takeWhile_cons_of_pos hpart, List.dropWhile_cons_of_pos hpart,
      hname, if_true, hstart]
    rcases rest.dropWhile Text.isNamePart with _ | ⟨d, after⟩
    · rfl
    · by_cases hd : d = ':'
      · simp [Text.after?, hd]
      · have hne : ':' ≠ d := fun h => hd h.symm
        simp [Text.after?, hne, hd]
  · have hname : Text.isRecordName ((c :: rest).takeWhile Text.isNamePart) = false := by
      rw [List.takeWhile_cons]
      split
      · simp [Text.isRecordName, hstart]
      · rfl
    rw [if_neg hstart]
    simp only [namedLine?, hname]
    split <;> rfl

/-- The name on a line and the text after it are what the groups of the pattern keep. -/
theorem namedLine?_eq_groups (line : Text) :
    namedLine? line = (namedPattern.groups? line).bind namedOfGroups? := by
  cases line with
  | nil => rfl
  | cons c rest =>
      rw [groups?, namedPattern, namedLine?_cons]
      simp only [matchThen_sequence_cons, matchThen_sequence_nil]
      rw [matchThen_group_word_of_stop (literal_stop (by decide) _ _), matchThen_literal]
      split
      · simp only [Option.bind_assoc, bind_namedOfGroups?]
      · rfl

end Comment
end DocComment
