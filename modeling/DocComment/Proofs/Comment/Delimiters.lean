import DocComment.Comment.Body
import DocComment.Proofs.Source.Agreement
import DocComment.Proofs.Text.Trimmed

/-!
# The delimiters of scanned comments

The scan that finds block comments and the reader that takes their delimiters
away mean the same delimiters.  A comment that is closed loses its two slashes
and the whole run of stars next to each, and one that runs to the end of its
source loses its opener and nothing else.

Main results:

- Theorem `Comment.Encloses.body_eq`: what a closed comment encloses is its body,
  whatever the number of its stars and the blanks around it.
- Theorem `Comment.body_eq_of_unclosed`: an unclosed comment loses its opener only.
- Theorem `Comment.body_of_mem_blockComments`: the two cases for every comment that
  the scan finds.
-/

namespace DocComment

/-! ## Blanks around a text -/

namespace Text

variable {text before after : Text} {c : Char}

/-- A character that is not blank stays in front when the end is trimmed. -/
theorem trimEnd_cons (h : isBlank c = false) (text : Text) :
    trimEnd (c :: text) = c :: trimEnd text := by
  rw [trimEnd, List.reverse_cons, List.dropWhile_append]
  split
  · rename_i hempty
    simp [trimEnd, List.isEmpty_iff.mp hempty, h]
  · simp [trimEnd]

/-- Trimming the end leaves a prefix. -/
theorem trimEnd_prefix (text : Text) : trimEnd text <+: text := by
  rw [← List.reverse_suffix, trimEnd, List.reverse_reverse]
  exact List.dropWhile_suffix isBlank

/-- Blanks in front are trimmed away. -/
theorem trimStart_append_of_allBlank (h : allBlank before = true) (text : Text) :
    trimStart (before ++ text) = trimStart text :=
  List.dropWhile_append_of_pos (List.all_eq_true.mp h)

/-- Blanks at the end are trimmed away. -/
theorem trimEnd_append_of_allBlank (text : Text) (h : allBlank after = true) :
    trimEnd (text ++ after) = trimEnd text := by
  rw [trimEnd, List.reverse_append, List.dropWhile_append_of_pos]
  · rfl
  · intro c hc
    exact List.all_eq_true.mp h c (List.mem_reverse.mp hc)

/-- Blanks at the end of a text are trimmed away, also when nothing else is left. -/
theorem trim_append_of_allBlank (text : Text) (h : allBlank after = true) :
    trim (text ++ after) = trim text := by
  rw [trim, trim, trimStart, trimStart, List.dropWhile_append]
  split
  · rename_i hempty
    have hafter : after.dropWhile isBlank = [] := by
      simpa [trimStart] using trimStart_append_of_allBlank h []
    rw [hafter, List.isEmpty_iff.mp hempty]
  · exact trimEnd_append_of_allBlank _ h

/-- Blanks around a text are trimmed away. -/
theorem trim_surrounded (text : Text) (hbefore : allBlank before = true)
    (hafter : allBlank after = true) : trim (before ++ text ++ after) = trim text := by
  rw [trim_append_of_allBlank _ hafter, trim, trim, trimStart_append_of_allBlank hbefore]

end Text

namespace Comment

/-! ## Delimiters as fixed texts -/

/-- The text between the delimiters by the fixed texts at both ends. -/
theorem enclosed?_eq (raw : Text) :
    enclosed? raw = (Text.after? ['/', '*'] (Text.trim raw)).bind fun inner =>
      (Text.before? ['*', '/'] inner).map fun text => dropStarsEnd (dropStars text) := by
  unfold enclosed?
  split
  · rename_i inner htrim
    rw [htrim]
    rfl
  · rename_i hother
    have hnone : Text.after? ['/', '*'] (Text.trim raw) = none := by
      rw [Option.eq_none_iff_forall_ne_some]
      intro inner hinner
      exact hother inner (Text.after?_eq_some_iff.mp hinner)
    rw [hnone]
    rfl

/-- Dropping an opener by the fixed text at the start. -/
theorem dropOpener_eq (raw : Text) :
    dropOpener raw =
      ((Text.after? ['/', '*'] (Text.trimStart raw)).map dropStars).getD raw := by
  unfold dropOpener
  split
  · rename_i rest htrim
    rw [htrim]
    rfl
  · rename_i hother
    have hnone : Text.after? ['/', '*'] (Text.trimStart raw) = none := by
      rw [Option.eq_none_iff_forall_ne_some]
      intro rest hrest
      exact hother rest (Text.after?_eq_some_iff.mp hrest)
    rw [hnone]
    rfl

/-- Dropping a closer by the fixed text at the end. -/
theorem dropCloser_eq (raw : Text) :
    dropCloser raw =
      ((Text.before? ['*', '/'] (Text.trimEnd raw)).map dropStarsEnd).getD raw := by
  unfold dropCloser
  split
  · rename_i rest hrest
    rw [hrest]
    rfl
  · rename_i hnone
    rw [hnone]
    rfl

/-! ## Runs of stars -/

/-- A run of stars. -/
def stars (n : Nat) : Text :=
  List.replicate n '*'

/-- The whole run of stars in front is dropped. -/
theorem dropStars_stars_append {text : Text} (h : text.head? ≠ some '*') (n : Nat) :
    dropStars (stars n ++ text) = text := by
  refine Text.dropWhile_append_eq ?_ ?_
  · intro c hc
    simp [List.eq_of_mem_replicate hc]
  · intro c hc
    simp only [beq_eq_false_iff_ne]
    rintro rfl
    exact h hc

/-- The whole run of stars at the end is dropped. -/
theorem dropStarsEnd_append_stars {text : Text} (h : text.getLast? ≠ some '*') (n : Nat) :
    dropStarsEnd (text ++ stars n) = text := by
  have hhead : text.reverse.head? ≠ some '*' := by rwa [List.head?_reverse]
  have hreverse := dropStars_stars_append hhead n
  rw [dropStarsEnd, List.reverse_append, stars, List.reverse_replicate]
  exact List.reverse_eq_iff.mpr hreverse

/-- A closer has the last star of a run before it. -/
theorem stars_append_closer (n : Nat) : stars n ++ Token.closer = stars (n + 1) ++ ['/'] := by
  rw [stars, stars, List.replicate_succ', List.append_assoc]
  rfl

/-- Every text is a run of stars and a rest that starts with none. -/
theorem exists_eq_stars_append (text : Text) :
    ∃ n rest, text = stars n ++ rest ∧ rest.head? ≠ some '*' := by
  induction text with
  | nil => exact ⟨0, [], rfl, by simp⟩
  | cons c text ih =>
      by_cases hc : c = '*'
      · rcases ih with ⟨n, rest, rfl, hrest⟩
        exact ⟨n + 1, rest, by rw [hc]; rfl, hrest⟩
      · exact ⟨0, c :: text, rfl, by simpa using hc⟩

/-- Every text is one that ends with no star, and a run of stars. -/
theorem exists_eq_append_stars (text : Text) :
    ∃ rest n, text = rest ++ stars n ∧ rest.getLast? ≠ some '*' := by
  rcases exists_eq_stars_append text.reverse with ⟨n, rest, hrest, hhead⟩
  refine ⟨rest.reverse, n, ?_, by rwa [List.getLast?_reverse]⟩
  rw [← List.reverse_reverse text, hrest, List.reverse_append, stars, List.reverse_replicate]

/-! ## Closed comments -/

/-- Neither the first nor the last character is a star. -/
structure Bare (inner : Text) : Prop where
  first : inner.head? ≠ some '*'
  last : inner.getLast? ≠ some '*'

/-- A comment is a slash, a run of at least one star, an inner text, another such
run and a slash.  The inner text neither starts nor ends with a star, so the runs
are as long as they go; when only stars stand between the slashes it is empty. -/
def Encloses (comment inner : Text) : Prop :=
  Bare inner ∧ ∃ m n, comment = '/' :: (stars (m + 1) ++ inner ++ stars (n + 1) ++ ['/'])

/-- The last star of each run belongs to a delimiter of two characters. -/
theorem delimited_eq (m n : Nat) (inner : Text) :
    '/' :: (stars (m + 1) ++ inner ++ stars (n + 1) ++ ['/']) =
      '/' :: '*' :: (stars m ++ inner ++ stars n ++ Token.closer) := by
  rw [List.append_assoc, ← stars_append_closer, ← List.append_assoc]
  rfl

/-- A comment has a closer wholly after its opener. -/
def Closed (comment : Text) : Prop :=
  ∃ front, 2 ≤ front.length ∧ comment = front ++ Token.closer

/-- Taking the stars off both ends leaves the inner text. -/
theorem dropStarsEnd_dropStars {inner : Text} (h : Bare inner) (m n : Nat) :
    dropStarsEnd (dropStars (stars m ++ inner ++ stars n)) = inner := by
  cases inner with
  | nil =>
      have hstars : stars m ++ [] ++ stars n = stars (m + n) ++ [] := by
        simp [stars, List.replicate_append_replicate]
      rw [hstars, dropStars_stars_append (by simp)]
      rfl
  | cons c inner =>
      have hhead : (c :: inner ++ stars n).head? ≠ some '*' := h.first
      rw [List.append_assoc, dropStars_stars_append hhead, dropStarsEnd_append_stars h.last]

/-- What a comment encloses is its body, whatever the blanks around it. -/
theorem Encloses.body_eq {comment inner before after : Text} (h : Encloses comment inner)
    (hbefore : Text.allBlank before = true) (hafter : Text.allBlank after = true) :
    body (before ++ comment ++ after) = inner := by
  rcases h with ⟨hbare, m, n, rfl⟩
  have hslash : Text.Trimmed ['/'] := by decide
  have htrimmed : Text.Trimmed ('/' :: (stars (m + 1) ++ inner ++ stars (n + 1) ++ ['/'])) :=
    hslash.append_append (by simp) hslash (by simp) (stars (m + 1) ++ inner ++ stars (n + 1))
  rw [body, enclosed?, Text.trim_surrounded _ hbefore hafter, htrimmed.trim_eq, delimited_eq]
  have hcloser := Text.before?_eq_some_iff.mpr (rfl : stars m ++ inner ++ stars n ++ Token.closer = _)
  simp only [Token.closer] at hcloser ⊢
  simp only [hcloser, Option.map_some, dropStarsEnd_dropStars hbare]

/-- A closed comment encloses a text. -/
theorem Closed.exists_encloses {inner : Text} (h : Closed ('/' :: '*' :: inner)) :
    ∃ text, Encloses ('/' :: '*' :: inner) text := by
  rcases h with ⟨front, hlength, hfront⟩
  rcases front with _ | ⟨c, _ | ⟨d, front⟩⟩
  · simp at hlength
  · simp at hlength
  · simp only [List.cons_append, List.cons.injEq] at hfront
    rcases hfront with ⟨_, _, rfl⟩
    rcases exists_eq_stars_append front with ⟨m, rest, rfl, hrest⟩
    rcases exists_eq_append_stars rest with ⟨text, n, rfl, hlast⟩
    have hfirst : text.head? ≠ some '*' := by
      cases text with
      | nil => simp
      | cons c text => exact hrest
    refine ⟨text, ⟨hfirst, hlast⟩, m, n, ?_⟩
    rw [delimited_eq, ← List.append_assoc (stars m)]

/-! ## Unclosed comments -/

/-- A comment is a slash, a run of at least one star and a rest, which does not
start with a star. -/
def Opens (comment rest : Text) : Prop :=
  rest.head? ≠ some '*' ∧ ∃ m, comment = '/' :: (stars (m + 1) ++ rest)

/-- No closer is taken off a text that holds none. -/
theorem before?_closer_eq_none {text front : Text} (h : ¬ Token.closer <:+: text)
    (hfront : front <+: text) : Text.before? Token.closer front = none := by
  rw [Option.eq_none_iff_forall_ne_some]
  intro rest hrest
  have hsuffix : Token.closer <:+ front := ⟨rest, (Text.before?_eq_some_iff.mp hrest).symm⟩
  exact h (hsuffix.isInfix.trans hfront.isInfix)

/-- A comment without a closer loses its opener and nothing at its end. -/
theorem body_eq_of_unclosed {inner rest : Text} (h : ¬ Token.closer <:+: inner)
    (hrest : Opens ('/' :: '*' :: inner) rest) : body ('/' :: '*' :: inner) = rest := by
  rcases hrest with ⟨hhead, m, hcomment⟩
  have hinner : inner = stars m ++ rest := by simpa [stars, List.replicate_succ] using hcomment
  have hstart : Text.trimStart ('/' :: '*' :: inner) = '/' :: '*' :: inner := by
    rw [Text.trimStart_eq_self_iff]
    rintro c ⟨⟩
    decide
  have htrim : Text.trim ('/' :: '*' :: inner) = '/' :: '*' :: Text.trimEnd inner := by
    rw [Text.trim, hstart, Text.trimEnd_cons (by decide), Text.trimEnd_cons (by decide)]
  have henclosed : enclosed? ('/' :: '*' :: inner) = none := by
    have hnone := before?_closer_eq_none h (Text.trimEnd_prefix inner)
    simp only [Token.closer] at hnone
    simp only [enclosed?, htrim, hnone, Option.map_none]
  have hopener : dropOpener ('/' :: '*' :: inner) = rest := by
    simp only [dropOpener, hstart]
    rw [hinner, dropStars_stars_append hhead]
  have hcloser : dropCloser rest = rest := by
    have hrest : ¬ Token.closer <:+: rest := by
      intro hinfix
      exact h (hinner ▸ hinfix.trans (List.suffix_append (stars m) rest).isInfix)
    have hnone := before?_closer_eq_none hrest (Text.trimEnd_prefix rest)
    simp only [Token.closer] at hnone
    simp only [dropCloser, hnone]
  rw [body, henclosed]
  simp only [hopener, hcloser]

/-! ## Scanned comments -/

/-- A comment that the scan finds starts with an opener, and it is closed unless
no closer follows the opener. -/
theorem exists_of_mem_blockComments {source comment : Text}
    (h : comment ∈ Source.blockComments source) :
    ∃ inner, comment = '/' :: '*' :: inner ∧ (Closed comment ∨ ¬ Token.closer <:+: inner) := by
  rw [Source.blockComments_eq_blocks, Token.blocks, List.mem_filterMap] at h
  rcases h with ⟨token, hmem, htoken⟩
  cases token with
  | block text =>
      cases htoken
      rcases Token.exists_precedes_of_mem_lex hmem with ⟨rest, inner, rfl, hends⟩
      refine ⟨inner, rfl, ?_⟩
      cases hends with
      | closed inner _ _ => exact .inl ⟨'/' :: '*' :: inner, by simp, rfl⟩
      | unclosed _ hnone => exact .inr hnone
  | _ => contradiction

/-- The delimiters that the scan finds are those that are taken away. -/
theorem body_of_mem_blockComments {source comment : Text}
    (h : comment ∈ Source.blockComments source) :
    (Closed comment → ∃ inner, Encloses comment inner ∧
      ∀ comment' before after, Encloses comment' inner → Text.allBlank before = true →
        Text.allBlank after = true → body (before ++ comment' ++ after) = inner) ∧
      (¬ Closed comment → ∃ rest, Opens comment rest ∧ body comment = rest) := by
  rcases exists_of_mem_blockComments h with ⟨inner, rfl, hend⟩
  constructor
  · intro hclosed
    rcases hclosed.exists_encloses with ⟨text, htext⟩
    exact ⟨text, htext, fun _ _ _ henclosed hbefore hafter => henclosed.body_eq hbefore hafter⟩
  · intro hopen
    rcases exists_eq_stars_append inner with ⟨m, rest, hinner, hhead⟩
    have hopens : Opens ('/' :: '*' :: inner) rest := ⟨hhead, m, by rw [hinner]; rfl⟩
    exact ⟨rest, hopens, body_eq_of_unclosed (hend.resolve_left hopen) hopens⟩

/-- A closer cannot share the star of its opener: the first of these comments goes
on to the next closer, the second is never closed. -/
theorem body_slashedComments :
    Source.blockComments "/*/ x **/ '/*' /*/".toList = ["/*/ x **/".toList, "/*/".toList] ∧
      (∃ inner, Encloses "/*/ x **/".toList inner ∧ body " /*/ x **/\n".toList = inner) ∧
      ∃ rest, Opens "/*/".toList rest ∧ body "/*/".toList = rest := by
  have hscan : Source.blockComments "/*/ x **/ '/*' /*/".toList =
      ["/*/ x **/".toList, "/*/".toList] := by decide +kernel
  have hmem : "/*/ x **/".toList ∈ Source.blockComments "/*/ x **/ '/*' /*/".toList := by
    rw [hscan]
    exact List.mem_cons_self
  have hmem' : "/*/".toList ∈ Source.blockComments "/*/ x **/ '/*' /*/".toList := by
    rw [hscan]
    exact List.mem_cons_of_mem _ List.mem_cons_self
  have hclosed : Closed "/*/ x **/".toList := ⟨"/*/ x *".toList, by decide, rfl⟩
  have hopen : ¬ Closed "/*/".toList := by
    rintro ⟨front, hlength, hfront⟩
    have hsize := congrArg List.length hfront
    simp [Token.closer] at hsize
    omega
  rcases (body_of_mem_blockComments hmem).1 hclosed with ⟨inner, hinner, hbody⟩
  exact ⟨hscan, ⟨inner, hinner, hbody _ [' '] ['\n'] hinner (by decide) (by decide)⟩,
    (body_of_mem_blockComments hmem').2 hopen⟩

end Comment
end DocComment
