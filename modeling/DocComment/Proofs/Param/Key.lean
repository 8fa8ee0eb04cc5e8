import DocComment.Param.Draft
import DocComment.Proofs.Text.Trimmed

/-!
# Path texts as keys

A draft finds its cells by the text of their path.  This module shows that the
texts keep apart what the paths keep apart: below different properties of one
place, and below its items and its properties, lie different texts.

Main results:

- Theorem `FieldPath.Readable.named`: the steps of a path that was read have
  identifiers for names.
- Theorem `Key.eq_of_below_extend`: no text lies below two properties of one
  place.
- Theorem `Key.not_below_extend_of_below_brackets`: no text lies below the items
  and below a property of one place.
-/

namespace DocComment

/-! ## Steps of paths that were read -/

/-- A step that was read has an identifier for its name. -/
theorem Step.isIdentifier_of_parse? {text : Text} {step : Step}
    (h : Step.parse? text = some step) : Text.isIdentifier step.name = true := by
  unfold Step.parse? at h
  split at h <;> split at h
  · rename_i hname
    cases h
    exact hname
  · contradiction
  · rename_i hname
    cases h
    exact hname
  · contradiction

namespace FieldPath

/-- Every step of the path has an identifier for its name. -/
def Named (path : FieldPath) : Prop :=
  ∀ step ∈ path, Text.isIdentifier step.name = true

/-- The path is the reading of some text. -/
def Readable (path : FieldPath) : Prop :=
  ∃ text, parse? text = some path

/-- The steps of a path that was read have identifiers for names. -/
theorem named_of_mapM_parse? {texts : List Text} {path : FieldPath}
    (h : texts.mapM Step.parse? = some path) : path.Named := by
  induction texts generalizing path with
  | nil =>
      simp only [List.mapM_nil, Option.pure_def, Option.some.injEq] at h
      subst path
      intro step hstep
      simp at hstep
  | cons text texts ih =>
      simp only [List.mapM_cons, Option.bind_eq_bind, Option.bind_eq_some_iff,
        Option.pure_def, Option.some.injEq] at h
      rcases h with ⟨first, hfirst, rest, hrest, rfl⟩
      intro step hstep
      rcases List.mem_cons.mp hstep with rfl | hstep
      · exact Step.isIdentifier_of_parse? hfirst
      · exact ih hrest step hstep

/-- The steps of a path that was read have identifiers for names. -/
theorem Readable.named {path : FieldPath} (h : path.Readable) : path.Named := by
  rcases h with ⟨text, htext⟩
  exact named_of_mapM_parse? htext

end FieldPath

/-! ## Identifiers and separators -/

/-- Every character of an identifier may continue one. -/
theorem Text.isIdentPart_of_mem {name : Text} (hname : Text.isIdentifier name = true)
    {c : Char} (hc : c ∈ name) : Text.isIdentPart c = true := by
  cases name with
  | nil => simp at hc
  | cons d rest =>
      simp only [Text.isIdentifier, Bool.and_eq_true, List.all_eq_true] at hname
      rcases List.mem_cons.mp hc with rfl | hc
      · simp [Text.isIdentPart, hname.1]
      · exact hname.2 c hc

theorem Text.ne_nil_of_isIdentifier {name : Text} (hname : Text.isIdentifier name = true) :
    name ≠ [] := by
  rintro rfl
  simp [Text.isIdentifier] at hname

namespace Key

/-- A character that ends a name inside a path text. -/
def isSeparator (c : Char) : Bool :=
  c == '.' || c == '['

/-- No separator may continue an identifier. -/
theorem isIdentPart_of_isSeparator {c : Char} (hc : isSeparator c = true) :
    Text.isIdentPart c = false := by
  simp only [isSeparator, Bool.or_eq_true, beq_iff_eq] at hc
  rcases hc with rfl | rfl <;> decide

/-- A continuation of a path text: nothing, or a text that starts with a
separator. -/
def Continues (rest : Text) : Prop :=
  ∀ c ∈ rest.head?, isSeparator c = true

/-- Names before continuations are read back: the identifier ends where the
continuation starts. -/
theorem takeWhile_isIdentPart_append {name rest : Text} (hname : Text.isIdentifier name = true)
    (hrest : Continues rest) : (name ++ rest).takeWhile Text.isIdentPart = name := by
  refine Text.takeWhile_append_eq (fun c hc => Text.isIdentPart_of_mem hname hc) ?_
  intro c hc
  exact isIdentPart_of_isSeparator (hrest c hc)

/-! ## Texts below a text -/

/-- The path text is the given one or leads on from it. -/
def Below (key text : Text) : Prop :=
  ∃ rest, text = key ++ rest ∧ Continues rest

theorem Below.refl (key : Text) : Below key key :=
  ⟨[], by simp, by simp [Continues]⟩

/-- What lies below a text that lies below another lies below both. -/
theorem Below.trans {key middle text : Text} (h : Below key middle) (h' : Below middle text) :
    Below key text := by
  rcases h with ⟨rest, rfl, hrest⟩
  rcases h' with ⟨rest', rfl, hrest'⟩
  refine ⟨rest ++ rest', List.append_assoc .., ?_⟩
  cases rest with
  | nil => exact hrest'
  | cons c rest => exact hrest

/-- The items of a path text lie below it. -/
theorem below_brackets (key : Text) : Below key (key ++ brackets) :=
  ⟨brackets, rfl, by simp [Continues, brackets, isSeparator]⟩

/-- The part of the path text of a property that comes before its name. -/
def lead (key : Text) : Text :=
  if key.isEmpty then [] else key ++ ['.']

/-- A path text is extended by its lead and the name. -/
theorem extend_eq (key name : Text) : Draft.extend key name = lead key ++ name := by
  unfold Draft.extend lead
  split <;> simp

/-- The properties of a path text lie below it. -/
theorem below_extend {key : Text} (hkey : key ≠ []) (name : Text) :
    Below key (Draft.extend key name) := by
  refine ⟨'.' :: name, ?_, by simp [Continues, isSeparator]⟩
  simp [Draft.extend, hkey]

theorem extend_ne_nil (key : Text) {name : Text} (hname : Text.isIdentifier name = true) :
    Draft.extend key name ≠ [] := by
  simp [extend_eq, Text.ne_nil_of_isIdentifier hname]

/-- No text lies below two properties of one place. -/
theorem eq_of_below_extend {key name name' text : Text}
    (hname : Text.isIdentifier name = true) (hname' : Text.isIdentifier name' = true)
    (h : Below (Draft.extend key name) text) (h' : Below (Draft.extend key name') text) :
    name = name' := by
  rcases h with ⟨rest, rfl, hrest⟩
  rcases h' with ⟨rest', heq, hrest'⟩
  rw [extend_eq, extend_eq, List.append_assoc, List.append_assoc,
    List.append_right_inj] at heq
  rw [← takeWhile_isIdentPart_append hname hrest, heq,
    takeWhile_isIdentPart_append hname' hrest']

/-- No text lies below the items and below a property of one place. -/
theorem not_below_extend_of_below_brackets {key name text : Text} (hkey : key ≠ [])
    (h : Below (key ++ brackets) text) : ¬ Below (Draft.extend key name) text := by
  rintro ⟨rest', heq, _⟩
  rcases h with ⟨rest, rfl, _⟩
  simp [extend_eq, lead, hkey, brackets] at heq

theorem below_of_eq {key text : Text} (h : text = key) : Below key text :=
  h ▸ Below.refl text

/-- A place does not lie below its properties. -/
theorem not_below_extend_self {key name : Text} (hname : Text.isIdentifier name = true) :
    ¬ Below (Draft.extend key name) key := by
  rintro ⟨rest, heq, _⟩
  have hlength := congrArg List.length heq
  have hpos := List.length_pos_iff.mpr (Text.ne_nil_of_isIdentifier hname)
  have hlead : key.length ≤ (lead key).length := by
    unfold lead
    split
    · rename_i hempty
      simp [List.isEmpty_iff.mp hempty]
    · simp
  simp only [extend_eq, List.length_append] at hlength
  omega

/-- A place does not lie below its items. -/
theorem not_below_brackets_self (key : Text) : ¬ Below (key ++ brackets) key := by
  rintro ⟨rest, heq, _⟩
  have hlength := congrArg List.length heq
  simp only [brackets, List.length_append, List.length_cons, List.length_nil] at hlength
  omega

end Key
end DocComment
