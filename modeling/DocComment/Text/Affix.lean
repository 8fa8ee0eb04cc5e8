import DocComment.Text.Blank

/-!
# Fixed text at the ends

Readers recognise fixed spellings at the start or at the end of a text.  Each
function gives what is left of the text and is pinned down by one equation.
-/

namespace DocComment
namespace Text

/-- What comes after a fixed text at the start. -/
def after? : Text → Text → Option Text
  | [], text => some text
  | _ :: _, [] => none
  | a :: lead, b :: text => if a = b then after? lead text else none

/-- What comes before a fixed text at the end. -/
def before? (tail text : Text) : Option Text :=
  (after? tail.reverse text.reverse).map List.reverse

/-- What comes after a fixed text is the rest of the text that it starts. -/
theorem after?_eq_some_iff {lead text rest : Text} :
    after? lead text = some rest ↔ text = lead ++ rest := by
  fun_induction after? lead text with
  | case1 text => simp
  | case2 a lead => simp
  | case3 lead b text ih => simp [ih]
  | case4 a lead b text h =>
    simp only [reduceCtorEq, List.cons_append, List.cons.injEq, false_iff, not_and]
    exact fun hab => absurd hab.symm h

/-- What comes before a fixed text is the rest of the text that it ends. -/
theorem before?_eq_some_iff {tail text rest : Text} :
    before? tail text = some rest ↔ text = rest ++ tail := by
  simp only [before?, Option.map_eq_some_iff, after?_eq_some_iff]
  constructor
  · rintro ⟨back, hback, rfl⟩
    have := congrArg List.reverse hback
    simpa using this
  · rintro rfl
    exact ⟨rest.reverse, by simp, by simp⟩

end Text
end DocComment
