import DocComment.Command.PathName

/-!
# The order of paths

Paths are compared by their components, and names by their characters: two
lexicographic orders, one inside the other.  Both are linear, so sorting puts the
paths of a run into ascending order, and after that all spellings of one path
stand side by side.

Main results:

- Theorem `LinearLe.lexLe`: the lexicographic order of a linear order is linear.
- Theorem `PathName.linearLe_componentsLe`: lists of components are ordered
  linearly.
- Theorem `PathName.ascending_sortDistinct`: the sorted paths are strictly
  ascending.
- Theorem `PathName.exists_mem_sortDistinct_iff`: the sorted paths are those that
  were given, each in one of its spellings.
- Theorem `PathName.map_components_eq`: strictly ascending paths are determined up to
  their spelling by the paths they hold.
-/

namespace DocComment
namespace Command

/-! ## Linear orders -/

/-- A comparison that puts all values in one line. -/
structure LinearLe {α : Type} (le : α → α → Bool) : Prop where
  total : ∀ a b, (le a b || le b a) = true
  trans : ∀ a b c, le a b = true → le b c = true → le a c = true
  antisymm : ∀ a b, le a b = true → le b a = true → a = b

section Lexicographic

variable {α : Type} [DecidableEq α] {le : α → α → Bool}

/-- Lists by their first difference. -/
def lexLe (le : α → α → Bool) : List α → List α → Bool
  | [], _ => true
  | _ :: _, [] => false
  | a :: rest, b :: rest' => if a = b then lexLe le rest rest' else le a b

/-- Equal heads are passed over. -/
theorem lexLe_cons_self (a : α) (rest rest' : List α) :
    lexLe le (a :: rest) (a :: rest') = lexLe le rest rest' := by
  rw [lexLe, if_pos rfl]

/-- The first difference decides. -/
theorem lexLe_cons_of_ne {a b : α} (h : a ≠ b) (rest rest' : List α) :
    lexLe le (a :: rest) (b :: rest') = le a b := by
  rw [lexLe, if_neg h]

/-- Of two lists one comes first. -/
theorem LinearLe.total_lexLe (h : LinearLe le) (as bs : List α) :
    (lexLe le as bs || lexLe le bs as) = true := by
  induction as generalizing bs with
  | nil => rfl
  | cons a as ih =>
      cases bs with
      | nil => rfl
      | cons b bs =>
          by_cases hab : a = b
          · subst hab
            rw [lexLe_cons_self, lexLe_cons_self]
            exact ih bs
          · rw [lexLe_cons_of_ne hab, lexLe_cons_of_ne (Ne.symm hab)]
            exact h.total a b

/-- The order of lists is transitive. -/
theorem LinearLe.trans_lexLe (h : LinearLe le) (as bs cs : List α)
    (hab : lexLe le as bs = true) (hbc : lexLe le bs cs = true) : lexLe le as cs = true := by
  induction as generalizing bs cs with
  | nil => rfl
  | cons a as ih =>
      cases bs with
      | nil => cases hab
      | cons b bs =>
          cases cs with
          | nil => cases hbc
          | cons c cs =>
              by_cases hac : a = c
              · subst hac
                by_cases hne : a = b
                · subst hne
                  rw [lexLe_cons_self] at hab hbc ⊢
                  exact ih bs cs hab hbc
                · -- Two heads that are below each other would be equal.
                  rw [lexLe_cons_of_ne hne] at hab
                  rw [lexLe_cons_of_ne (Ne.symm hne)] at hbc
                  exact absurd (h.antisymm a b hab hbc) hne
              · rw [lexLe_cons_of_ne hac]
                by_cases hne : a = b
                · subst hne
                  rwa [lexLe_cons_of_ne hac] at hbc
                · rw [lexLe_cons_of_ne hne] at hab
                  by_cases hne' : b = c
                  · exact hne' ▸ hab
                  · rw [lexLe_cons_of_ne hne'] at hbc
                    exact h.trans a b c hab hbc

/-- Lists of which each comes before the other are equal. -/
theorem LinearLe.antisymm_lexLe (h : LinearLe le) (as bs : List α)
    (hab : lexLe le as bs = true) (hba : lexLe le bs as = true) : as = bs := by
  induction as generalizing bs with
  | nil =>
      cases bs with
      | nil => rfl
      | cons b bs => cases hba
  | cons a as ih =>
      cases bs with
      | nil => cases hab
      | cons b bs =>
          by_cases hne : a = b
          · subst hne
            rw [lexLe_cons_self] at hab hba
            rw [ih bs hab hba]
          · rw [lexLe_cons_of_ne hne] at hab
            rw [lexLe_cons_of_ne (Ne.symm hne)] at hba
            exact absurd (h.antisymm a b hab hba) hne

/-- The lexicographic order of a linear order is linear. -/
theorem LinearLe.lexLe (h : LinearLe le) : LinearLe (lexLe le) where
  total := h.total_lexLe
  trans := h.trans_lexLe
  antisymm := h.antisymm_lexLe

end Lexicographic

namespace PathName

/-! ## Texts and components -/

/-- Characters by their code points. -/
def charLe (a b : Char) : Bool :=
  decide (a.toNat ≤ b.toNat)

/-- Characters are in a linear order. -/
theorem linearLe_charLe : LinearLe charLe where
  total a b := by
    have := Nat.le_total a.toNat b.toNat
    simpa [charLe] using this
  trans a b c hab hbc := by
    simp only [charLe, decide_eq_true_eq] at hab hbc ⊢
    omega
  antisymm a b hab hba := by
    simp only [charLe, decide_eq_true_eq] at hab hba
    exact Char.toNat_inj.mp (by omega)

/-- Texts are compared as lists of characters. -/
theorem textLe_eq_lexLe (a b : Text) : textLe a b = lexLe charLe a b := by
  fun_induction textLe a b with
  | case1 => rfl
  | case2 => rfl
  | case3 rest b rest' ih => rw [lexLe_cons_self, ih]
  | case4 a rest b rest' hne => rw [lexLe_cons_of_ne hne, charLe]

/-- Texts are in a linear order. -/
theorem linearLe_textLe : LinearLe textLe := by
  have heq : textLe = lexLe charLe := by
    funext a b
    exact textLe_eq_lexLe a b
  rw [heq]
  exact linearLe_charLe.lexLe

/-- Components of one rank are compared by their texts. -/
theorem componentLe_of_rank_eq {a b : Component} (h : a.rank = b.rank) :
    componentLe a b = textLe a.text b.text := by
  rw [componentLe, if_pos h]

/-- Components of different ranks are compared by their ranks. -/
theorem componentLe_of_rank_ne {a b : Component} (h : a.rank ≠ b.rank) :
    componentLe a b = true ↔ a.rank < b.rank := by
  rw [componentLe, if_neg h, decide_eq_true_eq]
  omega

/-- A component that comes first has no higher rank. -/
theorem rank_le_of_componentLe {a b : Component} (h : componentLe a b = true) :
    a.rank ≤ b.rank := by
  by_cases hrank : a.rank = b.rank
  · omega
  · have := (componentLe_of_rank_ne hrank).mp h
    omega

/-- A component is known by its rank and its text. -/
theorem component_eq {a b : Component} (hrank : a.rank = b.rank) (htext : a.text = b.text) :
    a = b := by
  cases a <;> cases b <;> simp_all [Component.rank, Component.text]

/-- Components are ordered linearly. -/
theorem linearLe_componentLe : LinearLe componentLe where
  total a b := by
    by_cases hrank : a.rank = b.rank
    · rw [componentLe_of_rank_eq hrank, componentLe_of_rank_eq hrank.symm]
      exact linearLe_textLe.total a.text b.text
    · rw [Bool.or_eq_true, componentLe_of_rank_ne hrank, componentLe_of_rank_ne (Ne.symm hrank)]
      omega
  trans a b c hab hbc := by
    have hab' := rank_le_of_componentLe hab
    have hbc' := rank_le_of_componentLe hbc
    by_cases hrank : a.rank = c.rank
    · rw [componentLe_of_rank_eq (by omega)] at hab hbc ⊢
      exact linearLe_textLe.trans _ _ _ hab hbc
    · rw [componentLe_of_rank_ne hrank]
      omega
  antisymm a b hab hba := by
    have hab' := rank_le_of_componentLe hab
    have hba' := rank_le_of_componentLe hba
    have hrank : a.rank = b.rank := by omega
    rw [componentLe_of_rank_eq hrank] at hab
    rw [componentLe_of_rank_eq hrank.symm] at hba
    exact component_eq hrank (linearLe_textLe.antisymm _ _ hab hba)

/-- Paths are compared as lists of components. -/
theorem componentsLe_eq_lexLe (as bs : List Component) :
    componentsLe as bs = lexLe componentLe as bs := by
  fun_induction componentsLe as bs with
  | case1 => rfl
  | case2 => rfl
  | case3 rest b rest' ih => rw [lexLe_cons_self, ih]
  | case4 a rest b rest' hne => rw [lexLe_cons_of_ne hne]

/-- Lists of components are ordered linearly. -/
theorem linearLe_componentsLe : LinearLe componentsLe := by
  have heq : componentsLe = lexLe componentLe := by
    funext as bs
    exact componentsLe_eq_lexLe as bs
  rw [heq]
  exact linearLe_componentLe.lexLe

/-! ## Paths -/

/-- The first path comes before the second one. -/
def Before (a b : Text) : Prop :=
  le a b = true ∧ same a b = false

instance decidableBefore (a b : Text) : Decidable (Before a b) :=
  inferInstanceAs (Decidable (le a b = true ∧ same a b = false))

theorem le_total (a b : Text) : (le a b || le b a) = true :=
  linearLe_componentsLe.total _ _

theorem le_trans (a b c : Text) (hab : le a b = true) (hbc : le b c = true) : le a c = true :=
  linearLe_componentsLe.trans _ _ _ hab hbc

/-- Paths of which each comes before the other are the same path. -/
theorem same_of_le {a b : Text} (hab : le a b = true) (hba : le b a = true) : same a b = true :=
  beq_iff_eq.mpr (linearLe_componentsLe.antisymm _ _ hab hba)

/-- What comes before a path comes before all that follow the path. -/
theorem Before.trans_le {a b c : Text} (h : Before a b) (hbc : le b c = true) : Before a c := by
  refine ⟨le_trans a b c h.1 hbc, ?_⟩
  rw [Bool.eq_false_iff]
  intro hac
  have hba : le b a = true := by
    rw [le, beq_iff_eq.mp hac]
    exact hbc
  exact absurd (same_of_le h.1 hba) (by simp [h.2])

/-- In ascending paths that start with a given one, all that stay come strictly one
after the other. -/
theorem ascending_dropRepeats {path : Text} {rest : List Text}
    (h : (path :: rest).Pairwise fun a b => le a b = true) :
    (path :: dropRepeats path rest).Pairwise Before := by
  fun_induction dropRepeats path rest with
  | case1 path => exact List.pairwise_singleton _ _
  | case2 path next rest hsame ih =>
      exact ih (h.sublist ((List.sublist_cons_self next rest).cons_cons path))
  | case3 path next rest hsame ih =>
      have htail := ih h.tail
      have hnext : Before path next :=
        ⟨List.rel_of_pairwise_cons h List.mem_cons_self, by simpa using hsame⟩
      refine List.pairwise_cons.mpr ⟨?_, htail⟩
      intro later hlater
      rcases List.mem_cons.mp hlater with rfl | hlater
      · exact hnext
      · exact hnext.trans_le (List.rel_of_pairwise_cons htail hlater).1

/-- The sorted paths are strictly ascending. -/
theorem ascending_sortDistinct (paths : List Text) : (sortDistinct paths).Pairwise Before := by
  have hsorted := List.pairwise_mergeSort le_trans le_total paths
  unfold sortDistinct
  split
  · exact .nil
  · rename_i first rest hpaths
    rw [hpaths] at hsorted
    exact ascending_dropRepeats hsorted

/-- An ascending list has no repeats to drop. -/
theorem dropRepeats_of_ascending {path : Text} {rest : List Text}
    (h : (path :: rest).Pairwise Before) : dropRepeats path rest = rest := by
  induction rest generalizing path with
  | nil => rfl
  | cons next rest ih =>
      have hnext := List.rel_of_pairwise_cons h List.mem_cons_self
      rw [dropRepeats, if_neg (by simp [hnext.2]), ih h.tail]

/-- Paths that are strictly ascending are sorted already. -/
theorem sortDistinct_of_ascending {paths : List Text} (h : paths.Pairwise Before) :
    sortDistinct paths = paths := by
  have hsorted : paths.Pairwise fun a b => le a b = true := h.imp fun hbefore => hbefore.1
  rw [sortDistinct, List.mergeSort_of_pairwise hsorted]
  cases paths with
  | nil => rfl
  | cons first rest => exact congrArg (first :: ·) (dropRepeats_of_ascending h)

/-! ## Which paths are left -/

theorem same_iff {a b : Text} : same a b = true ↔ components a = components b :=
  beq_iff_eq

/-- What is kept was there. -/
theorem mem_of_mem_dropRepeats {path other : Text} {rest : List Text}
    (h : other ∈ dropRepeats path rest) : other ∈ rest := by
  fun_induction dropRepeats path rest with
  | case1 path => exact h
  | case2 path next rest hsame ih => exact List.mem_cons_of_mem next (ih h)
  | case3 path next rest hsame ih =>
      rcases List.mem_cons.mp h with rfl | hlater
      · exact List.mem_cons_self
      · exact List.mem_cons_of_mem next (ih hlater)

/-- Every path that is dropped spells one that stays. -/
theorem exists_same_mem_dropRepeats {path other : Text} {rest : List Text}
    (h : other ∈ path :: rest) :
    ∃ kept ∈ path :: dropRepeats path rest, same kept other = true := by
  fun_induction dropRepeats path rest with
  | case1 path =>
      rw [List.mem_singleton.mp h]
      exact ⟨path, List.mem_cons_self, same_iff.mpr rfl⟩
  | case2 path next rest hsame ih =>
      rcases List.mem_cons.mp h with rfl | hrest
      · exact ⟨other, List.mem_cons_self, same_iff.mpr rfl⟩
      · rcases List.mem_cons.mp hrest with rfl | hlater
        · exact ⟨path, List.mem_cons_self, hsame⟩
        · exact ih (List.mem_cons_of_mem path hlater)
  | case3 path next rest hsame ih =>
      rcases List.mem_cons.mp h with rfl | hrest
      · exact ⟨other, List.mem_cons_self, same_iff.mpr rfl⟩
      · rcases ih hrest with ⟨kept, hkept, hother⟩
        exact ⟨kept, List.mem_cons_of_mem path hkept, hother⟩

/-- Sorting and dropping repeats adds no path. -/
theorem mem_of_mem_sortDistinct {path : Text} {paths : List Text} (h : path ∈ sortDistinct paths) :
    path ∈ paths := by
  rw [← @List.mem_mergeSort _ le path paths]
  unfold sortDistinct at h
  split at h
  · contradiction
  · rename_i first rest hpaths
    rw [hpaths]
    rcases List.mem_cons.mp h with rfl | hrest
    · exact List.mem_cons_self
    · exact List.mem_cons_of_mem first (mem_of_mem_dropRepeats hrest)

/-- Every path is kept in one of its spellings. -/
theorem exists_same_mem_sortDistinct {path : Text} {paths : List Text} (h : path ∈ paths) :
    ∃ kept ∈ sortDistinct paths, same kept path = true := by
  rw [← @List.mem_mergeSort _ le path paths] at h
  unfold sortDistinct
  split
  · rename_i hpaths
    rw [hpaths] at h
    contradiction
  · rename_i first rest hpaths
    rw [hpaths] at h
    exact exists_same_mem_dropRepeats h

/-- The sorted paths are those that were given, each in one of its spellings. -/
theorem exists_mem_sortDistinct_iff {paths : List Text} {path : Text} :
    (∃ kept ∈ sortDistinct paths, same kept path = true) ↔
      ∃ given ∈ paths, same given path = true := by
  constructor
  · rintro ⟨kept, hkept, hsame⟩
    exact ⟨kept, mem_of_mem_sortDistinct hkept, hsame⟩
  · rintro ⟨given, hgiven, hsame⟩
    rcases exists_same_mem_sortDistinct hgiven with ⟨kept, hkept, hsame'⟩
    exact ⟨kept, hkept, same_iff.mpr ((same_iff.mp hsame').trans (same_iff.mp hsame))⟩

/-- The components of ascending paths are different. -/
theorem nodup_map_components {paths : List Text} (h : paths.Pairwise Before) :
    (paths.map components).Nodup := by
  refine List.pairwise_map.mpr (h.imp ?_)
  intro a b hbefore heq
  rw [Before, same_iff.mpr heq] at hbefore
  exact absurd hbefore.2 (by simp)

/-- The components of a path occur exactly when one of its spellings does. -/
theorem components_mem_map_iff {paths : List Text} {path : Text} :
    components path ∈ paths.map components ↔ ∃ kept ∈ paths, same kept path = true := by
  simp only [List.mem_map, same_iff]

/-- Strictly ascending paths are determined up to their spelling by the paths they
hold. -/
theorem map_components_eq {paths paths' : List Text} (h : paths.Pairwise Before)
    (h' : paths'.Pairwise Before)
    (hsame : ∀ path, (∃ kept ∈ paths, same kept path = true) ↔
      ∃ kept ∈ paths', same kept path = true) :
    paths.map components = paths'.map components := by
  have hperm : (paths.map components).Perm (paths'.map components) := by
    rw [List.perm_ext_iff_of_nodup (nodup_map_components h) (nodup_map_components h')]
    intro c
    constructor
    · intro hc
      rcases List.mem_map.mp hc with ⟨path, _, rfl⟩
      exact components_mem_map_iff.mpr ((hsame path).mp (components_mem_map_iff.mp hc))
    · intro hc
      rcases List.mem_map.mp hc with ⟨path, _, rfl⟩
      exact components_mem_map_iff.mpr ((hsame path).mpr (components_mem_map_iff.mp hc))
  have hsorted : ∀ {paths : List Text}, paths.Pairwise Before →
      (paths.map components).Pairwise fun a b => componentsLe a b = true :=
    fun hpaths => List.pairwise_map.mpr (hpaths.imp fun hbefore => hbefore.1)
  exact hperm.eq_of_pairwise (fun a b _ _ => linearLe_componentsLe.antisymm a b) (hsorted h)
    (hsorted h')

end PathName
end Command
end DocComment
