import DocComment.Command.PathName
import DocComment.Proofs.Text.Trimmed

/-!
# Names at the end of paths

The last name of a path decides what the path is called: the name of its file, the
stem of that name and its extension.  Joining a name to a directory adds it
behind the names of the directory, and the stem of a name with a new extension is
the old stem.

Main results:

- Definition `PathName.IsName`: a text that can be the name of a file.
- Theorem `PathName.names_join`: the names of a path that was joined.
- Theorem `PathName.fileName?_of_names`: the file name of a path is its last name.
- Theorem `PathName.cutExtension_append`: a name is cut at its new extension.
- Theorem `PathName.components_ofComponents`: the components on the way along a path
  are those of the path that they give.
-/

namespace DocComment
namespace Command
namespace PathName

/-- A text that can be the name of a file or directory. -/
structure IsName (name : Text) : Prop where
  ne_nil : name ≠ []
  ne_dot : name ≠ ['.']
  ne_dots : name ≠ ['.', '.']
  no_slash : '/' ∉ name

/-! ## Names between slashes -/

/-- The names around a slash are the names before it and the names after it. -/
theorem names_append_slash (before after : Text) :
    names (before ++ '/' :: after) = names before ++ names after := by
  rw [names, List.splitOn_append_cons_self, List.filter_append]
  rfl

/-- A text without a slash is one name. -/
theorem names_of_no_slash {name : Text} (hne : name ≠ []) (hslash : '/' ∉ name) :
    names name = [name] := by
  rw [names, List.splitOn_eq_singleton hslash]
  simp [hne]

/-- Names are not empty and have no slash. -/
theorem of_mem_names {path name : Text} (h : name ∈ names path) : name ≠ [] ∧ '/' ∉ name := by
  rcases List.mem_filter.mp h with ⟨hmem, hne⟩
  exact ⟨by simpa using hne, Text.notMem_of_mem_splitOn hmem⟩

/-! ## Joining -/

/-- The names of a joined path are those of the directory and the new one. -/
theorem names_join (directory : Text) {name : Text} (hne : name ≠ []) (hslash : '/' ∉ name) :
    names (join directory name) = names directory ++ [name] := by
  have hname := names_of_no_slash hne hslash
  unfold join
  split
  · rename_i hdirectory
    rcases List.eq_nil_or_concat directory with rfl | ⟨before, last, rfl⟩
    · exact hname
    · -- The directory ends with a slash, which separates no further name.
      have hlast : last = '/' := by simpa [endsWithSlash] using hdirectory
      have hempty : names [] = [] := by simp [names]
      rw [hlast, List.concat_eq_append, List.append_assoc, List.singleton_append,
        names_append_slash, names_append_slash, hname, hempty, List.append_nil]
  · rw [names_append_slash, hname]

/-- A name put behind a directory does not make the path absolute. -/
theorem isAbsolute_join (directory : Text) {name : Text} (hslash : '/' ∉ name) :
    isAbsolute (join directory name) = isAbsolute directory := by
  cases directory with
  | nil =>
      cases name with
      | nil => rfl
      | cons c name =>
          have hc : c ≠ '/' := by
            rintro rfl
            exact hslash List.mem_cons_self
          simp [join, isAbsolute, hc]
  | cons d directory =>
      unfold join
      split <;> rfl

/-- A path that a name ends does not end with a slash. -/
theorem endsWithSlash_join (directory : Text) {name : Text} (hne : name ≠ [])
    (hslash : '/' ∉ name) : endsWithSlash (join directory name) = false := by
  have hlast : (join directory name).getLast? = name.getLast? := by
    unfold join
    split <;> simp [List.getLast?_append, List.getLast?_cons, List.getLast?_eq_some_getLast hne]
  rw [endsWithSlash, hlast, List.getLast?_eq_some_getLast hne]
  have hne' : name.getLast hne ≠ '/' := by
    intro heq
    exact hslash (heq ▸ List.getLast_mem hne)
  simpa using hne'

theorem join_ne_nil (directory : Text) {name : Text} (hne : name ≠ []) :
    join directory name ≠ [] := by
  unfold join
  split <;> simp [hne]

/-! ## File names -/

/-- An ordinary name is a component of its own. -/
theorem ofName?_of_isName {name : Text} (h : IsName name) :
    Component.ofName? name = some (.name name) := by
  rw [Component.ofName?, if_neg (not_or.mpr ⟨h.ne_nil, h.ne_dot⟩), if_neg h.ne_dots]

/-- The file name of a path is its last name. -/
theorem fileName?_of_names {path name : Text} {before : List Text}
    (h : names path = before ++ [name]) (hname : IsName name) : fileName? path = some name := by
  have hcomponent := ofName?_of_isName hname
  have hlast : (components path).getLast? = some (.name name) := by
    rw [components, h, List.filterMap_append, List.filterMap_cons_some hcomponent]
    simp
  rw [fileName?, hlast]

/-- A name with an extension is cut into the two. -/
theorem cutExtension_append {stem extension : Text} (hstem : stem ≠ []) (hdot : '.' ∉ extension) :
    cutExtension (stem ++ '.' :: extension) = (stem, some extension) := by
  have hclean : ∀ c ∈ extension.reverse, (c != '.') = true := by
    intro c hc
    have hc' : c ≠ '.' := by
      rintro rfl
      exact hdot (List.mem_reverse.mp hc)
    simpa using hc'
  have hreverse : (stem ++ '.' :: extension).reverse = extension.reverse ++ '.' :: stem.reverse := by
    simp
  unfold cutExtension
  rw [hreverse, List.dropWhile_append_of_pos hclean, List.takeWhile_append_of_pos hclean]
  simp [hstem]

/-- The stem of a name is its start. -/
theorem cutExtension_prefix (name : Text) : (cutExtension name).1 <+: name := by
  unfold cutExtension
  split
  · rename_i c stem hdrop
    split
    · exact List.prefix_rfl
    · refine ⟨(name.reverse.takeWhile (· != '.') ++ [c]).reverse, ?_⟩
      rw [← List.reverse_append, List.append_assoc, List.singleton_append, ← hdrop,
        List.takeWhile_append_dropWhile, List.reverse_reverse]
  · exact List.prefix_rfl

/-- Something is left of a name without its extension. -/
theorem cutExtension_ne_nil {name : Text} (h : name ≠ []) : (cutExtension name).1 ≠ [] := by
  unfold cutExtension
  split
  · split
    · exact h
    · rename_i hstem
      simpa using hstem
  · exact h

/-- The stem of a path is its file name without the extension. -/
theorem stem?_eq {path name : Text} (h : fileName? path = some name) :
    stem? path = some (cutExtension name).1 := by
  rw [stem?, h, Option.map_some]

/-- The empty text is no name. -/
theorem ne_nil_of_ofName? {text name : Text} (h : Component.ofName? text = some (.name name)) :
    name ≠ [] := by
  unfold Component.ofName? at h
  split at h
  · contradiction
  · rename_i hne
    split at h
    · cases h
    · cases h
      exact (not_or.mp hne).1

/-- A stem is not empty. -/
theorem ne_nil_of_stem? {path stem : Text} (h : stem? path = some stem) : stem ≠ [] := by
  rcases Option.map_eq_some_iff.mp h with ⟨name, hname, rfl⟩
  refine cutExtension_ne_nil ?_
  unfold fileName? at hname
  split at hname
  · rename_i hlast
    cases hname
    have hmem := List.mem_of_getLast? hlast
    rcases List.mem_append.mp hmem with hstart | hcomponent
    · split at hstart
      · simp at hstart
      · split at hstart <;> simp at hstart
    · rcases List.mem_filterMap.mp hcomponent with ⟨text, _, htext⟩
      exact ne_nil_of_ofName? htext
  · contradiction

/-! ## Paths of components -/

/-- A component that can stand behind others: the parent or a name. -/
def IsInner : Component → Prop
  | .parent => True
  | .name text => IsName text
  | _ => False

/-- What is read from a name may stand inside of a path. -/
theorem isInner_of_ofName? {name : Text} {component : Component} (hslash : '/' ∉ name)
    (h : Component.ofName? name = some component) : IsInner component := by
  unfold Component.ofName? at h
  split at h
  · contradiction
  · rename_i hne
    split at h
    · cases h
      trivial
    · rename_i hdots
      cases h
      exact ⟨(not_or.mp hne).1, (not_or.mp hne).2, hdots, hslash⟩

/-- The text of an inner component is a name that is read as the component. -/
theorem ofName?_text {component : Component} (h : IsInner component) :
    component.text ≠ [] ∧ '/' ∉ component.text ∧
      Component.ofName? component.text = some component := by
  cases component with
  | root => exact h.elim
  | current => exact h.elim
  | parent => decide
  | name text => exact ⟨h.ne_nil, h.no_slash, ofName?_of_isName h⟩

/-- The components of a path after its start may stand inside of a path. -/
theorem isInner_of_mem_filterMap {path : Text} {component : Component}
    (h : component ∈ (names path).filterMap Component.ofName?) : IsInner component := by
  rcases List.mem_filterMap.mp h with ⟨name, hname, hcomponent⟩
  exact isInner_of_ofName? (of_mem_names hname).2 hcomponent

/-- Inner components are read back from their texts. -/
theorem filterMap_ofName?_text {inner : List Component}
    (h : ∀ component ∈ inner, IsInner component) :
    (inner.map Component.text).filterMap Component.ofName? = inner := by
  induction inner with
  | nil => rfl
  | cons first rest ih =>
      rw [List.map_cons, List.filterMap_cons_some (ofName?_text (h first List.mem_cons_self)).2.2,
        ih fun component hmem => h component (List.mem_cons_of_mem first hmem)]

/-- The names of inner components with slashes between them are their texts. -/
theorem names_intercalate_text {inner : List Component}
    (h : ∀ component ∈ inner, IsInner component) (hne : inner ≠ []) :
    names (['/'].intercalate (inner.map Component.text)) = inner.map Component.text := by
  have hslash : ∀ text ∈ inner.map Component.text, '/' ∉ text := by
    intro text htext
    rcases List.mem_map.mp htext with ⟨component, hmem, rfl⟩
    exact (ofName?_text (h component hmem)).2.1
  rw [names, List.splitOn_intercalate '/' hslash (by simpa using hne), List.filter_eq_self]
  intro text htext
  rcases List.mem_map.mp htext with ⟨component, hmem, rfl⟩
  simpa using (ofName?_text (h component hmem)).1

/-- A path that is put together of inner components has these components. -/
theorem components_ofComponents_inner {inner : List Component}
    (h : ∀ component ∈ inner, IsInner component) (hne : inner ≠ []) :
    components (ofComponents inner) = inner := by
  cases inner with
  | nil => contradiction
  | cons first rest =>
      have hfirst := ofName?_text (h first List.mem_cons_self)
      have hpath : ofComponents (first :: rest) =
          ['/'].intercalate ((first :: rest).map Component.text) := by
        unfold ofComponents
        split
        · rename_i hroot
          cases hroot
          exact (h .root List.mem_cons_self).elim
        · rfl
      have hrelative : isAbsolute (ofComponents (first :: rest)) = false := by
        rcases List.exists_cons_of_ne_nil hfirst.1 with ⟨c, text, htext⟩
        have hc : c ≠ '/' := by
          rintro rfl
          exact hfirst.2.1 (by simp [htext])
        rw [hpath, List.map_cons, htext]
        cases rest with
        | nil => simpa [isAbsolute] using hc
        | cons second rest => simpa [isAbsolute, List.intercalate_cons_cons] using hc
      have hdot : first.text ≠ ['.'] := by
        intro heq
        have hread := hfirst.2.2
        rw [heq] at hread
        cases hread
      rw [components, hrelative, hpath, names_intercalate_text h hne, filterMap_ofName?_text h]
      simp [hdot]

/-- A path that is put together of a start and inner components has these components. -/
theorem components_ofComponents_cons {start : Component} {inner : List Component}
    (hstart : start = .root ∨ start = .current) (h : ∀ component ∈ inner, IsInner component) :
    components (ofComponents (start :: inner)) = start :: inner := by
  cases inner with
  | nil => rcases hstart with rfl | rfl <;> rfl
  | cons first rest =>
      have hpath : ofComponents (start :: first :: rest) =
          start.text ++ '/' :: ['/'].intercalate ((first :: rest).map Component.text) := by
        simp [ofComponents, List.intercalate_cons_cons]
      rw [components, hpath, names_append_slash, names_intercalate_text h (by simp),
        List.filterMap_append, filterMap_ofName?_text h]
      rcases hstart with rfl | rfl <;> rfl

/-- The components on the way along a path are those of the path that they give. -/
theorem components_ofComponents {path : Text} {parts : List Component}
    (h : parts <+: components path) (hne : parts ≠ []) :
    components (ofComponents parts) = parts := by
  have hinner : ∀ inner, inner <+: (names path).filterMap Component.ofName? →
      ∀ component ∈ inner, IsInner component :=
    fun inner hway component hmem => isInner_of_mem_filterMap (hway.subset hmem)
  unfold components at h
  split at h
  · rcases List.prefix_cons_iff.mp h with rfl | ⟨inner, rfl, hway⟩
    · contradiction
    · exact components_ofComponents_cons (.inl rfl) (hinner inner hway)
  · split at h
    · rcases List.prefix_cons_iff.mp h with rfl | ⟨inner, rfl, hway⟩
      · contradiction
      · exact components_ofComponents_cons (.inr rfl) (hinner inner hway)
    · exact components_ofComponents_inner (hinner parts h) hne

end PathName
end Command
end DocComment
