import DocComment.Proofs.Command.FileTree

/-!
# Spellings of a path

A path can be spelled in several ways: with slashes or dots that do not count.  Two
spellings have the same components, and so the same names once the dots are left
out.  A dot leads nowhere, but it can be followed only in a directory, so of two
spellings one may lead to a file and the other fail.  When both lead to files, they
lead to the same file, and they go on doing so while files stay files.

Main results:

- Theorem `PathName.filter_names_eq`: two spellings have the same names without the
  dots.
- Theorem `FileTree.location_eq_of_components_eq`: two spellings that lead to files
  lead to the same place.
- Theorem `FileTree.KeepsKinds.readText_eq`: the same text is read under both.
-/

namespace DocComment
namespace Command

/-! ## Names without dots -/

namespace PathName

/-- A name inside a path is neither the root nor the dot at the start. -/
theorem two_le_rank_of_ofName? {name : Text} {component : Component}
    (h : Component.ofName? name = some component) : 2 ≤ component.rank := by
  unfold Component.ofName? at h
  split at h
  · contradiction
  · split at h
    · cases h
      simp [Component.rank]
    · cases h
      simp [Component.rank]

/-- Behind its start, the components of a path are those of its names. -/
theorem filter_components (path : Text) :
    (components path).filter (fun component => decide (2 ≤ component.rank)) =
      (names path).filterMap Component.ofName? := by
  have hnames : ((names path).filterMap Component.ofName?).filter
      (fun component => decide (2 ≤ component.rank)) =
        (names path).filterMap Component.ofName? := by
    rw [List.filter_eq_self]
    intro component hcomponent
    rcases List.mem_filterMap.mp hcomponent with ⟨name, _, hname⟩
    simpa using two_le_rank_of_ofName? hname
  rw [components, List.filter_append, hnames]
  split
  · rfl
  · split <;> rfl

/-- A path starts at the root when the root is one of its components. -/
theorem isAbsolute_iff (path : Text) : isAbsolute path = true ↔ .root ∈ components path := by
  have hnames : Component.root ∉ (names path).filterMap Component.ofName? := by
    intro hroot
    rcases List.mem_filterMap.mp hroot with ⟨name, _, hname⟩
    exact absurd (two_le_rank_of_ofName? hname) (by decide)
  rw [components, List.mem_append]
  constructor
  · intro habsolute
    simp [habsolute]
  · rintro (hstart | hname)
    · split at hstart
      · assumption
      · split at hstart <;> simp at hstart
    · exact absurd hname hnames

/-- A name other than the dot is the text of its component. -/
theorem map_text_filterMap_ofName? {texts : List Text} (h : ∀ name ∈ texts, name ≠ []) :
    (texts.filterMap Component.ofName?).map Component.text =
      texts.filter fun name => name != ['.'] := by
  induction texts with
  | nil => rfl
  | cons name texts ih =>
      have ih := ih fun other hother => h other (List.mem_cons_of_mem name hother)
      have hne := h name List.mem_cons_self
      rw [List.filterMap_cons, List.filter_cons]
      by_cases hdot : name = ['.']
      · simpa [Component.ofName?, hdot] using ih
      · by_cases hdots : name = ['.', '.']
        · simpa [Component.ofName?, hdots, Component.text] using ih
        · simpa [Component.ofName?, hne, hdot, hdots, Component.text] using ih

/-- Two spellings have the same names without the dots. -/
theorem filter_names_eq {path path' : Text} (h : components path' = components path) :
    (names path').filter (fun name => name != ['.']) =
      (names path).filter fun name => name != ['.'] := by
  have hne : ∀ path, ∀ name ∈ names path, name ≠ [] := fun _ _ hname => (of_mem_names hname).1
  rw [← map_text_filterMap_ofName? (hne path'), ← map_text_filterMap_ofName? (hne path),
    ← filter_components, ← filter_components, h]

end PathName

/-! ## Files under two spellings -/

namespace FileTree

variable {tree tree' : FileTree} {location location' : Location} {path path' : Text}

/-- Dots can be left out of names that can be followed. -/
theorem walk_filter_names {names : List Text} (h : tree.walk location names = .ok location') :
    tree.walk location (names.filter fun name => name != ['.']) = .ok location' := by
  induction names generalizing location with
  | nil => exact h
  | cons name names ih =>
      rw [walk_cons_eq_ok] at h
      by_cases hdot : name = ['.']
      · subst hdot
        exact ih h.2
      · rw [List.filter_cons_of_pos (by simpa using hdot), walk_cons_eq_ok]
        exact ⟨h.1, ih h.2⟩

/-- Paths with the same components start at the same place. -/
theorem startOf_eq_of_components_eq (tree : FileTree)
    (h : PathName.components path' = PathName.components path) :
    tree.startOf path' = tree.startOf path := by
  have habsolute : PathName.isAbsolute path' = PathName.isAbsolute path := by
    rw [Bool.eq_iff_iff, PathName.isAbsolute_iff, PathName.isAbsolute_iff, h]
  rw [startOf, startOf, habsolute]

/-- Two spellings that lead to files lead to the same place. -/
theorem location_eq_of_components_eq {content content' : ByteArray}
    (h : PathName.components path' = PathName.components path)
    (hpath : tree.lookup path = .ok (location, .file content))
    (hpath' : tree.lookup path' = .ok (location', .file content')) : location' = location := by
  have hwalk := walk_filter_names (lookup_eq_file.mp hpath).2.1
  have hwalk' := walk_filter_names (lookup_eq_file.mp hpath').2.1
  rw [PathName.filter_names_eq h, startOf_eq_of_components_eq tree h, hwalk] at hwalk'
  cases hwalk'
  rfl

/-- A path is that of a file exactly when a file is found there. -/
theorem isFile_iff : tree.isFile path = true ↔
    ∃ location content, tree.lookup path = .ok (location, .file content) := by
  unfold isFile
  split
  · rename_i hlookup
    simp [hlookup]
  · rename_i hother
    simpa using hother

/-- While files stay files, the same text is read under two spellings of a file. -/
theorem KeepsKinds.readText_eq (hkeeps : tree.KeepsKinds tree')
    (h : PathName.components path' = PathName.components path)
    (hpath : tree.isFile path = true) (hpath' : tree.isFile path' = true) :
    tree'.readText path' = tree'.readText path := by
  rcases isFile_iff.mp hpath with ⟨place, content, hlookup⟩
  rcases isFile_iff.mp hpath' with ⟨place', content', hlookup'⟩
  have hplace := location_eq_of_components_eq h hlookup hlookup'
  subst hplace
  rcases hkeeps.exists_lookup_eq hlookup with ⟨now, hnow⟩
  rcases hkeeps.exists_lookup_eq hlookup' with ⟨now', hnow'⟩
  have hsame : some (Entry.file now') = some (.file now) := by
    rw [← (lookup_eq_file.mp hnow).2.2.1, ← (lookup_eq_file.mp hnow').2.2.1]
  cases hsame
  rw [readText, readText, hnow, hnow']

end FileTree
end Command
end DocComment
