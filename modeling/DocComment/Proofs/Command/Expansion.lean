import DocComment.Command.Expansion
import DocComment.Proofs.Command.FileTree
import DocComment.Proofs.Command.PathOrder

/-!
# What arguments stand for

Each file argument stands for files of its own, and the input files of a run are
those of all its arguments.  Sorting them forgets which argument gave a file and
how often, so the input files depend only on which arguments there are.  A directory
can always be listed, so an argument stands for nothing at all only when it is
neither a file nor a directory and cannot be read as a pattern; one such argument is
enough to have no input files.

Main results:

- Definition `Expandable`: an argument that stands for files.
- Theorem `exists_inputFiles_eq_ok_iff`: arguments have input files exactly when all
  of them are expandable.
- Theorem `of_inputFiles_eq_error`: the argument that is reported is one that is not.
- Theorem `isExpansion_of_inputFiles`: the input files are in strictly ascending order
  and are those of the single arguments.
- Theorem `IsExpansion.map_components_eq`: arguments that hold each other have the same
  input files up to their spelling.
-/

namespace DocComment
namespace Command

variable {tree : FileTree} {argument : Text} {arguments files : List Text}

/-- A mapped result is a value exactly when the result is one. -/
theorem map_eq_ok_iff {ε α β : Type} {result : Except ε α} {f : α → β} {value : β} :
    result.map f = .ok value ↔ ∃ a, result = .ok a ∧ f a = value := by
  cases result <;> simp [Except.map]

/-- Mapping the values of a result leaves its errors alone. -/
theorem map_eq_error_iff {ε α β : Type} {result : Except ε α} {f : α → β} {error : ε} :
    result.map f = .error error ↔ result = .error error := by
  cases result <;> simp [Except.map]

/-- Mapping the errors of a result leaves its values alone. -/
theorem mapError_eq_ok_iff {ε ε' α : Type} {result : Except ε α} {f : ε → ε'} {value : α} :
    result.mapError f = .ok value ↔ result = .ok value := by
  cases result with
  | error error => exact ⟨nofun, nofun⟩
  | ok a =>
      constructor
      · rintro ⟨⟩
        rfl
      · rintro ⟨⟩
        rfl

/-! ## One argument -/

/-- A pattern that can be read: the whole of it, and each name between its
slashes. -/
def Glob.Valid (pattern : Text) : Prop :=
  (∃ tokens, parse pattern = .ok tokens) ∧ ∃ parts, parseParts (partTexts pattern) = .ok parts

/-- A pattern can be expanded exactly when it is valid, whatever the tree. -/
theorem Glob.exists_expand_eq_ok_iff {pattern : Text} :
    (∃ paths, expand tree pattern = .ok paths) ↔ Valid pattern := by
  unfold expand Valid
  cases parse pattern with
  | error error => simp
  | ok tokens =>
      cases parseParts (partTexts pattern) with
      | error error => simp
      | ok parts => simp

/-- An argument that stands for files: a file, a directory or a valid pattern. -/
def Expandable (tree : FileTree) (argument : Text) : Prop :=
  tree.isFile argument = true ∨ tree.isDirectory argument = true ∨ Glob.Valid argument

/-- A directory stands for the source files in it. -/
theorem exists_sourcesIn_eq_ok {directory : Text} (h : tree.isDirectory directory = true) :
    ∃ found, sourcesIn tree directory = .ok found := by
  obtain ⟨names, hnames⟩ := FileTree.exists_readDirectory_eq_ok h
  exact ⟨_, map_eq_ok_iff.mpr ⟨names, hnames, rfl⟩⟩

/-- An argument can be expanded exactly when it stands for files. -/
theorem exists_expandArgument_eq_ok_iff :
    (∃ found, expandArgument tree argument = .ok found) ↔ Expandable tree argument := by
  unfold expandArgument Expandable
  split
  · rename_i hfile
    simp [hfile]
  · rename_i hfile
    split
    · rename_i hdirectory
      simpa only [mapError_eq_ok_iff, hdirectory, true_or, or_true, iff_true]
        using exists_sourcesIn_eq_ok hdirectory
    · rename_i hdirectory
      constructor
      · rintro ⟨found, hfound⟩
        obtain ⟨paths, hpaths, _⟩ := map_eq_ok_iff.mp hfound
        exact .inr (.inr (Glob.exists_expand_eq_ok_iff.mp ⟨paths, mapError_eq_ok_iff.mp hpaths⟩))
      · rintro (hfile' | hdirectory' | hvalid)
        · contradiction
        · contradiction
        · obtain ⟨paths, hpaths⟩ := (@Glob.exists_expand_eq_ok_iff tree argument).mpr hvalid
          exact ⟨_, map_eq_ok_iff.mpr ⟨paths, mapError_eq_ok_iff.mpr hpaths, rfl⟩⟩

/-- An argument that cannot be expanded is at fault as a pattern. -/
theorem exists_pattern_of_expandArgument {error : ArgumentError}
    (h : expandArgument tree argument = .error error) : ∃ fault, error = .pattern fault := by
  unfold expandArgument at h
  split at h
  · cases h
  · split at h
    · rename_i hdirectory
      obtain ⟨found, hfound⟩ := exists_sourcesIn_eq_ok hdirectory
      rw [hfound] at h
      cases h
    · rw [map_eq_error_iff] at h
      cases hexpand : Glob.expand tree argument with
      | error fault =>
          rw [hexpand] at h
          cases h
          exact ⟨fault, rfl⟩
      | ok paths =>
          rw [hexpand] at h
          cases h

/-- An argument stands for files only. -/
theorem isFile_of_mem_expandArgument {found : List Text} {path : Text}
    (h : expandArgument tree argument = .ok found) (hpath : path ∈ found) :
    tree.isFile path = true := by
  unfold expandArgument at h
  split at h
  · rename_i hfile
    cases h
    rwa [List.mem_singleton.mp hpath]
  · split at h
    · obtain ⟨names, _, rfl⟩ := map_eq_ok_iff.mp (mapError_eq_ok_iff.mp h)
      have hsource := (List.mem_filter.mp hpath).2
      rw [Bool.and_eq_true] at hsource
      exact hsource.1
    · obtain ⟨paths, _, rfl⟩ := map_eq_ok_iff.mp h
      exact (List.mem_filter.mp hpath).2

/-! ## All arguments -/

/-- The files of an argument come before those of the arguments after it. -/
theorem expandArguments_cons_of_ok {found : List Text}
    (h : expandArgument tree argument = .ok found) (rest : List Text) :
    (expandArguments tree (argument :: rest)).2 =
      (expandArguments tree rest).2.map (found ++ ·) := by
  rw [expandArguments, h]

/-- An argument that cannot be expanded ends the expansion. -/
theorem expandArguments_cons_of_error {error : ArgumentError}
    (h : expandArgument tree argument = .error error) (rest : List Text) :
    (expandArguments tree (argument :: rest)).2 = .error ⟨argument, error⟩ := by
  rw [expandArguments, h]

/-- Arguments that can be expanded one by one can be expanded together. -/
theorem exists_expandArguments_eq_ok (h : ∀ argument ∈ arguments, Expandable tree argument) :
    ∃ paths, (expandArguments tree arguments).2 = .ok paths := by
  induction arguments with
  | nil => exact ⟨[], rfl⟩
  | cons argument rest ih =>
      obtain ⟨found, hfound⟩ := exists_expandArgument_eq_ok_iff.mpr (h argument List.mem_cons_self)
      obtain ⟨paths, hpaths⟩ := ih fun other hother => h other (List.mem_cons_of_mem _ hother)
      refine ⟨found ++ paths, ?_⟩
      rw [expandArguments_cons_of_ok hfound, hpaths]
      rfl

/-- The argument that ends the expansion is not expandable, and it is at fault as a
pattern. -/
theorem of_expandArguments_eq_error {invalid : InvalidArgument}
    (h : (expandArguments tree arguments).2 = .error invalid) :
    invalid.argument ∈ arguments ∧ ¬ Expandable tree invalid.argument ∧
      ∃ fault, invalid.error = .pattern fault := by
  induction arguments with
  | nil => cases h
  | cons argument rest ih =>
      cases hfirst : expandArgument tree argument with
      | error error =>
          rw [expandArguments_cons_of_error hfirst] at h
          cases h
          refine ⟨List.mem_cons_self, ?_, exists_pattern_of_expandArgument hfirst⟩
          rw [← exists_expandArgument_eq_ok_iff, hfirst]
          simp
      | ok found =>
          rw [expandArguments_cons_of_ok hfirst, map_eq_error_iff] at h
          obtain ⟨hmem, hinvalid⟩ := ih h
          exact ⟨List.mem_cons_of_mem argument hmem, hinvalid⟩

/-- The files of all arguments are those of each of them. -/
theorem of_expandArguments_eq_ok {paths : List Text}
    (h : (expandArguments tree arguments).2 = .ok paths) :
    (∀ argument ∈ arguments, Expandable tree argument) ∧
      ∀ path, path ∈ paths ↔
        ∃ argument ∈ arguments, ∃ found, expandArgument tree argument = .ok found ∧ path ∈ found := by
  induction arguments generalizing paths with
  | nil =>
      cases h
      simp
  | cons argument rest ih =>
      cases hfirst : expandArgument tree argument with
      | error error =>
          rw [expandArguments_cons_of_error hfirst] at h
          cases h
      | ok found =>
          rw [expandArguments_cons_of_ok hfirst, map_eq_ok_iff] at h
          obtain ⟨later, hrest, rfl⟩ := h
          obtain ⟨hexpandable, hmem⟩ := ih hrest
          constructor
          · intro other hother
            rcases List.mem_cons.mp hother with rfl | hother
            · exact exists_expandArgument_eq_ok_iff.mp ⟨found, hfirst⟩
            · exact hexpandable other hother
          · intro path
            simp [hmem, hfirst]

/-! ## Input files -/

theorem inputFiles_snd (tree : FileTree) (arguments : List Text) :
    (inputFiles tree arguments).2 =
      (expandArguments tree arguments).2.map PathName.sortDistinct :=
  rfl

/-- The files are those that the arguments stand for, in strictly ascending order. -/
structure IsExpansion (tree : FileTree) (arguments files : List Text) : Prop where
  ascending : files.Pairwise PathName.Before
  isFile : ∀ file ∈ files, tree.isFile file = true
  same_iff : ∀ path, (∃ file ∈ files, PathName.same file path = true) ↔
    ∃ argument ∈ arguments, ∃ found, expandArgument tree argument = .ok found ∧
      ∃ file ∈ found, PathName.same file path = true

/-- The input files of a run are an expansion of its arguments. -/
theorem isExpansion_of_inputFiles (h : (inputFiles tree arguments).2 = .ok files) :
    IsExpansion tree arguments files := by
  rw [inputFiles_snd, map_eq_ok_iff] at h
  obtain ⟨paths, hpaths, rfl⟩ := h
  obtain ⟨_, hmem⟩ := of_expandArguments_eq_ok hpaths
  refine ⟨PathName.ascending_sortDistinct paths, ?_, ?_⟩
  · intro file hfile
    obtain ⟨_, _, found, hfound, hfile⟩ := (hmem file).mp (PathName.mem_of_mem_sortDistinct hfile)
    exact isFile_of_mem_expandArgument hfound hfile
  · intro path
    rw [PathName.exists_mem_sortDistinct_iff]
    constructor
    · rintro ⟨file, hfile, hsame⟩
      obtain ⟨argument, hargument, found, hfound, hfile⟩ := (hmem file).mp hfile
      exact ⟨argument, hargument, found, hfound, file, hfile, hsame⟩
    · rintro ⟨argument, hargument, found, hfound, file, hfile, hsame⟩
      exact ⟨file, (hmem file).mpr ⟨argument, hargument, found, hfound, hfile⟩, hsame⟩

/-- Files that come in strictly ascending order are the input files as they are. -/
theorem inputFiles_of_ascending {events : List Event}
    (h : expandArguments tree arguments = (events, .ok files))
    (hascending : files.Pairwise PathName.Before) :
    inputFiles tree arguments = (events, .ok files) := by
  rw [inputFiles, h]
  simp only [Except.map, PathName.sortDistinct_of_ascending hascending]

/-- Arguments have input files exactly when all of them are expandable. -/
theorem exists_inputFiles_eq_ok_iff :
    (∃ files, (inputFiles tree arguments).2 = .ok files) ↔
      ∀ argument ∈ arguments, Expandable tree argument := by
  rw [inputFiles_snd]
  constructor
  · rintro ⟨files, hfiles⟩
    obtain ⟨paths, hpaths, _⟩ := map_eq_ok_iff.mp hfiles
    exact (of_expandArguments_eq_ok hpaths).1
  · intro h
    obtain ⟨paths, hpaths⟩ := exists_expandArguments_eq_ok h
    exact ⟨PathName.sortDistinct paths, by rw [hpaths]; rfl⟩

/-- The argument that is reported is one that is not expandable, and it is at fault as
a pattern. -/
theorem of_inputFiles_eq_error {invalid : InvalidArgument}
    (h : (inputFiles tree arguments).2 = .error invalid) :
    invalid.argument ∈ arguments ∧ ¬ Expandable tree invalid.argument ∧
      ∃ fault, invalid.error = .pattern fault := by
  rw [inputFiles_snd, map_eq_error_iff] at h
  exact of_expandArguments_eq_error h

/-- The input files are, up to their spelling, those of each argument alone. -/
theorem IsExpansion.same_iff_alone (h : IsExpansion tree arguments files) (path : Text) :
    (∃ file ∈ files, PathName.same file path = true) ↔
      ∃ argument ∈ arguments, ∃ events alone, inputFiles tree [argument] = (events, .ok alone) ∧
        ∃ file ∈ alone, PathName.same file path = true := by
  rw [h.same_iff]
  constructor
  · rintro ⟨argument, hargument, found, hfound, hsame⟩
    have hexpandable : ∀ other ∈ [argument], Expandable tree other := by
      intro other hother
      rw [List.mem_singleton.mp hother]
      exact exists_expandArgument_eq_ok_iff.mp ⟨found, hfound⟩
    obtain ⟨alone, halone⟩ := exists_inputFiles_eq_ok_iff.mpr hexpandable
    refine ⟨argument, hargument, _, alone, Prod.ext rfl halone, ?_⟩
    rw [(isExpansion_of_inputFiles halone).same_iff]
    exact ⟨argument, List.mem_singleton_self argument, found, hfound, hsame⟩
  · rintro ⟨argument, hargument, events, alone, halone, hsame⟩
    have hexpansion : IsExpansion tree [argument] alone :=
      isExpansion_of_inputFiles (by rw [halone])
    obtain ⟨other, hother, found, hfound, hsame⟩ := (hexpansion.same_iff path).mp hsame
    rw [List.mem_singleton.mp hother] at hfound
    exact ⟨argument, hargument, found, hfound, hsame⟩

/-- Arguments that hold each other have the same input files up to their spelling. -/
theorem IsExpansion.map_components_eq {arguments' files' : List Text}
    (h : IsExpansion tree arguments files) (h' : IsExpansion tree arguments' files')
    (hsame : ∀ argument, argument ∈ arguments' ↔ argument ∈ arguments) :
    files'.map PathName.components = files.map PathName.components := by
  refine PathName.map_components_eq h'.ascending h.ascending ?_
  intro path
  rw [h.same_iff, h'.same_iff]
  simp only [hsame]

end Command
end DocComment
