import DocComment.Command.FileTree
import DocComment.Proofs.Command.PathName

/-!
# File trees under change

In a well-formed tree everything stands in a directory.  The command never
replaces a directory by a file and never removes one, so a path that leads
somewhere keeps leading to the same place.  Making directories even leaves every
entry as it is, and writing a file touches the entry at its own place only.

Main results:

- Definition `FileTree.WellFormed`: everything stands in a directory.
- Theorem `FileTree.KeepsDirectories.lookup_eq`: a file is found as before while
  directories and the file itself stay.
- Theorem `FileTree.makeDirectories_induction`: what making one directory does,
  making all that are missing does.
- Theorem `FileTree.grows_makeDirectories`: making directories leaves every entry
  as it is.
- Theorem `FileTree.keepsKinds_writeFile`: writing a file turns no file into a
  directory and no directory into a file.
- Theorem `FileTree.writeFile_join_eq_ok`: what writing a file into a directory
  does.
- Theorem `FileTree.WellFormed.exists_fileName`: a path that leads to a file ends
  with the name of the file.
-/

namespace DocComment
namespace Command
namespace FileTree

variable {tree tree' : FileTree} {location : Location}

/-! ## Well-formed trees -/

/-- Everything stands in a directory, also what has yet to be put into the working
directory. -/
structure WellFormed (tree : FileTree) : Prop where
  cwd : tree.entryAt? tree.cwd = some .directory
  parent : ∀ location entry, tree.entryAt? location = some entry →
    tree.entryAt? location.dropLast = some .directory

theorem entryAt?_nil (tree : FileTree) : tree.entryAt? [] = some .directory := rfl

/-- Only the root has the empty location, and it is a directory. -/
theorem ne_nil_of_entryAt? (h : tree.entryAt? location ≠ some .directory) : location ≠ [] := by
  rintro rfl
  exact h (entryAt?_nil tree)

/-- It is enough to look at the entries of the tree. -/
theorem wellFormed_of_entries (hcwd : tree.entryAt? tree.cwd = some .directory)
    (hentries : ∀ entry ∈ tree.entries, tree.entryAt? entry.1.dropLast = some .directory) :
    tree.WellFormed := by
  refine ⟨hcwd, ?_⟩
  intro location entry hentry
  by_cases hroot : location = []
  · rw [hroot]
    rfl
  · have hlookup : tree.entries.lookup location = some entry := by
      simpa [entryAt?, hroot] using hentry
    rcases List.lookup_eq_some_iff.mp hlookup with ⟨_, _, hsplit, _⟩
    exact hentries (location, entry) (by simp [hsplit])

/-! ## Directories that stay -/

/-- Every directory of the first tree is one of the second, and the same files may
be read. -/
structure KeepsDirectories (tree tree' : FileTree) : Prop where
  cwd_eq : tree'.cwd = tree.cwd
  unreadable_eq : tree'.unreadable = tree.unreadable
  directory : ∀ location, tree.entryAt? location = some .directory →
    tree'.entryAt? location = some .directory

theorem KeepsDirectories.refl (tree : FileTree) : tree.KeepsDirectories tree :=
  ⟨rfl, rfl, fun _ h => h⟩

theorem KeepsDirectories.trans {tree'' : FileTree} (h : tree.KeepsDirectories tree')
    (h' : tree'.KeepsDirectories tree'') : tree.KeepsDirectories tree'' :=
  ⟨h'.cwd_eq.trans h.cwd_eq, h'.unreadable_eq.trans h.unreadable_eq,
    fun location hentry => h'.directory location (h.directory _ hentry)⟩

/-- What may be read stays the same while directories are kept. -/
theorem KeepsDirectories.mayRead_eq (h : tree.KeepsDirectories tree') (location : Location) :
    tree'.mayRead location = tree.mayRead location := by
  rw [mayRead, mayRead, h.unreadable_eq]

/-- Only a directory passes as one. -/
theorem requireDirectory_eq_ok :
    tree.requireDirectory location = .ok () ↔ tree.entryAt? location = some .directory := by
  unfold requireDirectory
  split <;> simp_all

/-- A walk goes on from a directory only. -/
theorem walk_cons_eq_ok {name : Text} {rest : List Text} {place : Location} :
    tree.walk location (name :: rest) = .ok place ↔
      tree.entryAt? location = some .directory ∧ tree.walk (move location name) rest = .ok place := by
  rw [walk, ← requireDirectory_eq_ok]
  split
  · rename_i hrequire
    simp [hrequire]
  · rename_i hrequire
    simp [hrequire]

/-- The last name leads one step further from a directory. -/
theorem walk_concat_eq_ok {before : List Text} {name : Text} {place : Location} :
    tree.walk location (before ++ [name]) = .ok place ↔
      ∃ directory, tree.walk location before = .ok directory ∧
        tree.entryAt? directory = some .directory ∧ place = move directory name := by
  induction before generalizing location with
  | nil =>
      rw [List.nil_append, walk_cons_eq_ok]
      simp [walk, eq_comm]
  | cons first before ih =>
      rw [List.cons_append, walk_cons_eq_ok, ih]
      simp only [walk_cons_eq_ok]
      grind

/-- The start of a path stays the same while directories are kept. -/
theorem KeepsDirectories.startOf_eq (h : tree.KeepsDirectories tree') (path : Text) :
    tree'.startOf path = tree.startOf path := by
  rw [startOf, startOf, h.cwd_eq]

/-- Names that could be followed lead to the same location. -/
theorem KeepsDirectories.walk_eq (h : tree.KeepsDirectories tree') {names : List Text}
    {place : Location} (hwalk : tree.walk location names = .ok place) :
    tree'.walk location names = .ok place := by
  induction names generalizing location with
  | nil => exact hwalk
  | cons name names ih =>
      rw [walk_cons_eq_ok] at hwalk ⊢
      exact ⟨h.directory location hwalk.1, ih hwalk.2⟩

/-- What it takes for a path to lead somewhere. -/
theorem lookup_eq_ok {path : Text} {entry : Entry} :
    tree.lookup path = .ok (location, entry) ↔
      path ≠ [] ∧ tree.walk (tree.startOf path) (PathName.names path) = .ok location ∧
        tree.entryAt? location = some entry ∧
        (PathName.endsWithSlash path = true → entry = .directory) := by
  unfold lookup
  by_cases hempty : path = []
  · simp [hempty]
  · rw [if_neg (by simpa using hempty)]
    split
    · rename_i hwalk
      simp [hwalk]
    · rename_i place hwalk
      rw [hwalk]
      split
      · grind
      · grind
      · split <;> grind

/-- What it takes for a path to lead to a file. -/
theorem lookup_eq_file {path : Text} {content : ByteArray} :
    tree.lookup path = .ok (location, .file content) ↔
      path ≠ [] ∧ tree.walk (tree.startOf path) (PathName.names path) = .ok location ∧
        tree.entryAt? location = some (.file content) ∧ PathName.endsWithSlash path = false := by
  simp [lookup_eq_ok]

/-- What it takes for a path to lead to a directory. -/
theorem lookup_eq_directory {path : Text} :
    tree.lookup path = .ok (location, .directory) ↔
      path ≠ [] ∧ tree.walk (tree.startOf path) (PathName.names path) = .ok location ∧
        tree.entryAt? location = some .directory := by
  simp [lookup_eq_ok]

/-- A file is found as before while directories and the file itself stay. -/
theorem KeepsDirectories.lookup_eq (h : tree.KeepsDirectories tree') {path : Text}
    {content : ByteArray} (hlookup : tree.lookup path = .ok (location, .file content))
    (hentry : tree'.entryAt? location = some (.file content)) :
    tree'.lookup path = .ok (location, .file content) := by
  rw [lookup_eq_file] at hlookup ⊢
  rcases hlookup with ⟨hne, hwalk, _, hslash⟩
  rw [h.startOf_eq]
  exact ⟨hne, h.walk_eq hwalk, hentry, hslash⟩

/-- A directory is found as before while directories stay. -/
theorem KeepsDirectories.lookup_directory_eq (h : tree.KeepsDirectories tree') {path : Text}
    (hlookup : tree.lookup path = .ok (location, .directory)) :
    tree'.lookup path = .ok (location, .directory) := by
  rw [lookup_eq_directory] at hlookup ⊢
  rcases hlookup with ⟨hne, hwalk, hentry⟩
  rw [h.startOf_eq]
  exact ⟨hne, h.walk_eq hwalk, h.directory location hentry⟩

/-- What it takes to read the text of a file. -/
theorem readText_eq_ok {path source : Text} :
    tree.readText path = .ok source ↔
      ∃ location content, tree.lookup path = .ok (location, .file content) ∧
        tree.mayRead location = true ∧ decode content = .ok source := by
  unfold readText
  split
  · rename_i hlookup
    simp [hlookup]
  · rename_i hlookup
    simp [hlookup]
  · rename_i location content hlookup
    split
    · rename_i hread
      constructor
      · intro hdecode
        exact ⟨location, content, hlookup, hread, hdecode⟩
      · rintro ⟨place, content', hsame, _, hdecode⟩
        rw [hlookup] at hsame
        cases hsame
        exact hdecode
    · rename_i hclosed
      constructor
      · intro h
        contradiction
      · rintro ⟨place, content', hsame, hread, _⟩
        rw [hlookup] at hsame
        cases hsame
        exact absurd hread hclosed

/-- A directory can be listed. -/
theorem exists_readDirectory_eq_ok {path : Text} (h : tree.isDirectory path = true) :
    ∃ names, tree.readDirectory path = .ok names := by
  unfold isDirectory at h
  split at h
  · rename_i place hlookup
    exact ⟨tree.namesAt place, by rw [readDirectory, hlookup]⟩
  · contradiction

/-! ## Setting entries -/

/-- Replacing what is no directory keeps all directories. -/
theorem keepsDirectories_setEntry (entry : Entry)
    (hold : tree.entryAt? location ≠ some .directory) :
    tree.KeepsDirectories (tree.setEntry location entry) := by
  refine ⟨rfl, rfl, ?_⟩
  intro other hother
  rw [entryAt?_setEntry tree entry (ne_nil_of_entryAt? hold), if_neg, hother]
  rintro rfl
  exact hold hother

/-- A tree stays well-formed when something new or other than a directory is set in
a directory. -/
theorem WellFormed.setEntry (h : tree.WellFormed) (entry : Entry)
    (hold : tree.entryAt? location ≠ some .directory)
    (hparent : tree.entryAt? location.dropLast = some .directory) :
    (tree.setEntry location entry).WellFormed := by
  have hkeeps := keepsDirectories_setEntry entry hold
  refine ⟨hkeeps.directory _ h.cwd, ?_⟩
  intro other entry' hother
  rw [entryAt?_setEntry tree entry (ne_nil_of_entryAt? hold)] at hother
  split at hother
  · rename_i hsame
    rw [hsame]
    exact hkeeps.directory _ hparent
  · exact hkeeps.directory _ (h.parent other entry' hother)

/-! ## Making directories -/

/-- The second tree has all that the first one has, and is as well-formed. -/
structure Grows (tree tree' : FileTree) : Prop where
  cwd_eq : tree'.cwd = tree.cwd
  unreadable_eq : tree'.unreadable = tree.unreadable
  entry : ∀ location entry, tree.entryAt? location = some entry →
    tree'.entryAt? location = some entry
  wellFormed : tree.WellFormed → tree'.WellFormed

theorem Grows.refl (tree : FileTree) : tree.Grows tree :=
  ⟨rfl, rfl, fun _ _ h => h, fun h => h⟩

theorem Grows.trans {tree'' : FileTree} (h : tree.Grows tree') (h' : tree'.Grows tree'') :
    tree.Grows tree'' :=
  ⟨h'.cwd_eq.trans h.cwd_eq, h'.unreadable_eq.trans h.unreadable_eq,
    fun _ _ hentry => h'.entry _ _ (h.entry _ _ hentry),
    fun hwell => h'.wellFormed (h.wellFormed hwell)⟩

/-- A tree that grows keeps its directories. -/
theorem Grows.keepsDirectories (h : tree.Grows tree') : tree.KeepsDirectories tree' :=
  ⟨h.cwd_eq, h.unreadable_eq, fun location => h.entry location .directory⟩

/-- A text that can be read stays the same. -/
theorem Grows.readText_eq (h : tree.Grows tree') {path source : Text}
    (hread : tree.readText path = .ok source) : tree'.readText path = .ok source := by
  rcases readText_eq_ok.mp hread with ⟨location, content, hlookup, hmay, hdecode⟩
  have hentry := h.entry _ _ (lookup_eq_file.mp hlookup).2.2.1
  have hkeeps := h.keepsDirectories
  exact readText_eq_ok.mpr ⟨location, content, hkeeps.lookup_eq hlookup hentry,
    (hkeeps.mayRead_eq location).trans hmay, hdecode⟩

/-- The last name of a path stands in a directory, to which the names before it
lead. -/
theorem lastName_eq_ok {path name : Text} (h : tree.lastName path = .ok (location, name)) :
    ∃ before, PathName.names path = before ++ [name] ∧
      tree.walk (tree.startOf path) before = .ok location ∧
      tree.entryAt? location = some .directory := by
  unfold lastName at h
  split at h
  · split at h <;> contradiction
  · rename_i last hlast
    split at h
    · contradiction
    · rename_i place hwalk
      split at h
      · contradiction
      · rename_i hrequire
        cases h
        refine ⟨_, ?_, hwalk, requireDirectory_eq_ok.mp hrequire⟩
        rcases List.getLast?_eq_some_iff.mp hlast with ⟨before, hbefore⟩
        rw [hbefore, List.dropLast_concat]

/-- Making a directory sets it at the place to which its path leads, where nothing
stood, in a directory. -/
theorem makeDirectory_eq_ok {path : Text} (h : tree.makeDirectory path = .ok tree') :
    ∃ place name, tree.walk (tree.startOf path) (PathName.names path) = .ok (place ++ [name]) ∧
      tree.entryAt? place = some .directory ∧
      tree.entryAt? (place ++ [name]) = none ∧
      tree' = tree.setEntry (place ++ [name]) .directory := by
  unfold makeDirectory at h
  split at h
  · contradiction
  · rename_i place name hlast
    split at h
    · contradiction
    · rename_i hdots
      split at h
      · contradiction
      · rename_i hnone
        cases h
        rcases lastName_eq_ok hlast with ⟨before, hnames, hwalk, hplace⟩
        refine ⟨place, name, ?_, hplace, by simpa using hnone, rfl⟩
        rw [hnames, walk_concat_eq_ok]
        refine ⟨place, hwalk, hplace, ?_⟩
        rw [move, if_neg (not_or.mp hdots).1, if_neg (not_or.mp hdots).2]

/-- Making a directory makes the tree grow. -/
theorem grows_makeDirectory {path : Text} (h : tree.makeDirectory path = .ok tree') :
    tree.Grows tree' := by
  rcases makeDirectory_eq_ok h with ⟨place, name, _, hplace, hfree, rfl⟩
  refine ⟨rfl, rfl, ?_, ?_⟩
  · intro other entry hother
    rw [entryAt?_setEntry tree _ (by simp), if_neg, hother]
    rintro rfl
    rw [hfree] at hother
    contradiction
  · intro hwell
    refine hwell.setEntry _ (by simp [hfree]) ?_
    rw [List.dropLast_concat]
    exact hplace

section MakeDirectories

variable {P : FileTree → FileTree → Prop} {path : Text} (hrefl : ∀ tree, P tree tree)
  (htrans : ∀ tree tree' tree'', P tree tree' → P tree' tree'' → P tree tree'')
  (hmake : ∀ ancestor, PathName.components ancestor <+: PathName.components path →
    ∀ tree tree', tree.makeDirectory ancestor = .ok tree' → P tree tree')

include hrefl htrans

/-- What making one directory and what making its parent preserve, making both preserves.
-/
theorem makeWith_induction {ancestor : Text}
    (hmake : ∀ tree tree', tree.makeDirectory ancestor = .ok tree' → P tree tree')
    (tree : FileTree) {makeParent : FileTree → FileTree × Option OsError}
    (hparent : ∀ tree : FileTree, P tree (makeParent tree).1) :
    P tree (tree.makeWith ancestor makeParent).1 := by
  unfold makeWith
  split
  · rename_i hfirst
    exact hmake _ _ hfirst
  · have hstep := hparent tree
    split
    · rename_i hmade
      rwa [hmade] at hstep
    · rename_i hmade
      rw [hmade] at hstep
      split
      · rename_i hagain
        exact htrans _ _ _ hstep (hmake _ _ hagain)
      · exact hstep
  · exact hrefl tree

include hmake

/-- What making one directory preserves, making all directories on the way preserves. -/
theorem makeAlong_induction (tree : FileTree) {parts : List Component}
    (hparts : parts.reverse <+: PathName.components path) : P tree (tree.makeAlong parts).1 := by
  induction parts generalizing tree with
  | nil => exact hrefl tree
  | cons last before ih =>
      have hcomponents := PathName.components_ofComponents hparts (by simp)
      refine makeWith_induction hrefl htrans (hmake _ (hcomponents.symm ▸ hparts)) tree ?_
      intro tree
      rw [List.reverse_cons] at hparts
      exact ih tree ((List.prefix_append _ _).trans hparts)

/-- Making a directory and all that are missing around it is making directories one
by one, each of them on the way to the last. -/
theorem makeDirectories_induction (tree : FileTree) : P tree (tree.makeDirectories path).1 := by
  refine makeWith_induction hrefl htrans (hmake path List.prefix_rfl) tree ?_
  intro tree
  refine makeAlong_induction hrefl htrans hmake tree ?_
  rw [List.reverse_reverse]
  exact List.dropLast_prefix _

end MakeDirectories

/-- Making directories leaves every entry as it is. -/
theorem grows_makeDirectories (tree : FileTree) (path : Text) :
    tree.Grows (tree.makeDirectories path).1 :=
  makeDirectories_induction .refl (fun _ _ _ => .trans) (fun _ _ _ _ => grows_makeDirectory) tree

/-- The second tree has the files of the first one, each with its content, and no
others. -/
def SameFiles (tree tree' : FileTree) : Prop :=
  ∀ location content, tree'.entryAt? location = some (.file content) ↔
    tree.entryAt? location = some (.file content)

theorem SameFiles.refl (tree : FileTree) : tree.SameFiles tree :=
  fun _ _ => Iff.rfl

/-- Making a directory changes no file. -/
theorem sameFiles_makeDirectory {path : Text} (h : tree.makeDirectory path = .ok tree') :
    tree.SameFiles tree' := by
  rcases makeDirectory_eq_ok h with ⟨place, name, _, _, hfree, rfl⟩
  intro other content
  rw [entryAt?_setEntry tree _ (by simp)]
  split
  · rename_i heq
    simp [heq, hfree]
  · rfl

/-- Making directories makes no file and changes none. -/
theorem sameFiles_makeDirectories (tree : FileTree) (path : Text) :
    tree.SameFiles (tree.makeDirectories path).1 :=
  makeDirectories_induction .refl
    (fun _ _ _ h h' location content => (h' location content).trans (h location content))
    (fun _ _ _ _ => sameFiles_makeDirectory) tree

/-! ## Files that stay -/

/-- Directories stay directories and files stay files, whatever they hold. -/
structure KeepsKinds (tree tree' : FileTree) : Prop extends KeepsDirectories tree tree' where
  file : ∀ location content, tree.entryAt? location = some (.file content) →
    ∃ content', tree'.entryAt? location = some (.file content')

theorem KeepsKinds.refl (tree : FileTree) : tree.KeepsKinds tree :=
  ⟨.refl tree, fun _ content h => ⟨content, h⟩⟩

/-- Kinds that are kept in two steps are kept. -/
theorem KeepsKinds.trans {tree'' : FileTree} (h : tree.KeepsKinds tree')
    (h' : tree'.KeepsKinds tree'') : tree.KeepsKinds tree'' := by
  refine ⟨h.toKeepsDirectories.trans h'.toKeepsDirectories, ?_⟩
  intro location content hentry
  rcases h.file location content hentry with ⟨content', hentry'⟩
  exact h'.file location content' hentry'

/-- Writing a file makes no directory a file and no file a directory. -/
theorem keepsKinds_writeFile {path : Text} {content : ByteArray}
    (h : tree.writeFile path content = .ok tree') : tree.KeepsKinds tree' := by
  unfold writeFile at h
  split at h
  · contradiction
  · split at h
    · contradiction
    · rename_i hold
      cases h
      refine ⟨keepsDirectories_setEntry _ hold, ?_⟩
      intro other content' hother
      rw [entryAt?_setEntry tree _ (ne_nil_of_entryAt? hold)]
      split
      · exact ⟨content, rfl⟩
      · exact ⟨content', hother⟩

/-- A path that leads to a file leads to the same place, where a file stands still. -/
theorem KeepsKinds.exists_lookup_eq (h : tree.KeepsKinds tree') {path : Text} {content : ByteArray}
    (hlookup : tree.lookup path = .ok (location, .file content)) :
    ∃ content', tree'.lookup path = .ok (location, .file content') := by
  rcases h.file location content (lookup_eq_file.mp hlookup).2.2.1 with ⟨content', hentry⟩
  rw [lookup_eq_file] at hlookup
  rcases hlookup with ⟨hne, hwalk, _, hslash⟩
  refine ⟨content', lookup_eq_file.mpr ⟨hne, ?_, hentry, hslash⟩⟩
  rw [h.startOf_eq]
  exact h.walk_eq hwalk

/-! ## Files in directories -/

/-- A move by an ordinary name goes one level down. -/
theorem move_of_isName {name : Text} (h : PathName.IsName name) :
    move location name = location ++ [name] := by
  rw [move, if_neg h.ne_dot, if_neg h.ne_dots]

/-- A name put behind a directory does not change where the path starts. -/
theorem startOf_join (directory : Text) {name : Text} (h : PathName.IsName name) :
    tree.startOf (PathName.join directory name) = tree.startOf directory := by
  rw [startOf, startOf, PathName.isAbsolute_join directory h.no_slash]

/-- Writing a file into a directory sets the entry under its name there, where no
directory may stand. -/
theorem writeFile_join_eq_ok {directory name : Text} {content : ByteArray}
    (hname : PathName.IsName name)
    (h : tree.writeFile (PathName.join directory name) content = .ok tree') :
    ∃ place, tree.walk (tree.startOf directory) (PathName.names directory) = .ok place ∧
      tree.entryAt? place = some .directory ∧
      tree.entryAt? (place ++ [name]) ≠ some .directory ∧
      tree' = tree.setEntry (place ++ [name]) (.file content) := by
  unfold writeFile at h
  split at h
  · contradiction
  · rename_i place last hlast
    rcases lastName_eq_ok hlast with ⟨before, hnames, hwalk, hplace⟩
    rw [PathName.names_join directory hname.ne_nil hname.no_slash] at hnames
    rcases List.append_inj' hnames rfl with ⟨rfl, hsame⟩
    cases hsame
    rw [startOf_join directory hname] at hwalk
    rw [move_of_isName hname] at h
    split at h
    · contradiction
    · rename_i hold
      cases h
      exact ⟨place, hwalk, hplace, hold, rfl⟩

/-- A file that stands in a directory is found there. -/
theorem lookup_join {directory name : Text} {content : ByteArray} (hname : PathName.IsName name)
    {place : Location}
    (hwalk : tree.walk (tree.startOf directory) (PathName.names directory) = .ok place)
    (hplace : tree.entryAt? place = some .directory)
    (hentry : tree.entryAt? (place ++ [name]) = some (.file content)) :
    tree.lookup (PathName.join directory name) = .ok (place ++ [name], .file content) := by
  rw [lookup_eq_file, startOf_join directory hname,
    PathName.names_join directory hname.ne_nil hname.no_slash, walk_concat_eq_ok]
  refine ⟨PathName.join_ne_nil directory hname.ne_nil, ⟨place, hwalk, hplace, ?_⟩, hentry,
    PathName.endsWithSlash_join directory hname.ne_nil hname.no_slash⟩
  rw [move_of_isName hname]

/-- In a well-formed tree, a path that leads to a file ends with the name under
which the file stands in its directory. -/
theorem WellFormed.exists_fileName (h : tree.WellFormed) {path : Text} {content : ByteArray}
    (hlookup : tree.lookup path = .ok (location, .file content)) :
    ∃ place name, location = place ++ [name] ∧ PathName.IsName name ∧
      PathName.fileName? path = some name := by
  rcases lookup_eq_file.mp hlookup with ⟨_, hwalk, hentry, _⟩
  have hfile : tree.entryAt? location ≠ some .directory := by simp [hentry]
  rcases List.eq_nil_or_concat (PathName.names path) with hnil | ⟨before, name, hnames⟩
  · -- Without a name the path leads to the directory where it starts.
    rw [hnil, walk] at hwalk
    cases hwalk
    refine absurd ?_ hfile
    unfold startOf
    split
    · exact entryAt?_nil tree
    · exact h.cwd
  · rw [hnames, List.concat_eq_append, walk_concat_eq_ok] at hwalk
    rcases hwalk with ⟨place, _, hplace, rfl⟩
    rw [List.concat_eq_append] at hnames
    have hdot : name ≠ ['.'] := by
      rintro rfl
      exact hfile hplace
    have hdots : name ≠ ['.', '.'] := by
      rintro rfl
      exact hfile (h.parent place _ hplace)
    have hmem : name ∈ PathName.names path := by simp [hnames]
    have hname : PathName.IsName name :=
      ⟨(PathName.of_mem_names hmem).1, hdot, hdots, (PathName.of_mem_names hmem).2⟩
    exact ⟨place, name, move_of_isName hname, hname, PathName.fileName?_of_names hnames hname⟩

end FileTree
end Command
end DocComment
