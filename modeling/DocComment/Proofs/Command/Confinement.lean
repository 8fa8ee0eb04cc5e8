import DocComment.Proofs.Command.Failures
import DocComment.Proofs.Command.Modes

/-!
# Confined runs

With an output directory the command makes that directory and the missing ones around
it, and then writes the outputs of its inputs directly into it.  The name of an output
is made from the last name of a path that leads to a file, so it has no slash and does
not lead anywhere else.  Everything but these directories and outputs stays as it was,
wherever the run ends.  Without an output directory nothing changes at all.

Main results:

- Definition `Effect`: what a run can have done at a location.
- Theorem `FileTree.growsAlong_makeDirectories`: making a directory makes others only
  on the way to it.
- Theorem `Confined.of_processFile`: processing an input writes at most its output.
- Theorem `command_confined`: the command has no other effects, on any tree and with
  any arguments.
-/

namespace DocComment
namespace Command

/-! ## Directories on the way -/

namespace FileTree

variable {tree tree' : FileTree} {path : Text}

/-- A tree that grows by directories on the way along a path. -/
structure GrowsAlong (path : Text) (tree tree' : FileTree) : Prop extends Grows tree tree' where
  made : ∀ location, tree'.entryAt? location = tree.entryAt? location ∨
    tree.entryAt? location = none ∧
      ∃ ancestor, PathName.components ancestor <+: PathName.components path ∧
        tree'.lookup ancestor = .ok (location, .directory)

theorem GrowsAlong.refl (path : Text) (tree : FileTree) : GrowsAlong path tree tree :=
  ⟨.refl tree, fun _ => .inl rfl⟩

/-- Directories made in two steps are all on the way to the path. -/
theorem GrowsAlong.trans {tree'' : FileTree} (h : GrowsAlong path tree tree')
    (h' : GrowsAlong path tree' tree'') : GrowsAlong path tree tree'' := by
  refine ⟨h.toGrows.trans h'.toGrows, ?_⟩
  intro location
  rcases h'.made location with hsame | ⟨hfree, hmade⟩
  · rcases h.made location with hsame' | ⟨hfree, ancestor, hancestor, hlookup⟩
    · exact .inl (hsame.trans hsame')
    · exact .inr ⟨hfree, ancestor, hancestor, h'.keepsDirectories.lookup_directory_eq hlookup⟩
  · -- What is free in the second tree was so in the first.
    refine .inr ⟨?_, hmade⟩
    rw [Option.eq_none_iff_forall_ne_some]
    intro entry hentry
    rw [h.entry location entry hentry] at hfree
    contradiction

/-- A directory that was made is found under its path, and nothing else is new. -/
theorem lookup_of_makeDirectory (h : tree.makeDirectory path = .ok tree') :
    ∃ place, tree.entryAt? place = none ∧ tree'.lookup path = .ok (place, .directory) ∧
      ∀ location, location ≠ place → tree'.entryAt? location = tree.entryAt? location := by
  have hempty : path ≠ [] := by
    rintro rfl
    have herror : tree.makeDirectory [] = .error .noEntry := rfl
    rw [herror] at h
    cases h
  have hkeeps := (grows_makeDirectory h).keepsDirectories
  rcases makeDirectory_eq_ok h with ⟨place, name, hwalk, _, hfree, rfl⟩
  have hroot : place ++ [name] ≠ [] := by simp
  refine ⟨place ++ [name], hfree, lookup_eq_directory.mpr ⟨hempty, ?_, ?_⟩, ?_⟩
  · rw [hkeeps.startOf_eq]
    exact hkeeps.walk_eq hwalk
  · rw [entryAt?_setEntry tree _ hroot, if_pos rfl]
  · intro location hne
    rw [entryAt?_setEntry tree _ hroot, if_neg hne]

/-- Making an ancestor of a path adds a directory on the way to it. -/
theorem growsAlong_makeDirectory {ancestor : Text}
    (hancestor : PathName.components ancestor <+: PathName.components path)
    (h : tree.makeDirectory ancestor = .ok tree') : GrowsAlong path tree tree' := by
  refine ⟨grows_makeDirectory h, ?_⟩
  intro location
  rcases lookup_of_makeDirectory h with ⟨place, hfree, hlookup, hsame⟩
  by_cases heq : location = place
  · rw [heq]
    exact .inr ⟨hfree, ancestor, hancestor, hlookup⟩
  · exact .inl (hsame location heq)

/-- Making a directory and all that are missing around it makes directories on the way
to it only. -/
theorem growsAlong_makeDirectories (tree : FileTree) (path : Text) :
    GrowsAlong path tree (tree.makeDirectories path).1 :=
  makeDirectories_induction (.refl path) (fun _ _ _ => .trans)
    (fun _ hancestor _ _ => growsAlong_makeDirectory hancestor) tree

/-- The path of a directory is found in the tree as a directory. -/
theorem exists_lookup_of_isDirectory (h : tree.isDirectory path = true) :
    ∃ place, tree.lookup path = .ok (place, .directory) := by
  unfold isDirectory at h
  split at h
  · rename_i place hlookup
    exact ⟨place, hlookup⟩
  · contradiction

/-- Making a directory without a failure leaves a directory under its path. -/
theorem exists_lookup_of_makeWith {makeParent : FileTree → FileTree × Option OsError}
    (h : tree.makeWith path makeParent = (tree', none)) :
    ∃ place, tree'.lookup path = .ok (place, .directory) := by
  have hthere : ∀ tree error, (tree, if tree.isDirectory path then none else some error) =
      (tree', (none : Option OsError)) → ∃ place, tree'.lookup path = .ok (place, .directory) := by
    intro tree error heq
    split at heq
    · rename_i hdirectory
      cases heq
      exact exists_lookup_of_isDirectory hdirectory
    · cases heq
  have hmade : ∀ tree : FileTree, tree.makeDirectory path = .ok tree' →
      ∃ place, tree'.lookup path = .ok (place, .directory) := by
    intro tree hmake
    rcases lookup_of_makeDirectory hmake with ⟨place, _, hlookup, _⟩
    exact ⟨place, hlookup⟩
  unfold makeWith at h
  split at h
  · rename_i hmake
    cases h
    exact hmade tree hmake
  · split at h
    · cases h
    · split at h
      · rename_i hmake
        cases h
        exact hmade _ hmake
      · exact hthere _ _ h
  · exact hthere _ _ h

end FileTree

/-! ## Effects -/

variable {options : Options} {format : Format} {directory : Text} {before : FileTree}
  {session session' : Session} {location : Location}

/-- What a run with an output directory can have done at a location. -/
inductive Effect (options : Options) (directory : Text) (before : FileTree) (session : Session)
    (location : Location) : Prop
  /-- Nothing. -/
  | unchanged (hsame : session.tree.entryAt? location = before.entryAt? location)
  /-- A directory is new there: the output directory or one around it. -/
  | made {ancestor : Text} (hfree : before.entryAt? location = none)
      (hancestor : PathName.components ancestor <+: PathName.components directory)
      (hlookup : session.tree.lookup ancestor = .ok (location, .directory))
  /-- A file is new there or has a new content: directly in the output directory, and
  with the stem of an input whose records were extracted. -/
  | written {format : Format} {events : List Event} {files : List Text} {path stem : Text}
      {records : Nat} {place : Location} {content : ByteArray}
      (hformat : Format.ofName options.formatName = .ok format)
      (hinputs : inputFiles (before.makeDirectories directory).1 options.files =
        (events, .ok files))
      (hpath : path ∈ files) (hextracted : .extracted path records ∈ session.events)
      (hstem : PathName.stem? path = some stem)
      (hname : PathName.IsName (stem ++ '.' :: format.extension))
      (hplace : session.tree.lookup directory = .ok (place, .directory))
      (hlocation : location = place ++ [stem ++ '.' :: format.extension])
      (hold : before.entryAt? location ≠ some .directory)
      (hnew : session.tree.entryAt? location = some (.file content))

/-- Where nothing changes, an effect stays what it was. -/
theorem Effect.mono (h : Effect options directory before session location)
    (hkeeps : session.tree.KeepsDirectories session'.tree)
    (hevents : session.events ⊆ session'.events)
    (hsame : session'.tree.entryAt? location = session.tree.entryAt? location) :
    Effect options directory before session' location := by
  cases h with
  | unchanged hsame' => exact .unchanged (hsame.trans hsame')
  | made hfree hancestor hlookup =>
      exact .made hfree hancestor (hkeeps.lookup_directory_eq hlookup)
  | written hformat hinputs hpath hextracted hstem hname hplace hlocation hold hnew =>
      exact .written hformat hinputs hpath (hevents hextracted) hstem hname
        (hkeeps.lookup_directory_eq hplace) hlocation hold (hsame.trans hnew)

/-- A run has no other effects than those of its output directory. -/
structure Confined (options : Options) (directory : Text) (before : FileTree)
    (session : Session) : Prop where
  cwd_eq : session.tree.cwd = before.cwd
  unreadable_eq : session.tree.unreadable = before.unreadable
  wellFormed : session.tree.WellFormed
  effect : ∀ location, Effect options directory before session location

namespace Confined

/-- A run has changed nothing before it does anything. -/
theorem start (hwell : before.WellFormed) :
    Confined options directory before (Session.start before) :=
  ⟨rfl, rfl, hwell, fun _ => .unchanged rfl⟩

/-- No effect replaces a directory. -/
theorem keepsDirectories (h : Confined options directory before session) :
    before.KeepsDirectories session.tree := by
  refine ⟨h.cwd_eq, h.unreadable_eq, ?_⟩
  intro location hentry
  cases h.effect location with
  | unchanged hsame => rw [hsame, hentry]
  | made hfree => simp [hentry] at hfree
  | written _ _ _ _ _ _ _ _ hold => exact absurd hentry hold

/-- A session with the same tree that tells more is confined as well. -/
theorem of_tree_eq (h : Confined options directory before session)
    (htree : session'.tree = session.tree) (hevents : session.events ⊆ session'.events) :
    Confined options directory before session' := by
  refine ⟨by rw [htree, h.cwd_eq], by rw [htree, h.unreadable_eq], htree ▸ h.wellFormed, ?_⟩
  intro location
  exact (h.effect location).mono (htree ▸ .refl _) hevents (by rw [htree])

/-- Telling events changes nothing in the tree. -/
theorem tell (h : Confined options directory before session) (events : List Event) :
    Confined options directory before (session.tell events) :=
  h.of_tree_eq rfl (List.subset_append_left _ _)

/-- Making the output directory makes it and the missing directories around it. -/
theorem of_makeDirectories (hwell : before.WellFormed)
    (htree : session.tree = (before.makeDirectories directory).1) :
    Confined options directory before session := by
  have hgrows := FileTree.growsAlong_makeDirectories before directory
  rw [← htree] at hgrows
  refine ⟨hgrows.cwd_eq, hgrows.unreadable_eq, hgrows.wellFormed hwell, ?_⟩
  intro location
  rcases hgrows.made location with hsame | ⟨hfree, ancestor, hancestor, hlookup⟩
  · exact .unchanged hsame
  · exact .made hfree hancestor hlookup

end Confined

/-! ## Inputs -/

/-- Delivering the text of a file tells no events. -/
theorem events_deliver (options : Options) (format : Format) (path text : Text)
    (session : Session) : (deliver options format path text session).1.events = session.events := by
  unfold deliver
  split
  · rfl
  · dsimp only
    split <;> rfl

/-- The events told before a file is processed are kept. -/
theorem subset_events_processFile (options : Options) (format : Format) (session : Session)
    (path : Text) : session.events ⊆ (processFile options format session path).1.events := by
  unfold processFile
  split
  · exact List.subset_append_left _ _
  · rw [events_deliver]
    exact List.subset_append_left _ _

/-- Of an input that can be read it is told that its records were extracted. -/
theorem extracted_mem_events {path source : Text}
    (hread : session.tree.readText path = .ok source) :
    .extracted path (extract options.namedOnly source).length ∈
      (processFile options format session path).1.events := by
  simp only [processFile, hread, events_deliver]
  simp [Session.tell]

/-- Processing an input is a step of the tree, or fails and leaves the tree as it is. -/
theorem tree_processFile (houtput : options.output = some directory)
    (hwell : session.tree.WellFormed) (path : Text) :
    (processFile options format session path).1.tree = session.tree ∨
      FileStep options format directory path session.tree
        (processFile options format session path).1.tree := by
  rcases hprocess : processFile options format session path with ⟨session', _ | failure⟩
  · exact .inr (processFile_step houtput hwell hprocess)
  · rcases processFile_eq_failure hprocess with ⟨_, _, _, _, _, _, _, rfl⟩
    exact .inl rfl

/-- Processing an input writes at most its own output. -/
theorem Confined.of_processFile (h : Confined options directory before session)
    (houtput : options.output = some directory)
    (hformat : Format.ofName options.formatName = .ok format) {events : List Event}
    {files : List Text}
    (hinputs : inputFiles (before.makeDirectories directory).1 options.files = (events, .ok files))
    {path : Text} (hpath : path ∈ files) {place : Location}
    (hplace : session.tree.lookup directory = .ok (place, .directory)) :
    Confined options directory before (processFile options format session path).1 := by
  have hevents := subset_events_processFile options format session path
  rcases tree_processFile houtput h.wellFormed path with htree | hstep
  · exact h.of_tree_eq htree hevents
  · have hkeeps := hstep.keepsDirectories
    have hwell := hstep.wellFormed h.wellFormed
    generalize htree : (processFile options format session path).1.tree = tree at hstep
    cases hstep with
    | skip => exact h.of_tree_eq htree hevents
    | @write source place' hread hstem hname hwalk hplace' hold =>
        -- The path of the output directory still leads to the same place.
        have hsame : place' = place := by
          have hwalk' := (FileTree.lookup_eq_directory.mp hplace).2.1
          rw [hwalk] at hwalk'
          cases hwalk'
          rfl
        subst hsame
        refine ⟨hkeeps.cwd_eq.trans h.cwd_eq, hkeeps.unreadable_eq.trans h.unreadable_eq, hwell,
          ?_⟩
        intro location
        have hentry := FileTree.entryAt?_setEntry session.tree
          (.file (outputContent options format source)) (FileTree.ne_nil_of_entryAt? hold) location
        rw [← htree] at hentry
        -- The only entry that changes is the one under the name of the output.
        by_cases heq : location = place' ++ [outputName format path]
        · rcases Option.isSome_iff_exists.mp hstem with ⟨stem, hstem⟩
          rw [if_pos heq] at hentry
          rw [outputName_eq hstem] at hname heq hold
          refine .written hformat hinputs hpath (extracted_mem_events hread) hstem hname
            (hkeeps.lookup_directory_eq hplace) heq ?_ hentry
          rw [heq]
          exact fun hdirectory => hold (h.keepsDirectories.directory _ hdirectory)
        · rw [if_neg heq] at hentry
          exact (h.effect location).mono hkeeps hevents hentry

/-- Processing all inputs writes at most their outputs, wherever the run ends. -/
theorem Confined.of_processFiles (h : Confined options directory before session)
    (houtput : options.output = some directory)
    (hformat : Format.ofName options.formatName = .ok format) {events : List Event}
    {files : List Text}
    (hinputs : inputFiles (before.makeDirectories directory).1 options.files = (events, .ok files))
    {place : Location} (hplace : session.tree.lookup directory = .ok (place, .directory)) :
    Confined options directory before (processFiles options format session files).1 := by
  have hrun : Confined options directory before (processFiles options format session files).1 ∧
      (processFiles options format session files).1.tree.lookup directory =
        .ok (place, .directory) := by
    refine processFiles_preserves (P := fun next => Confined options directory before next ∧
      next.tree.lookup directory = .ok (place, .directory)) ?_ ⟨h, hplace⟩
    rintro path hpath next ⟨hnext, hplace⟩
    refine ⟨hnext.of_processFile houtput hformat hinputs hpath hplace, ?_⟩
    rcases tree_processFile houtput hnext.wellFormed path with htree | hstep
    · rw [htree, hplace]
    · exact hstep.keepsDirectories.lookup_directory_eq hplace
  exact hrun.1

/-! ## Runs -/

/-- After the preparation without a failure the output directory is there. -/
theorem exists_lookup_of_prepareOutput (houtput : options.output = some directory)
    {prepared : Session} (h : prepareOutput options session = (prepared, none)) :
    ∃ place, prepared.tree.lookup directory = .ok (place, .directory) := by
  simp only [prepareOutput, houtput] at h
  split at h
  · rename_i hmake
    cases h
    exact FileTree.exists_lookup_of_makeWith hmake
  · cases h

/-- The preparation does nothing but make the output directory. -/
theorem tree_eq_of_prepareOutput (houtput : options.output = some directory)
    {prepared : Session} {failure : Option Failure}
    (h : prepareOutput options (Session.start before) = (prepared, failure)) :
    prepared.tree = (before.makeDirectories directory).1 := by
  have htree := tree_prepareOutput options (Session.start before)
  rw [h, houtput] at htree
  exact htree

/-- A run over files with an output directory is confined, wherever it ends. -/
theorem RunsFiles.confined (houtput : options.output = some directory)
    (hwell : before.WellFormed) {failure : Option Failure}
    (h : RunsFiles options (Session.start before) session failure) :
    Confined options directory before session := by
  cases h with
  | format => exact .start hwell
  | outputDirectory hprepare =>
      exact .of_makeDirectories hwell (tree_eq_of_prepareOutput houtput hprepare)
  | expansion hprepare =>
      have hprepared := tree_eq_of_prepareOutput houtput hprepare
      exact (Confined.of_makeDirectories hwell hprepared).tell _
  | @process format prepared _ events files _ hformat hprepare hinputs hprocess =>
      have hprepared := tree_eq_of_prepareOutput houtput hprepare
      rw [hprepared] at hinputs
      rcases exists_lookup_of_prepareOutput houtput hprepare with ⟨place, hplace⟩
      have hfiles := ((Confined.of_makeDirectories hwell hprepared).tell events).of_processFiles
        houtput hformat hinputs hplace
      rwa [hprocess] at hfiles

/-- A run over files without an output directory leaves the tree as it is. -/
theorem RunsFiles.tree_eq (houtput : options.output = none) {failure : Option Failure}
    (h : RunsFiles options session session' failure) : session'.tree = session.tree := by
  have htree := tree_prepareOutput options session
  rw [houtput, Option.elim_none] at htree
  cases h with
  | format => rfl
  | outputDirectory hprepare =>
      rw [hprepare] at htree
      exact htree
  | expansion hprepare =>
      rw [hprepare] at htree
      exact htree
  | @process format prepared _ events files _ hformat hprepare hinputs hprocess =>
      rw [hprepare] at htree
      rcases processFiles_eq_print houtput format (prepared.tell events) files with
        ⟨events', hprint⟩
      rw [hprint] at hprocess
      cases hprocess
      exact htree

/-- A run on the standard input leaves the tree as it is. -/
theorem tree_runStdin (options : Options) (stdin : ByteArray) (session : Session) :
    (runStdin options stdin session).1.tree = session.tree := by
  unfold runStdin
  split
  · rfl
  · split <;> rfl

/-- A run without an output directory leaves the tree as it is. -/
theorem tree_run (houtput : options.output = none) (stdin : ByteArray) (tree : FileTree) :
    (run options stdin tree).1.tree = tree := by
  unfold run
  split
  · exact tree_runStdin options stdin (Session.start tree)
  · exact (runsFiles_of_runFiles rfl).tree_eq houtput

/-- A run with an output directory changes nothing elsewhere. -/
theorem confined_run (houtput : options.output = some directory) (stdin : ByteArray)
    (hwell : before.WellFormed) :
    Confined options directory before (run options stdin before).1 := by
  unfold run
  split
  · have htree := tree_runStdin options stdin (Session.start before)
    exact Confined.of_tree_eq (.start hwell) htree (List.nil_subset _)
  · exact (runsFiles_of_runFiles rfl).confined houtput hwell

/-! ## The command -/

/-- The session in which the command ends.  Without options nothing is done. -/
def Outcome.lastSession (tree : FileTree) : Outcome → Session
  | .help => .start tree
  | .usage _ => .start tree
  | .done session _ _ => session

/-- The last session of the command is that of the run with its options. -/
theorem lastSession_command {arguments : List Text}
    (hoptions : Options.parse arguments = .ok options) (logSetting : Option Text)
    (stdin : ByteArray) (tree : FileTree) :
    (command arguments logSetting stdin tree).lastSession tree = (run options stdin tree).1 := by
  rw [command, hoptions]
  rfl

/-- The command does not write outside of its output directory, whether it fails or
not.  Without an output directory it leaves the tree as it is.  With one, each
location is unchanged, or one at which the output directory or a missing directory
around it was made, or that of an output directly in the output directory, under the
stem of one of the inputs and the extension of the format. -/
theorem command_confined (arguments : List Text) (logSetting : Option Text) (stdin : ByteArray)
    (tree : FileTree) :
    ((∀ options, Options.parse arguments = .ok options → options.output = none) →
      ((command arguments logSetting stdin tree).lastSession tree).tree = tree) ∧
    (tree.WellFormed → ∀ options directory, Options.parse arguments = .ok options →
      options.output = some directory →
      Confined options directory tree
        ((command arguments logSetting stdin tree).lastSession tree)) := by
  constructor
  · intro hnone
    cases hoptions : Options.parse arguments with
    | error interruption =>
        rw [command, hoptions]
        cases interruption <;> rfl
    | ok options =>
        rw [lastSession_command hoptions]
        exact tree_run (hnone options hoptions) stdin tree
  · intro hwell options directory hoptions houtput
    rw [lastSession_command hoptions]
    exact confined_run houtput stdin hwell

/-! ## Names with dots -/

/-- A tree with a hidden file and a file with two dots in its name. -/
def dottedTree : FileTree where
  entries :=
    [(["work".toList], .directory),
     (["work".toList, ".env".toList], .file (Text.encodeUtf8 (namedSource "first"))),
     (["work".toList, "src".toList], .directory),
     (["work".toList, "src".toList, "api.d.ts".toList],
       .file (Text.encodeUtf8 (namedSource "second")))]
  cwd := ["work".toList, "src".toList]

/-- The options of a run over the two files, which are reached through the directory
above. -/
def dottedOptions : Options where
  files := ["../.env".toList, "../src/api.d.ts".toList]
  output := some "docs/api".toList
  format := none
  namedOnly := false
  verbose := false

/-- The options on the command line. -/
def dottedArguments : List Text :=
  ["-o".toList, "docs/api".toList] ++ dottedOptions.files

theorem wellFormed_dottedTree : dottedTree.WellFormed :=
  FileTree.wellFormed_of_entries (by decide) (by decide)

theorem inputFiles_dottedTree :
    inputFiles (dottedTree.makeDirectories "docs/api".toList).1 dottedOptions.files =
      ([], .ok dottedOptions.files) :=
  inputFiles_of_ascending rfl (by decide)

theorem run_dottedTree :
    run dottedOptions .empty dottedTree =
      processFiles dottedOptions .json ⟨(dottedTree.makeDirectories "docs/api".toList).1, [], []⟩
        dottedOptions.files :=
  run_eq_processFiles (by decide) rfl rfl rfl inputFiles_dottedTree .empty

/-- The two files have their outputs in a directory that was made with the one around
it, and without that directory nothing changes. -/
theorem command_confined_dotted :
    (dottedTree.WellFormed ∧
      Confined dottedOptions "docs/api".toList dottedTree
        ((command dottedArguments none .empty dottedTree).lastSession dottedTree)) ∧
    (FileTree.changedFiles dottedTree
        ((command dottedArguments none .empty dottedTree).lastSession dottedTree).tree).map
          Prod.fst =
      [["work".toList, "src".toList, "docs".toList, "api".toList, ".env.json".toList],
       ["work".toList, "src".toList, "docs".toList, "api".toList, "api.d.json".toList]] ∧
    FileTree.newDirectories dottedTree
        ((command dottedArguments none .empty dottedTree).lastSession dottedTree).tree =
      [["work".toList, "src".toList, "docs".toList],
       ["work".toList, "src".toList, "docs".toList, "api".toList]] ∧
    ((command dottedOptions.files none .empty dottedTree).lastSession dottedTree).tree =
      dottedTree := by
  have hoptions : Options.parse dottedArguments = .ok dottedOptions := rfl
  refine ⟨⟨wellFormed_dottedTree, ?_⟩, ?_, ?_, ?_⟩
  · exact (command_confined dottedArguments none .empty dottedTree).2 wellFormed_dottedTree
      dottedOptions "docs/api".toList hoptions rfl
  · rw [lastSession_command hoptions, run_dottedTree]
    decide +kernel
  · rw [lastSession_command hoptions, run_dottedTree]
    decide +kernel
  · refine (command_confined dottedOptions.files none .empty dottedTree).1 ?_
    intro options hparse
    cases hparse
    rfl

end Command
end DocComment
