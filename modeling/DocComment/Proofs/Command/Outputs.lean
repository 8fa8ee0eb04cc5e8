import DocComment.Command.Run
import DocComment.Proofs.Command.Expansion
import DocComment.Proofs.Command.FileTree

/-!
# Output files

With an output directory, each input file that can be read has its output file
there, named after the stem of the input.  Inputs are read and outputs written in
turn, in one and the same tree.  So an output survives the run when no later
input has the same stem, and it is made from what the input held at the start
unless an earlier output took the place of the input itself, which needs the same
stem once more.  Two inputs with one stem share an output, and only the last of
them is in it.

Main results:

- Definition `FileStep`: all that processing one input can do to the tree.
- Theorem `processFiles_induction`: what every step keeps, the run keeps.
- Theorem `processFiles_lookup_eq`: a run leaves every file as it is that is not
  named like one of its outputs.
- Theorem `lookup_output_of_processFiles`: the output of an input at the end of the
  run.
- Theorem `lookup_output_of_command`: the same for the whole command.
-/

namespace DocComment
namespace Command

variable {options : Options} {format : Format} {directory : Text}

/-! ## Output names -/

/-- The output file has the stem of the input file and the extension of the format. -/
theorem outputName_eq {path stem : Text} (h : PathName.stem? path = some stem) :
    outputName format path = stem ++ '.' :: format.extension := by
  rw [outputName, h, Option.getD_some]

/-- Every format has an extension of at least two letters. -/
theorem two_le_length_extension (format : Format) : 2 ≤ format.extension.length := by
  cases format <;> decide

/-- The extension of a format holds neither a point nor a slash. -/
theorem notMem_extension (format : Format) : '.' ∉ format.extension ∧ '/' ∉ format.extension := by
  cases format <;> decide

/-- The output of a file has a name. -/
theorem isName_outputName {path name : Text} (hname : PathName.IsName name)
    (hfile : PathName.fileName? path = some name) (format : Format) :
    PathName.IsName (outputName format path) := by
  have hlength := two_le_length_extension format
  rw [outputName_eq (PathName.stem?_eq hfile)]
  refine ⟨by simp, ?_, ?_, ?_⟩
  · intro heq
    have := congrArg List.length heq
    simp only [List.length_append, List.length_cons, List.length_nil] at this
    omega
  · intro heq
    have := congrArg List.length heq
    simp only [List.length_append, List.length_cons, List.length_nil] at this
    omega
  · intro hmem
    rcases List.mem_append.mp hmem with hstem | hextension
    · exact hname.no_slash ((PathName.cutExtension_prefix name).subset hstem)
    · rcases List.mem_cons.mp hextension with heq | hextension
      · exact absurd heq (by decide)
      · exact (notMem_extension format).2 hextension

/-- Two files with a stem have outputs of one name when they have one stem. -/
theorem outputName_eq_iff {path other : Text} (hpath : (PathName.stem? path).isSome = true)
    (hother : (PathName.stem? other).isSome = true) :
    outputName format other = outputName format path ↔
      PathName.stem? other = PathName.stem? path := by
  rcases Option.isSome_iff_exists.mp hpath with ⟨stem, hstem⟩
  rcases Option.isSome_iff_exists.mp hother with ⟨stem', hstem'⟩
  rw [outputName_eq hstem, outputName_eq hstem', hstem, hstem', List.append_cancel_right_eq,
    Option.some.injEq]

/-- A file that is named like the output of another one has its stem. -/
theorem stem?_eq_of_outputName {path other : Text}
    (hother : (PathName.stem? other).isSome = true)
    (h : PathName.fileName? path = some (outputName format other)) :
    PathName.stem? path = PathName.stem? other := by
  rcases Option.isSome_iff_exists.mp hother with ⟨stem, hstem⟩
  rw [PathName.stem?_eq h, hstem, outputName_eq hstem,
    PathName.cutExtension_append (PathName.ne_nil_of_stem? hstem) (notMem_extension format).1]

/-! ## One input -/

/-- The text of the records of a source, as it is put into a file. -/
def outputContent (options : Options) (format : Format) (source : Text) : ByteArray :=
  Text.encodeUtf8 (format.render (extract options.namedOnly source))

/-- What processing one input does to the tree: nothing, or its output is set in
the output directory. -/
inductive FileStep (options : Options) (format : Format) (directory path : Text)
    (tree : FileTree) : FileTree → Prop
  | skip {error : FileTree.ReadError} (hread : tree.readText path = .error error) :
      FileStep options format directory path tree tree
  | write {source : Text} {place : Location} (hread : tree.readText path = .ok source)
      (hstem : (PathName.stem? path).isSome = true)
      (hname : PathName.IsName (outputName format path))
      (hwalk : tree.walk (tree.startOf directory) (PathName.names directory) = .ok place)
      (hplace : tree.entryAt? place = some .directory)
      (hold : tree.entryAt? (place ++ [outputName format path]) ≠ some .directory) :
      FileStep options format directory path tree
        (tree.setEntry (place ++ [outputName format path])
          (.file (outputContent options format source)))

/-- Processing an input without a failure is a step. -/
theorem processFile_step (houtput : options.output = some directory) {session session' : Session}
    {path : Text} (hwell : session.tree.WellFormed)
    (h : processFile options format session path = (session', none)) :
    FileStep options format directory path session.tree session'.tree := by
  unfold processFile at h
  split at h
  · rename_i hread
    cases h
    exact .skip hread
  · rename_i source hread
    rcases FileTree.readText_eq_ok.mp hread with ⟨location, content, hlookup, _⟩
    rcases hwell.exists_fileName hlookup with ⟨_, name, _, hname, hfile⟩
    have houtputName := isName_outputName hname hfile format
    simp only [deliver, houtput, Session.tree_tell] at h
    split at h
    · cases h
    · rename_i tree' hwrite
      cases h
      rcases FileTree.writeFile_join_eq_ok houtputName hwrite with
        ⟨place, hwalk, hplace, hold, rfl⟩
      exact .write hread (by rw [PathName.stem?_eq hfile]; rfl) houtputName hwalk hplace hold

namespace FileStep

variable {tree tree' : FileTree} {path : Text}

/-- A step on one file keeps all directories. -/
theorem keepsDirectories (h : FileStep options format directory path tree tree') :
    tree.KeepsDirectories tree' := by
  cases h with
  | skip => exact .refl tree
  | write hread hstem hname hwalk hplace hold => exact FileTree.keepsDirectories_setEntry _ hold

/-- A step on one file keeps the tree well formed. -/
theorem wellFormed (h : FileStep options format directory path tree tree')
    (hwell : tree.WellFormed) : tree'.WellFormed := by
  cases h with
  | skip => exact hwell
  | write hread hstem hname hwalk hplace hold =>
      refine hwell.setEntry _ hold ?_
      rw [List.dropLast_concat]
      exact hplace

/-- A step leaves everything as it is that has another name than its output. -/
theorem entryAt?_eq (h : FileStep options format directory path tree tree') {name : Text}
    (hname : (PathName.stem? path).isSome = true → outputName format path ≠ name)
    (place : Location) :
    tree'.entryAt? (place ++ [name]) = tree.entryAt? (place ++ [name]) := by
  cases h with
  | skip => rfl
  | write hread hstem hname' hwalk hplace hold =>
      rw [FileTree.entryAt?_setEntry tree _ (by simp), if_neg]
      intro heq
      have hlast := (List.append_inj' heq rfl).2
      exact hname hstem (List.singleton_inj.mp hlast).symm

/-- After the step of an input with a text, its output is in the output directory. -/
theorem lookup_output (h : FileStep options format directory path tree tree') {source : Text}
    (hsource : tree.readText path = .ok source) :
    ∃ place, tree'.lookup (PathName.join directory (outputName format path)) =
      .ok (place ++ [outputName format path], .file (outputContent options format source)) := by
  cases h with
  | skip hread =>
      rw [hsource] at hread
      contradiction
  | @write source' place hread hstem hname hwalk hplace hold =>
      rw [hsource] at hread
      cases hread
      have hkeeps := FileTree.keepsDirectories_setEntry
        (.file (outputContent options format source)) hold
      refine ⟨place, FileTree.lookup_join hname ?_ (hkeeps.directory place hplace) ?_⟩
      · rw [hkeeps.startOf_eq]
        exact hkeeps.walk_eq hwalk
      · rw [FileTree.entryAt?_setEntry tree _ (by simp), if_pos rfl]

end FileStep

/-! ## All inputs -/

/-- A run in a well-formed tree keeps what every step keeps. -/
theorem processFiles_induction (houtput : options.output = some directory)
    {P : FileTree → Prop} {paths : List Text}
    (hstep : ∀ path ∈ paths, ∀ tree tree', P tree →
      FileStep options format directory path tree tree' → P tree')
    {session session' : Session} (hwell : session.tree.WellFormed) (hstart : P session.tree)
    (h : processFiles options format session paths = (session', none)) :
    P session'.tree := by
  induction paths generalizing session with
  | nil =>
      cases h
      exact hstart
  | cons path paths ih =>
      rw [processFiles] at h
      split at h
      · cases h
      · rename_i next hnext
        have hfirst := processFile_step houtput hwell hnext
        exact ih (fun path' hmem => hstep path' (List.mem_cons_of_mem _ hmem))
          (hfirst.wellFormed hwell) (hstep path List.mem_cons_self _ _ hstart hfirst) h

/-- A run over two lists of inputs is one over the first and one over the
second. -/
theorem processFiles_append {before after : List Text} {session session' : Session}
    (h : processFiles options format session (before ++ after) = (session', none)) :
    ∃ middle, processFiles options format session before = (middle, none) ∧
      processFiles options format middle after = (session', none) := by
  induction before generalizing session with
  | nil => exact ⟨session, rfl, h⟩
  | cons path before ih =>
      rw [List.cons_append, processFiles] at h
      split at h
      · cases h
      · rename_i next hnext
        rw [processFiles, hnext]
        exact ih h

/-- Processing files keeps the tree well formed. -/
theorem processFiles_wellFormed (houtput : options.output = some directory)
    {paths : List Text} {session session' : Session} (hwell : session.tree.WellFormed)
    (h : processFiles options format session paths = (session', none)) :
    session'.tree.WellFormed :=
  processFiles_induction houtput (fun _ _ _ _ h hstep => hstep.wellFormed h) hwell hwell h

/-- Processing files keeps all directories. -/
theorem processFiles_keepsDirectories (houtput : options.output = some directory)
    {paths : List Text} {session session' : Session} (hwell : session.tree.WellFormed)
    (h : processFiles options format session paths = (session', none)) :
    session.tree.KeepsDirectories session'.tree := by
  refine processFiles_induction houtput ?_ hwell (.refl _) h
  intro path _ tree tree' hkeeps hstep
  exact hkeeps.trans hstep.keepsDirectories

/-- A run leaves every file as it is that has another name than its outputs. -/
theorem processFiles_lookup_eq (houtput : options.output = some directory)
    {paths : List Text} {session session' : Session} (hwell : session.tree.WellFormed)
    {place : Location} {path name : Text} {content : ByteArray}
    (hlookup : session.tree.lookup path = .ok (place ++ [name], .file content))
    (hname : ∀ other ∈ paths, (PathName.stem? other).isSome = true →
      outputName format other ≠ name)
    (h : processFiles options format session paths = (session', none)) :
    session'.tree.lookup path = .ok (place ++ [name], .file content) := by
  have hentry : session'.tree.entryAt? (place ++ [name]) = some (.file content) := by
    refine processFiles_induction houtput
      (P := fun tree => tree.entryAt? (place ++ [name]) = some (.file content)) ?_ hwell
      (FileTree.lookup_eq_file.mp hlookup).2.2.1 h
    intro other hmem tree tree' hsame hstep
    rw [hstep.entryAt?_eq (hname other hmem) place, hsame]
  exact (processFiles_keepsDirectories houtput hwell h).lookup_eq hlookup hentry

/-- The output of an input at the end of a run, when no later input has its stem,
and no earlier one has it either or the input is not named like its output. -/
theorem lookup_output_of_processFiles (houtput : options.output = some directory)
    {before after : List Text} {path source : Text} {session session' : Session}
    (hwell : session.tree.WellFormed)
    (hrun : processFiles options format session (before ++ path :: after) = (session', none))
    (hsource : session.tree.readText path = .ok source)
    (hlater : ∀ later ∈ after, PathName.stem? later ≠ PathName.stem? path)
    (hearlier : ∀ earlier ∈ before, PathName.stem? earlier = PathName.stem? path →
      PathName.fileName? path ≠ some (outputName format path)) :
    ∃ location, session'.tree.lookup (PathName.join directory (outputName format path)) =
      .ok (location, .file (outputContent options format source)) := by
  rcases FileTree.readText_eq_ok.mp hsource with ⟨location, content, hlookup, hmay, hdecode⟩
  rcases hwell.exists_fileName hlookup with ⟨place, name, rfl, hname, hfile⟩
  have hstem : (PathName.stem? path).isSome = true := by
    rw [PathName.stem?_eq hfile]
    rfl
  rcases processFiles_append hrun with ⟨middle, hbefore, hrest⟩
  rw [processFiles] at hrest
  split at hrest
  · cases hrest
  rename_i next hpath
  have hwell' := processFiles_wellFormed houtput hwell hbefore
  -- The earlier inputs leave the file of this input as it was.
  have hkept : middle.tree.readText path = .ok source := by
    have hkeeps := processFiles_keepsDirectories houtput hwell hbefore
    refine FileTree.readText_eq_ok.mpr ⟨_, content,
      processFiles_lookup_eq houtput hwell hlookup ?_ hbefore,
      (hkeeps.mayRead_eq _).trans hmay, hdecode⟩
    intro earlier hmem hsome heq
    have hsame := (stem?_eq_of_outputName hsome (heq ▸ hfile)).symm
    refine hearlier earlier hmem hsame ?_
    rw [hfile, ← heq, (outputName_eq_iff hstem hsome).mpr hsame]
  have hstep := processFile_step houtput hwell' hpath
  rcases hstep.lookup_output hkept with ⟨target, hwritten⟩
  -- The later inputs leave the output as it was written.
  refine ⟨_, processFiles_lookup_eq houtput (hstep.wellFormed hwell') hwritten ?_ hrest⟩
  intro later hmem hsome heq
  exact hlater later hmem ((outputName_eq_iff hstem hsome).mp heq)

/-! ## The command -/

/-- A run over files without a failure makes the output directory, and then
processes the files of its arguments. -/
theorem runFiles_eq_iff (houtput : options.output = some directory)
    (hformat : Format.ofName options.formatName = .ok format) {session session' : Session} :
    runFiles options session = (session', none) ↔
      (session.tree.makeDirectories directory).2 = none ∧
      ∃ events files,
        inputFiles (session.tree.makeDirectories directory).1 options.files =
          (events, .ok files) ∧
        processFiles options format
          (Session.tell { session with tree := (session.tree.makeDirectories directory).1 } events)
          files = (session', none) := by
  simp only [runFiles, hformat, prepareOutput, houtput]
  rcases hmake : session.tree.makeDirectories directory with ⟨tree, error⟩
  cases error with
  | some error => simp
  | none =>
      rcases hinputs : inputFiles tree options.files with ⟨events, result⟩
      cases result <;> simp [hinputs, and_assoc]

/-- A run with its output directory and its input files is the processing of these
files. -/
theorem run_eq_processFiles (hfiles : options.files ≠ [])
    (houtput : options.output = some directory)
    (hformat : Format.ofName options.formatName = .ok format) {tree made : FileTree}
    (hmake : tree.makeDirectories directory = (made, none)) {events : List Event}
    {files : List Text} (hinputs : inputFiles made options.files = (events, .ok files))
    (stdin : ByteArray) :
    run options stdin tree = processFiles options format ⟨made, [], events⟩ files := by
  rw [run, if_neg (by simpa using hfiles), runFiles]
  simp only [hformat, prepareOutput, houtput, Session.start, hmake, hinputs]
  rfl

/-- The command ends as the run with its options does. -/
theorem exists_command_eq_iff {arguments : List Text} {logSetting : Option Text}
    {stdin : ByteArray} {tree : FileTree} {session : Session} {failure : Option Failure}
    (hoptions : Options.parse arguments = .ok options) :
    (∃ log, command arguments logSetting stdin tree = .done session failure log) ↔
      run options stdin tree = (session, failure) := by
  simp only [command, hoptions]
  rcases run options stdin tree with ⟨session', failure'⟩
  simp

/-- When a command with an output directory ends without a failure, the output of
an input that held a text at the start holds exactly the records of that text,
provided that no later input has the stem of this one, and that no earlier one
has it either or the input is not named like its output. -/
theorem lookup_output_of_command {arguments : List Text} {logSetting : Option Text}
    {stdin : ByteArray} {tree : FileTree} {session : Session} {log : List Text}
    {events : List Event} {before after : List Text} {path source : Text}
    (hwell : tree.WellFormed)
    (hdone : command arguments logSetting stdin tree = .done session none log)
    (hoptions : Options.parse arguments = .ok options)
    (hfiles : options.files ≠ []) (houtput : options.output = some directory)
    (hformat : Format.ofName options.formatName = .ok format)
    (hinputs : inputFiles (tree.makeDirectories directory).1 options.files =
      (events, .ok (before ++ path :: after)))
    (hsource : tree.readText path = .ok source)
    (hlater : ∀ later ∈ after, PathName.stem? later ≠ PathName.stem? path)
    (hearlier : ∀ earlier ∈ before, PathName.stem? earlier = PathName.stem? path →
      PathName.fileName? path ≠ some (outputName format path)) :
    ∃ location, session.tree.lookup (PathName.join directory (outputName format path)) =
      .ok (location,
        .file (Text.encodeUtf8 (format.render (extract options.namedOnly source)))) := by
  have hrun := (exists_command_eq_iff hoptions).mp ⟨log, hdone⟩
  rw [run, if_neg (by simpa using hfiles), runFiles_eq_iff houtput hformat] at hrun
  rcases hrun with ⟨_, events', files, hinputs', hprocess⟩
  rw [Session.start, hinputs] at hinputs'
  cases hinputs'
  have hgrows := FileTree.grows_makeDirectories tree directory
  exact lookup_output_of_processFiles houtput (hgrows.wellFormed hwell) hprocess
    (hgrows.readText_eq hsource) hlater hearlier

/-! ## Two inputs with one stem -/

/-- A source that documents a name. -/
def namedSource (name : String) : Text :=
  "/** @name ".toList ++ name.toList ++ " */".toList

/-- A tree with two files of one name in two directories. -/
def twins : FileTree where
  entries :=
    [(["work".toList], .directory),
     (["work".toList, "a".toList], .directory),
     (["work".toList, "a".toList, "x.js".toList], .file (Text.encodeUtf8 (namedSource "first"))),
     (["work".toList, "b".toList], .directory),
     (["work".toList, "b".toList, "x.js".toList], .file (Text.encodeUtf8 (namedSource "second")))]
  cwd := ["work".toList]

/-- The two files and an output directory. -/
def twinArguments : List Text :=
  ["-o".toList, "out".toList, "a/x.js".toList, "b/x.js".toList]

/-- What the arguments ask for. -/
def twinOptions : Options where
  files := ["a/x.js".toList, "b/x.js".toList]
  output := some "out".toList
  format := none
  namedOnly := false
  verbose := false

theorem parse_twinArguments : Options.parse twinArguments = .ok twinOptions := rfl

theorem wellFormed_twins : twins.WellFormed :=
  FileTree.wellFormed_of_entries (by decide) (by decide)

/-- The two files are the inputs. -/
theorem inputFiles_twins :
    inputFiles (twins.makeDirectories "out".toList).1 twinOptions.files =
      ([], .ok ["a/x.js".toList, "b/x.js".toList]) :=
  inputFiles_of_ascending rfl (by decide)

/-- Both files of the example can be read. -/
theorem readText_twins :
    twins.readText "a/x.js".toList = .ok (namedSource "first") ∧
      twins.readText "b/x.js".toList = .ok (namedSource "second") := by
  have hdecode : ∀ source, FileTree.decode (Text.encodeUtf8 source) = .ok source := by
    intro source
    rw [FileTree.decode, Text.decodeUtf8?_encodeUtf8]
  exact ⟨FileTree.readText_eq_ok.mpr ⟨_, _, rfl, by decide, hdecode _⟩,
    FileTree.readText_eq_ok.mpr ⟨_, _, rfl, by decide, hdecode _⟩⟩

theorem output_twinOptions : twinOptions.output = some "out".toList := rfl

theorem format_twinOptions : Format.ofName twinOptions.formatName = .ok .json := rfl

/-- The session in which the two files are processed. -/
def twinSession : Session :=
  Session.tell { Session.start twins with tree := (twins.makeDirectories "out".toList).1 } []

/-- The command processes the two files and ends without a failure. -/
theorem command_twins : ∃ session log,
    command twinArguments none .empty twins = .done session none log ∧
      processFiles twinOptions .json twinSession ["a/x.js".toList, "b/x.js".toList] =
        (session, none) := by
  have hnone : (processFiles twinOptions .json twinSession
      ["a/x.js".toList, "b/x.js".toList]).2 = none := by decide +kernel
  rcases hprocess : processFiles twinOptions .json twinSession
    ["a/x.js".toList, "b/x.js".toList] with ⟨session, failure⟩
  rw [hprocess] at hnone
  cases hnone
  have hrun : run twinOptions .empty twins = (session, none) :=
    (run_eq_processFiles (by decide) output_twinOptions format_twinOptions rfl inputFiles_twins
      .empty).trans hprocess
  rcases (exists_command_eq_iff parse_twinArguments).mpr hrun with ⟨log, hdone⟩
  exact ⟨session, log, hdone, rfl⟩

/-- The second of the two files is in the output that they share. -/
theorem lookup_output_twins : ∃ session log location,
    command twinArguments none .empty twins = .done session none log ∧
      session.tree.lookup "out/x.json".toList =
        .ok (location,
          .file (Text.encodeUtf8 (Format.json.render (extract false (namedSource "second"))))) := by
  rcases command_twins with ⟨session, log, hdone, _⟩
  have hinputs : inputFiles (twins.makeDirectories "out".toList).1 twinOptions.files =
      ([], .ok (["a/x.js".toList] ++ "b/x.js".toList :: [])) := inputFiles_twins
  rcases lookup_output_of_command wellFormed_twins hdone parse_twinArguments (by decide)
    output_twinOptions format_twinOptions hinputs readText_twins.2 (by simp) (by decide) with
    ⟨location, hlocation⟩
  exact ⟨session, log, location, hdone, hlocation⟩

/-- The first of the two files is lost: although it is an input with a text and the
command succeeds, its output does not hold its records. -/
theorem output_twins_lost : ∃ session log,
    command twinArguments none .empty twins = .done session none log ∧
      inputFiles (twins.makeDirectories "out".toList).1 twinOptions.files =
        ([], .ok ["a/x.js".toList, "b/x.js".toList]) ∧
      twins.readText "a/x.js".toList = .ok (namedSource "first") ∧
      ∀ location,
        session.tree.lookup (PathName.join "out".toList (outputName .json "a/x.js".toList)) ≠
          .ok (location,
            .file (Text.encodeUtf8 (Format.json.render (extract false (namedSource "first"))))) := by
  rcases command_twins with ⟨session, log, hdone, hprocess⟩
  refine ⟨session, log, hdone, inputFiles_twins, readText_twins.1, ?_⟩
  intro location hfirst
  have hgrows := FileTree.grows_makeDirectories twins "out".toList
  have hrun : processFiles twinOptions .json twinSession
      (["a/x.js".toList] ++ "b/x.js".toList :: []) = (session, none) := hprocess
  rcases lookup_output_of_processFiles output_twinOptions (hgrows.wellFormed wellFormed_twins)
    hrun (hgrows.readText_eq readText_twins.2) (by simp) (by decide) with ⟨location', hsecond⟩
  have hpath : outputName .json "a/x.js".toList = outputName .json "b/x.js".toList := by decide
  rw [hpath, hsecond] at hfirst
  simp only [Except.ok.injEq, Prod.mk.injEq, Entry.file.injEq] at hfirst
  have htexts := congrArg Text.decodeUtf8? hfirst.2
  rw [outputContent, Text.decodeUtf8?_encodeUtf8, Text.decodeUtf8?_encodeUtf8] at htexts
  exact absurd htexts (by decide +kernel)

end Command
end DocComment
