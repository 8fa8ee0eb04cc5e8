import DocComment.Proofs.Command.Outputs

/-!
# Failed runs

A run over files can fail at four points: when its format has no name, when its
output directory cannot be made, when one of its arguments stands for nothing, and
when an output cannot be written.  All arguments are expanded before the first
input is read, so after the first three nothing is printed and no file is written.
A write that fails ends the run where it stands: the inputs before it have their
outputs, and the inputs after it are not looked at.

Main results:

- Definition `RunsFiles`: all that a run over files can do.
- Theorem `processFiles_preserves`: what processing one input keeps, a run keeps.
- Theorem `processFiles_eq_failure`: a run over inputs that fails has processed all
  inputs before the one that fails.
- Theorem `processFiles_append_of_failure`: the inputs after it do not matter.
- Theorem `command_failure_prefix`: what the command has done when it fails.
-/

namespace DocComment
namespace Command

variable {options : Options} {format : Format} {session session' : Session}

/-! ## One input -/

/-- Processing an input fails only when its output cannot be written, and then it has
only read the input. -/
theorem processFile_eq_failure {path : Text} {failure : Failure}
    (h : processFile options format session path = (session', some failure)) :
    ∃ directory source error, options.output = some directory ∧
      session.tree.readText path = .ok source ∧
      session.tree.writeFile (PathName.join directory (outputName format path))
        (outputContent options format source) = .error error ∧
      failure = .write (PathName.join directory (outputName format path)) error ∧
      session' = session.tell
        (sourceEvents source ++ [.extracted path (extract options.namedOnly source).length]) := by
  unfold processFile at h
  split at h
  · cases h
  · rename_i source hread
    unfold deliver at h
    split at h
    · cases h
    · rename_i directory houtput
      simp only [Session.tree_tell] at h
      split at h
      · rename_i error hwrite
        cases h
        exact ⟨directory, source, error, houtput, hread, hwrite, rfl, rfl⟩
      · cases h

/-- With an output directory nothing is printed. -/
theorem stdout_processFile {directory : Text} (houtput : options.output = some directory)
    (format : Format) (session : Session) (path : Text) :
    (processFile options format session path).1.stdout = session.stdout := by
  unfold processFile
  split
  · rfl
  · simp only [deliver, houtput]
    split <;> rfl

/-! ## All inputs -/

/-- What processing one input keeps, with or without a failure, a run keeps up to the
point where it ends. -/
theorem processFiles_preserves {P : Session → Prop} {paths : List Text}
    (hstep : ∀ path ∈ paths, ∀ session, P session → P (processFile options format session path).1)
    (hstart : P session) : P (processFiles options format session paths).1 := by
  induction paths generalizing session with
  | nil => exact hstart
  | cons path paths ih =>
      have hfirst := hstep path List.mem_cons_self session hstart
      rw [processFiles]
      split
      · rename_i next failure hnext
        rwa [hnext] at hfirst
      · rename_i next hnext
        rw [hnext] at hfirst
        exact ih (fun other hother => hstep other (List.mem_cons_of_mem path hother)) hfirst

/-- With an output directory nothing is printed. -/
theorem stdout_of_processFiles {directory : Text} (houtput : options.output = some directory)
    {paths : List Text} {failure : Option Failure}
    (h : processFiles options format session paths = (session', failure)) :
    session'.stdout = session.stdout := by
  have hkeeps : (processFiles options format session paths).1.stdout = session.stdout :=
    processFiles_preserves (P := fun next => next.stdout = session.stdout)
      (fun path _ next hnext => (stdout_processFile houtput format next path).trans hnext) rfl
  rwa [h] at hkeeps

/-- A run over inputs that fails has processed all inputs before the one that
fails. -/
theorem processFiles_eq_failure {paths : List Text} {failure : Failure}
    (h : processFiles options format session paths = (session', some failure)) :
    ∃ k path middle, paths[k]? = some path ∧
      processFiles options format session (paths.take k) = (middle, none) ∧
      processFile options format middle path = (session', some failure) := by
  induction paths generalizing session with
  | nil => cases h
  | cons first paths ih =>
      rw [processFiles] at h
      split at h
      · rename_i next failure' hnext
        cases h
        exact ⟨0, first, session, rfl, rfl, hnext⟩
      · rename_i next hnext
        obtain ⟨k, path, middle, hpath, hbefore, hfails⟩ := ih h
        refine ⟨k + 1, path, middle, by simpa using hpath, ?_, hfails⟩
        rw [List.take_succ_cons, processFiles, hnext]
        exact hbefore

/-- Processing inputs fails only with a write. -/
theorem exists_write_of_processFiles {paths : List Text} {failure : Failure}
    (h : processFiles options format session paths = (session', some failure)) :
    ∃ target error, failure = .write target error := by
  obtain ⟨_, path, _, _, _, hfails⟩ := processFiles_eq_failure h
  obtain ⟨directory, _, error, _, _, _, heq, _⟩ := processFile_eq_failure hfails
  exact ⟨_, error, heq⟩

/-- A run goes on with the next inputs when the ones before them are done. -/
theorem processFiles_append_of_none {before : List Text} {middle : Session}
    (hbefore : processFiles options format session before = (middle, none)) (later : List Text) :
    processFiles options format session (before ++ later) =
      processFiles options format middle later := by
  induction before generalizing session with
  | nil =>
      cases hbefore
      rfl
  | cons first before ih =>
      rw [processFiles] at hbefore
      split at hbefore
      · cases hbefore
      · rename_i next hnext
        rw [List.cons_append, processFiles, hnext]
        exact ih hbefore

/-- The inputs after one that fails do not matter. -/
theorem processFiles_append_of_failure {before : List Text} {path : Text} {middle : Session}
    {failure : Failure} (hbefore : processFiles options format session before = (middle, none))
    (hfails : processFile options format middle path = (session', some failure))
    (later : List Text) :
    processFiles options format session (before ++ path :: later) = (session', some failure) := by
  rw [processFiles_append_of_none hbefore, processFiles, hfails]

/-! ## The output directory -/

/-- The preparation prints nothing. -/
theorem stdout_prepareOutput (options : Options) (session : Session) :
    (prepareOutput options session).1.stdout = session.stdout := by
  unfold prepareOutput
  split
  · rfl
  · split <;> rfl

/-- The preparation makes the output directory and leaves the tree alone otherwise. -/
theorem tree_prepareOutput (options : Options) (session : Session) :
    (prepareOutput options session).1.tree =
      options.output.elim session.tree fun directory =>
        (session.tree.makeDirectories directory).1 := by
  unfold prepareOutput
  split
  · rename_i houtput
    rw [houtput]
    rfl
  · rename_i directory houtput
    rw [houtput, Option.elim_some]
    split <;> rename_i hmake <;> rw [hmake]

/-- The preparation changes no file. -/
theorem sameFiles_prepareOutput (options : Options) (session : Session) :
    session.tree.SameFiles (prepareOutput options session).1.tree := by
  rw [tree_prepareOutput]
  cases options.output with
  | none => exact .refl _
  | some directory => exact FileTree.sameFiles_makeDirectories session.tree directory

/-- The preparation takes nothing out of the tree. -/
theorem grows_prepareOutput (options : Options) (session : Session) :
    session.tree.Grows (prepareOutput options session).1.tree := by
  rw [tree_prepareOutput]
  cases options.output with
  | none => exact .refl _
  | some directory => exact FileTree.grows_makeDirectories session.tree directory

/-- Making the output directory fails only with that. -/
theorem prepareOutput_eq_failure {failure : Failure}
    (h : prepareOutput options session = (session', some failure)) :
    ∃ directory error, failure = .outputDirectory directory error := by
  unfold prepareOutput at h
  split at h
  · cases h
  · rename_i directory _
    split at h
    · cases h
    · rename_i error _
      cases h
      exact ⟨directory, error, rfl⟩

/-- The preparation changes nothing in a session but its tree. -/
theorem prepareOutput_eq {directory : Text} (houtput : options.output = some directory)
    {prepared : Session} (h : prepareOutput options session = (prepared, none)) :
    prepared = { session with tree := (session.tree.makeDirectories directory).1 } := by
  unfold prepareOutput at h
  simp only [houtput] at h
  split at h
  · rename_i hmake
    cases h
    rw [hmake]
  · cases h

/-! ## Runs over files -/

/-- What a run over files does, up to the point where it ends. -/
inductive RunsFiles (options : Options) (session : Session) : Session → Option Failure → Prop
  | format {error : UnknownFormat} (hformat : Format.ofName options.formatName = .error error) :
      RunsFiles options session session (some (.format error))
  | outputDirectory {prepared : Session} {failure : Failure}
      (hprepare : prepareOutput options session = (prepared, some failure)) :
      RunsFiles options session prepared (some failure)
  | expansion {prepared : Session} {events : List Event} {invalid : InvalidArgument}
      (hprepare : prepareOutput options session = (prepared, none))
      (hinputs : inputFiles prepared.tree options.files = (events, .error invalid)) :
      RunsFiles options session (prepared.tell events) (some (.expansion invalid))
  | process {format : Format} {prepared session' : Session} {events : List Event}
      {files : List Text} {failure : Option Failure}
      (hformat : Format.ofName options.formatName = .ok format)
      (hprepare : prepareOutput options session = (prepared, none))
      (hinputs : inputFiles prepared.tree options.files = (events, .ok files))
      (hprocess : processFiles options format (prepared.tell events) files = (session', failure)) :
      RunsFiles options session session' failure

/-- Every run on files is one of the runs that are described here. -/
theorem runsFiles_of_runFiles {failure : Option Failure}
    (h : runFiles options session = (session', failure)) :
    RunsFiles options session session' failure := by
  unfold runFiles at h
  split at h
  · rename_i hformat
    cases h
    exact .format hformat
  · rename_i format hformat
    split at h
    · rename_i hprepare
      cases h
      exact .outputDirectory hprepare
    · rename_i hprepare
      split at h
      · rename_i hinputs
        cases h
        exact .expansion hprepare hinputs
      · rename_i hinputs
        exact .process hformat hprepare hinputs h

namespace RunsFiles

variable {failure : Option Failure}

/-- Only a write that fails leaves more behind than directories. -/
theorem untouched {cause : Failure} (h : RunsFiles options session session' (some cause))
    (hcause : ∀ target error, cause ≠ .write target error) :
    session'.stdout = session.stdout ∧ session.tree.SameFiles session'.tree := by
  have hprint := stdout_prepareOutput options session
  have hsame := sameFiles_prepareOutput options session
  cases h with
  | format hformat => exact ⟨rfl, .refl _⟩
  | outputDirectory hprepare =>
      rw [hprepare] at hprint hsame
      exact ⟨hprint, hsame⟩
  | expansion hprepare hinputs =>
      rw [hprepare] at hprint hsame
      exact ⟨hprint, hsame⟩
  | process hformat hprepare hinputs hprocess =>
      obtain ⟨target, error, rfl⟩ := exists_write_of_processFiles hprocess
      exact absurd rfl (hcause target error)

/-- An unknown format is reported before anything is done. -/
theorem eq_of_format {error : UnknownFormat}
    (h : RunsFiles options session session' (some (.format error))) : session' = session := by
  cases h with
  | format hformat => rfl
  | outputDirectory hprepare =>
      obtain ⟨_, _, heq⟩ := prepareOutput_eq_failure hprepare
      cases heq
  | process hformat hprepare hinputs hprocess =>
      obtain ⟨_, _, heq⟩ := exists_write_of_processFiles hprocess
      cases heq

/-- One argument that stands for nothing ends the run before the first input, wherever
it stands. -/
theorem of_not_expandable (h : RunsFiles options session session' failure)
    (hinvalid : ∃ argument ∈ options.files,
      ¬ Expandable (prepareOutput options session).1.tree argument) :
    ∃ cause, failure = some cause ∧ ∀ target error, cause ≠ .write target error := by
  cases h with
  | format hformat => exact ⟨_, rfl, by simp⟩
  | outputDirectory hprepare =>
      obtain ⟨_, _, rfl⟩ := prepareOutput_eq_failure hprepare
      exact ⟨_, rfl, by simp⟩
  | expansion hprepare hinputs => exact ⟨_, rfl, by simp⟩
  | process hformat hprepare hinputs hprocess =>
      obtain ⟨argument, hargument, hnone⟩ := hinvalid
      rw [hprepare] at hnone
      exact absurd (exists_inputFiles_eq_ok_iff.mp ⟨_, by rw [hinputs]⟩ argument hargument) hnone

/-- The argument that is reported is one that stands for nothing. -/
theorem of_expansion {invalid : InvalidArgument}
    (h : RunsFiles options session session' (some (.expansion invalid))) :
    invalid.argument ∈ options.files ∧
      ¬ Expandable (prepareOutput options session).1.tree invalid.argument ∧
      ∃ fault, invalid.error = .pattern fault := by
  cases h with
  | outputDirectory hprepare =>
      obtain ⟨_, _, heq⟩ := prepareOutput_eq_failure hprepare
      cases heq
  | expansion hprepare hinputs =>
      rw [hprepare]
      exact of_inputFiles_eq_error (by rw [hinputs])
  | process hformat hprepare hinputs hprocess =>
      obtain ⟨_, _, heq⟩ := exists_write_of_processFiles hprocess
      cases heq

/-- A write that fails ends the run where it stands. -/
theorem of_write {target : Text} {error : OsError}
    (h : RunsFiles options session session' (some (.write target error))) :
    ∃ format directory events files k path source middle,
      Format.ofName options.formatName = .ok format ∧ options.output = some directory ∧
      inputFiles (session.tree.makeDirectories directory).1 options.files = (events, .ok files) ∧
      files[k]? = some path ∧
      processFiles options format
        (Session.tell { session with tree := (session.tree.makeDirectories directory).1 } events)
        (files.take k) = (middle, none) ∧
      middle.tree.readText path = .ok source ∧
      target = PathName.join directory (outputName format path) ∧
      middle.tree.writeFile target (outputContent options format source) = .error error ∧
      session' = middle.tell
        (sourceEvents source ++ [.extracted path (extract options.namedOnly source).length]) ∧
      processFile options format middle path = (session', some (.write target error)) := by
  cases h with
  | outputDirectory hprepare =>
      obtain ⟨_, _, heq⟩ := prepareOutput_eq_failure hprepare
      cases heq
  | @process format prepared _ events files _ hformat hprepare hinputs hprocess =>
      obtain ⟨k, path, middle, hpath, hbefore, hfails⟩ := processFiles_eq_failure hprocess
      obtain ⟨directory, source, error', houtput, hread, hwrite, hcause, hsession⟩ :=
        processFile_eq_failure hfails
      cases hcause
      have hprepared := prepareOutput_eq houtput hprepare
      rw [hprepared] at hinputs hbefore
      exact ⟨format, directory, events, files, k, path, source, middle, hformat, houtput, hinputs,
        hpath, hbefore, hread, rfl, hwrite, hsession, hfails⟩

end RunsFiles

/-! ## The command -/

/-- A run over the standard input that fails has done nothing. -/
theorem runStdin_eq_failure {stdin : ByteArray} {failure : Failure}
    (h : runStdin options stdin session = (session', some failure)) :
    session' = session ∧
      ((∃ error, failure = .stdin error) ∨ ∃ error, failure = .format error) := by
  unfold runStdin at h
  split at h
  · rename_i error _
    cases h
    exact ⟨rfl, .inl ⟨error, rfl⟩⟩
  · split at h
    · rename_i error _
      cases h
      exact ⟨rfl, .inr ⟨error, rfl⟩⟩
    · cases h

/-- What the command has done when it fails.  Without a format of the given name it
has done nothing.  Without its output directory, or with an argument anywhere that
stands for nothing, it has printed nothing and written no file; the argument that is
reported is no valid pattern.  When the output of
an input cannot be written, the tree is as the inputs before it left it; that input
has been read, and what comes after it makes no difference. -/
theorem command_failure_prefix {arguments : List Text} {logSetting : Option Text}
    {stdin : ByteArray} {tree : FileTree} {failure : Option Failure} {log : List Text}
    (hoptions : Options.parse arguments = .ok options)
    (hdone : command arguments logSetting stdin tree = .done session failure log) :
    (∀ error, failure = some (.format error) → session.stdout = [] ∧ session.tree = tree) ∧
    (∀ directory error, failure = some (.outputDirectory directory error) →
      session.stdout = [] ∧ tree.SameFiles session.tree) ∧
    ((∃ argument ∈ options.files,
        ¬ Expandable (prepareOutput options (Session.start tree)).1.tree argument) →
      failure ≠ none ∧ session.stdout = [] ∧ tree.SameFiles session.tree) ∧
    (∀ invalid, failure = some (.expansion invalid) → invalid.argument ∈ options.files ∧
      ¬ Expandable (prepareOutput options (Session.start tree)).1.tree invalid.argument ∧
      ∃ fault, invalid.error = .pattern fault) ∧
    (∀ target error, failure = some (.write target error) →
      ∃ format directory events files k path source middle,
        Format.ofName options.formatName = .ok format ∧ options.output = some directory ∧
        inputFiles (tree.makeDirectories directory).1 options.files = (events, .ok files) ∧
        files[k]? = some path ∧
        processFiles options format ⟨(tree.makeDirectories directory).1, [], events⟩
          (files.take k) = (middle, none) ∧
        middle.tree.readText path = .ok source ∧
        target = PathName.join directory (outputName format path) ∧
        middle.tree.writeFile target (outputContent options format source) = .error error ∧
        session.tree = middle.tree ∧ session.stdout = [] ∧
        session.events = middle.events ++
          (sourceEvents source ++ [.extracted path (extract options.namedOnly source).length]) ∧
        ∀ later, processFiles options format ⟨(tree.makeDirectories directory).1, [], events⟩
          (files.take k ++ path :: later) = (session, failure)) := by
  have hrun := (exists_command_eq_iff hoptions).mp ⟨log, hdone⟩
  rw [run] at hrun
  split at hrun
  · rename_i hfiles
    have hstdin : ∀ cause, failure = some cause → session = Session.start tree ∧
        ((∃ error, cause = .stdin error) ∨ ∃ error, cause = .format error) := by
      rintro cause rfl
      exact runStdin_eq_failure hrun
    refine ⟨?_, ?_, ?_, ?_, ?_⟩
    · intro error hcause
      rw [(hstdin _ hcause).1]
      exact ⟨rfl, rfl⟩
    · intro directory error hcause
      simpa using (hstdin _ hcause).2
    · rw [List.isEmpty_iff.mp hfiles]
      simp
    · intro invalid hcause
      simpa using (hstdin _ hcause).2
    · intro target error hcause
      simpa using (hstdin _ hcause).2
  · have hfiles := runsFiles_of_runFiles hrun
    refine ⟨?_, ?_, ?_, ?_, ?_⟩
    · rintro error rfl
      rw [hfiles.eq_of_format]
      exact ⟨rfl, rfl⟩
    · rintro directory error rfl
      exact hfiles.untouched (by simp)
    · intro hinvalid
      obtain ⟨cause, rfl, hcause⟩ := hfiles.of_not_expandable hinvalid
      exact ⟨by simp, hfiles.untouched hcause⟩
    · rintro invalid rfl
      exact hfiles.of_expansion
    · rintro target error rfl
      obtain ⟨format, directory, events, files, k, path, source, middle, hformat, houtput, hinputs,
        hpath, hbefore, hread, htarget, hwrite, hsession, hfails⟩ := hfiles.of_write
      have hstdout : middle.stdout = [] := stdout_of_processFiles houtput hbefore
      refine ⟨format, directory, events, files, k, path, source, middle, hformat, houtput, hinputs,
        hpath, hbefore, hread, htarget, hwrite, ?_, ?_, ?_,
        processFiles_append_of_failure hbefore hfails⟩
      · rw [hsession, Session.tree_tell]
      · rw [hsession, Session.stdout_tell, hstdout]
      · rw [hsession]
        rfl

/-! ## An output that cannot be written -/

/-- A tree with three sources and a directory where the output of the second one would
stand. -/
def blockedTree : FileTree where
  entries :=
    [(["work".toList], .directory),
     (["work".toList, "a.js".toList], .file (Text.encodeUtf8 (namedSource "first"))),
     (["work".toList, "b.js".toList], .file (Text.encodeUtf8 (namedSource "second"))),
     (["work".toList, "c.js".toList], .file (Text.encodeUtf8 (namedSource "third"))),
     (["work".toList, "out".toList], .directory),
     (["work".toList, "out".toList, "b.json".toList], .directory)]
  cwd := ["work".toList]

/-- The options of a run over the three sources. -/
def blockedOptions : Options where
  files := ["a.js".toList, "b.js".toList, "c.js".toList]
  output := some "out".toList
  format := none
  namedOnly := false
  verbose := false

/-- The options on the command line. -/
def blockedArguments : List Text :=
  ["-o".toList, "out".toList] ++ blockedOptions.files

theorem inputFiles_blockedTree :
    inputFiles (blockedTree.makeDirectories "out".toList).1 blockedOptions.files =
      ([], .ok blockedOptions.files) :=
  inputFiles_of_ascending rfl (by decide)

/-- The session in which the three sources are processed. -/
def blockedSession : Session :=
  ⟨(blockedTree.makeDirectories "out".toList).1, [], []⟩

/-- The command fails with the output of the second source. -/
theorem command_blockedTree_eq : ∃ session log,
    command blockedArguments none .empty blockedTree =
      .done session (some (.write "out/b.json".toList .isDirectory)) log := by
  have hfailure : (processFiles blockedOptions .json blockedSession blockedOptions.files).2 =
      some (.write "out/b.json".toList .isDirectory) := by
    decide +kernel
  rcases hprocess : processFiles blockedOptions .json blockedSession blockedOptions.files with
    ⟨session, failure⟩
  rw [hprocess] at hfailure
  have hoptions : Options.parse blockedArguments = .ok blockedOptions := rfl
  have hrun : run blockedOptions .empty blockedTree =
      (session, some (.write "out/b.json".toList .isDirectory)) := by
    rw [run_eq_processFiles (by decide) rfl rfl rfl inputFiles_blockedTree]
    exact hprocess.trans (by rw [← hfailure])
  rcases (exists_command_eq_iff hoptions).mpr hrun with ⟨log, hdone⟩
  exact ⟨session, log, hdone⟩

/-- The options of a run over a source and a pattern with a class that is not
closed. -/
def openClassOptions : Options where
  files := ["a.js".toList, "c[".toList]
  output := none
  format := none
  namedOnly := false
  verbose := false

/-- A pattern with an open class cannot be expanded. -/
theorem not_expandable_openClass : ¬ Expandable blockedTree "c[".toList := by
  rintro (hfile | hdirectory | ⟨⟨tokens, hparse⟩, _⟩)
  · exact absurd hfile (by decide)
  · exact absurd hdirectory (by decide)
  · have herror : Glob.parse "c[".toList = .error ⟨1, .invalidClass⟩ := by cbv
    rw [herror] at hparse
    cases hparse

/-- When the output of the second source cannot be written, the first one has its
output and nothing else has changed.  When the second argument stands for nothing,
the first source is not even printed. -/
theorem command_blockedTree :
    (∃ session log middle,
      command blockedArguments none .empty blockedTree =
          .done session (some (.write "out/b.json".toList .isDirectory)) log ∧
        processFiles blockedOptions .json blockedSession ["a.js".toList] = (middle, none) ∧
        session.tree = middle.tree ∧ session.stdout = []) ∧
    ∃ session failure log,
      command openClassOptions.files none .empty blockedTree = .done session failure log ∧
        failure ≠ none ∧ session.stdout = [] ∧ blockedTree.SameFiles session.tree := by
  constructor
  · rcases command_blockedTree_eq with ⟨session, log, hdone⟩
    have hoptions : Options.parse blockedArguments = .ok blockedOptions := rfl
    obtain ⟨_, _, _, _, hwrite⟩ := command_failure_prefix hoptions hdone
    obtain ⟨format, directory, events, files, k, path, source, middle, hformat, houtput, hinputs,
      hpath, hbefore, _, htarget, _, htree, hstdout, _⟩ := hwrite _ _ rfl
    have hformat' : Format.ofName blockedOptions.formatName = .ok .json := rfl
    rw [hformat'] at hformat
    cases hformat
    cases houtput
    rw [inputFiles_blockedTree] at hinputs
    cases hinputs
    -- The output that cannot be written tells which input it is.
    have hk : k = 1 := by
      rcases k with _ | _ | _ | k
      · cases hpath
        exact absurd htarget (by decide)
      · rfl
      · cases hpath
        exact absurd htarget (by decide)
      · cases hpath
    rw [hk] at hbefore
    exact ⟨session, log, middle, hdone, hbefore, htree, hstdout⟩
  · have hoptions : Options.parse openClassOptions.files = .ok openClassOptions := rfl
    rcases hrun : run openClassOptions .empty blockedTree with ⟨session, failure⟩
    rcases (exists_command_eq_iff hoptions).mpr hrun with ⟨log, hdone⟩
    obtain ⟨_, _, hinvalid, _⟩ := command_failure_prefix hoptions hdone
    exact ⟨session, failure, log, hdone,
      hinvalid ⟨"c[".toList, by decide, not_expandable_openClass⟩⟩

end Command
end DocComment
