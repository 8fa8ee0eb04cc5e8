import DocComment.Proofs.Command.Expansion
import DocComment.Proofs.Command.Outputs

/-!
# The two modes of a run

A source can be given in the standard input or in a file.  Without an output
directory both modes write to the standard output, but they treat bad bytes
differently: the standard input ends the run, a file is passed over.  A file that
may not be read is passed over as well.  So a run over files prints what a run over
the standard input prints for each file that holds a text, one after the other, and
files without a text leave no trace in it.

Main results:

- Theorem `processFile_eq_print`: processing one file only tells and prints.
- Theorem `processFiles_eq_print`: a run over files prints the outputs of its
  texts in order.
- Theorem `runStdin_eq_print`: a run over the standard input.
- Theorem `command_files_eq_stdin`: the two modes agree for the whole command.
-/

namespace DocComment
namespace Command

variable {options : Options} {format : Format}

/-! ## Files that hold a text -/

namespace FileTree

variable {tree : FileTree} {path : Text}

/-- The bytes of the file that a path leads to, if they may be read and encode a
text. -/
def textContent? (tree : FileTree) (path : Text) : Option ByteArray :=
  match tree.lookup path with
  | .ok (location, .file content) =>
    if tree.mayRead location && (Text.decodeUtf8? content).isSome then some content else none
  | _ => none

/-- Content is decoded exactly when it is valid UTF-8. -/
theorem decode_eq_ok {content : ByteArray} {source : Text} :
    decode content = .ok source ↔ Text.decodeUtf8? content = some source := by
  unfold decode
  cases Text.decodeUtf8? content <;> simp

/-- A file with a content that is a text can be read. -/
theorem exists_readText_eq_ok {content : ByteArray} (h : tree.textContent? path = some content) :
    ∃ source, decode content = .ok source ∧ tree.readText path = .ok source := by
  unfold textContent? at h
  split at h
  · rename_i location content' hlookup
    split at h
    · rename_i hreadable
      cases h
      rw [Bool.and_eq_true] at hreadable
      obtain ⟨source, hsource⟩ := Option.isSome_iff_exists.mp hreadable.2
      have hdecode := decode_eq_ok.mpr hsource
      exact ⟨source, hdecode,
        readText_eq_ok.mpr ⟨location, content, hlookup, hreadable.1, hdecode⟩⟩
    · cases h
  · cases h

/-- Nothing else can be read. -/
theorem exists_readText_eq_error (h : tree.textContent? path = none) :
    ∃ error, tree.readText path = .error error := by
  cases hread : tree.readText path with
  | error error => exact ⟨error, rfl⟩
  | ok source =>
      obtain ⟨location, content, hlookup, hmay, hdecode⟩ := readText_eq_ok.mp hread
      simp [textContent?, hlookup, hmay, decode_eq_ok.mp hdecode] at h

end FileTree

/-! ## Sessions -/

namespace Session

theorem print_nil (session : Session) : session.print [] = session := by
  simp [print]

/-- Telling and printing twice is telling and printing once. -/
theorem print_tell_print_tell (session : Session) (events events' : List Event)
    (text text' : Text) :
    (((session.tell events).print text).tell events').print text' =
      (session.tell (events ++ events')).print (text ++ text') := by
  simp [tell, print]

end Session

/-! ## One source -/

/-- What is printed for a source that is given in bytes.  Bytes that are no text
give nothing. -/
def printed (options : Options) (format : Format) (content : ByteArray) : Text :=
  match FileTree.decode content with
  | .ok source => format.render (extract options.namedOnly source)
  | .error _ => []

/-- What a file adds to the output is the text of its records. -/
theorem printed_eq {content : ByteArray} {source : Text}
    (h : FileTree.decode content = .ok source) :
    printed options format content = format.render (extract options.namedOnly source) := by
  rw [printed, h]

/-- A run over the standard input prints the records of its text. -/
theorem runStdin_eq_print (hformat : Format.ofName options.formatName = .ok format)
    {content : ByteArray} {source : Text} (hdecode : FileTree.decode content = .ok source)
    (session : Session) :
    runStdin options content session =
      ((session.tell (sourceEvents source)).print (printed options format content), none) := by
  rw [runStdin, hdecode, hformat, printed_eq hdecode]

/-- Processing one file only tells and prints: it prints the records of a text, and
nothing for a file without one. -/
theorem processFile_eq_print (houtput : options.output = none) (format : Format)
    (session : Session) (path : Text) :
    ∃ events, processFile options format session path =
      ((session.tell events).print
        ((session.tree.textContent? path).toList.flatMap (printed options format)), none) := by
  cases hcontent : session.tree.textContent? path with
  | none =>
      obtain ⟨error, hread⟩ := FileTree.exists_readText_eq_error hcontent
      refine ⟨[.skipped path error.message], ?_⟩
      rw [processFile, hread, Option.toList_none, List.flatMap_nil, Session.print_nil]
  | some content =>
      obtain ⟨source, hdecode, hread⟩ := FileTree.exists_readText_eq_ok hcontent
      refine ⟨sourceEvents source ++ [.extracted path (extract options.namedOnly source).length],
        ?_⟩
      simp only [processFile, hread, deliver, houtput, Option.toList_some, List.flatMap_cons,
        List.flatMap_nil, List.append_nil, printed_eq hdecode]

/-! ## All sources -/

/-- A run over files without an output directory never fails and never changes the
tree.  It prints what its texts give in the order of the files. -/
theorem processFiles_eq_print (houtput : options.output = none) (format : Format)
    (session : Session) (files : List Text) :
    ∃ events, processFiles options format session files =
      ((session.tell events).print
        ((files.filterMap session.tree.textContent?).flatMap (printed options format)), none) := by
  induction files generalizing session with
  | nil => exact ⟨[], by simp [processFiles, Session.tell, Session.print]⟩
  | cons path rest ih =>
      obtain ⟨events, hstep⟩ := processFile_eq_print houtput format session path
      obtain ⟨events', hrest⟩ := ih ((session.tell events).print
        ((session.tree.textContent? path).toList.flatMap (printed options format)))
      refine ⟨events ++ events', ?_⟩
      rw [processFiles, hstep]
      simp only [hrest, Session.print_tell_print_tell, Session.tree_print, Session.tree_tell]
      cases hcontent : session.tree.textContent? path with
      | none => simp [hcontent]
      | some content => simp [hcontent]

/-! ## The command -/

/-- The input files of a run are in strictly ascending order. -/
theorem ascending_inputFiles {tree : FileTree} {arguments files : List Text} {events : List Event}
    (h : inputFiles tree arguments = (events, .ok files)) : files.Pairwise PathName.Before :=
  (isExpansion_of_inputFiles (by rw [h])).ascending

/-- The three names of formats are known. -/
theorem exists_ofName_eq_ok {name : Text}
    (h : name ∈ ["json".toList, "markdown".toList, "md".toList]) :
    ∃ format, Format.ofName name = .ok format := by
  simp only [List.mem_cons, List.not_mem_nil, or_false] at h
  rcases h with rfl | rfl | rfl
  · exact ⟨.json, rfl⟩
  · exact ⟨.markdown, rfl⟩
  · exact ⟨.markdown, rfl⟩

/-- The command over the standard input, given a text. -/
theorem command_stdin_eq (logSetting : Option Text) (tree : FileTree) {arguments : List Text}
    {content : ByteArray} {source : Text}
    (hoptions : Options.parse arguments = .ok options) (hfiles : options.files = [])
    (hformat : Format.ofName options.formatName = .ok format)
    (hdecode : FileTree.decode content = .ok source) :
    (command arguments logSetting content tree).exitCode = 0 ∧
      (command arguments logSetting content tree).stdout = printed options format content := by
  have hrun : run options content tree =
      (((Session.start tree).tell (sourceEvents source)).print
        (printed options format content), none) := by
    rw [run, hfiles, List.isEmpty_nil, if_pos rfl, runStdin_eq_print hformat hdecode]
  obtain ⟨log, hdone⟩ := (exists_command_eq_iff hoptions).mpr hrun
  rw [hdone]
  exact ⟨rfl, List.nil_append _⟩

/-- The command over files without an output directory. -/
theorem command_files_eq {arguments : List Text} {logSetting : Option Text} {stdin : ByteArray}
    {tree : FileTree} {events : List Event} {files : List Text}
    (hoptions : Options.parse arguments = .ok options) (hfiles : options.files ≠ [])
    (houtput : options.output = none) (hformat : Format.ofName options.formatName = .ok format)
    (hinputs : inputFiles tree options.files = (events, .ok files)) :
    ∃ session log, command arguments logSetting stdin tree = .done session none log ∧
      session.tree = tree ∧
      session.stdout = (files.filterMap tree.textContent?).flatMap (printed options format) := by
  obtain ⟨events', hprocess⟩ :=
    processFiles_eq_print houtput format ((Session.start tree).tell events) files
  have hrun : run options stdin tree =
      processFiles options format ((Session.start tree).tell events) files := by
    rw [run, if_neg (by simpa using hfiles), runFiles]
    simp only [hformat, prepareOutput, houtput, Session.start, hinputs]
  obtain ⟨log, hdone⟩ := (exists_command_eq_iff hoptions).mpr (hrun.trans hprocess)
  exact ⟨_, log, hdone, rfl, List.nil_append _⟩

/-- The two modes agree.  When a command without an output directory is given files,
its format has a name and its arguments can be expanded, it ends without a
failure and leaves the tree as it is; and it prints, over its input files in
strictly ascending order, what the command with the same options prints for the
content of the file in the standard input.  Files that cannot be read or hold no
text do not count. -/
theorem command_files_eq_stdin {arguments stdinArguments : List Text}
    {logSetting stdinSetting : Option Text} {stdin : ByteArray} {tree stdinTree : FileTree}
    {events : List Event} {files : List Text}
    (hoptions : Options.parse arguments = .ok options) (hfiles : options.files ≠ [])
    (houtput : options.output = none)
    (hformat : options.formatName ∈ ["json".toList, "markdown".toList, "md".toList])
    (hinputs : inputFiles tree options.files = (events, .ok files))
    (hstdin : Options.parse stdinArguments = .ok { options with files := [] }) :
    files.Pairwise PathName.Before ∧
      (∃ session log, command arguments logSetting stdin tree = .done session none log ∧
        session.tree = tree ∧
        session.stdout = (files.filterMap tree.textContent?).flatMap fun content =>
          (command stdinArguments stdinSetting content stdinTree).stdout) ∧
      ∀ content ∈ files.filterMap tree.textContent?,
        (command stdinArguments stdinSetting content stdinTree).exitCode = 0 := by
  obtain ⟨format, hname⟩ := exists_ofName_eq_ok hformat
  have hcontent : ∀ content ∈ files.filterMap tree.textContent?,
      (command stdinArguments stdinSetting content stdinTree).exitCode = 0 ∧
        (command stdinArguments stdinSetting content stdinTree).stdout =
          printed options format content := by
    intro content hmem
    obtain ⟨path, _, hpath⟩ := List.mem_filterMap.mp hmem
    obtain ⟨source, hdecode, _⟩ := FileTree.exists_readText_eq_ok hpath
    have hprinted := command_stdin_eq stdinSetting stdinTree hstdin rfl hname hdecode
    exact hprinted
  refine ⟨?_, ?_, fun content hmem => (hcontent content hmem).1⟩
  · exact ascending_inputFiles hinputs
  · obtain ⟨session, log, hdone, htree, hstdout⟩ :=
      command_files_eq hoptions hfiles houtput hname hinputs
    refine ⟨session, log, hdone, htree, hstdout.trans ?_⟩
    have hprinted := List.map_congr_left fun content hmem => (hcontent content hmem).2.symm
    rw [List.flatMap_def, List.flatMap_def, hprinted]

/-! ## Files without a text -/

/-- A tree with two sources, a file that is no text between them and one that may not
be read after them. -/
def brokenTree : FileTree where
  entries :=
    [(["work".toList], .directory),
     (["work".toList, "a.js".toList], .file (Text.encodeUtf8 (namedSource "first"))),
     (["work".toList, "b.js".toList], .file ⟨#[0xff]⟩),
     (["work".toList, "c.js".toList],
       .file (Text.encodeUtf8 ("/** no name */".toList ++ namedSource "second"))),
     (["work".toList, "d.js".toList], .file (Text.encodeUtf8 (namedSource "third")))]
  cwd := ["work".toList]
  unreadable := [["work".toList, "d.js".toList]]

/-- The options of a run over the four files, one of them given twice. -/
def brokenOptions : Options where
  files := ["a.js".toList, "a.js".toList, "b.js".toList, "c.js".toList, "d.js".toList]
  output := none
  format := some "md".toList
  namedOnly := true
  verbose := false

/-- The options on the command line. -/
def brokenFlags : List Text :=
  ["-f".toList, "md".toList, "--named-only".toList]

theorem inputFiles_brokenTree :
    inputFiles brokenTree brokenOptions.files =
      ([], .ok ["a.js".toList, "b.js".toList, "c.js".toList, "d.js".toList]) := by
  have hexpand : expandArguments brokenTree brokenOptions.files =
      ([], .ok brokenOptions.files) := rfl
  have hsort : PathName.sortDistinct brokenOptions.files =
      ["a.js".toList, "b.js".toList, "c.js".toList, "d.js".toList] := by
    rw [PathName.sortDistinct, List.mergeSort_of_pairwise (by decide)]
    rfl
  rw [inputFiles, hexpand]
  simp only [Except.map, hsort]

/-- Only the two sources that can be read and are texts are printed. -/
theorem command_brokenTree : ∃ session log,
    command (brokenFlags ++ brokenOptions.files) none .empty brokenTree =
        .done session none log ∧
      session.tree = brokenTree ∧
      session.stdout =
        (command brokenFlags none (Text.encodeUtf8 (namedSource "first")) brokenTree).stdout ++
        (command brokenFlags none
          (Text.encodeUtf8 ("/** no name */".toList ++ namedSource "second")) brokenTree).stdout := by
  have hoptions : Options.parse (brokenFlags ++ brokenOptions.files) = .ok brokenOptions := rfl
  have hstdin : Options.parse brokenFlags = .ok { brokenOptions with files := [] } := rfl
  obtain ⟨_, ⟨session, log, hdone, htree, hstdout⟩, _⟩ :=
    command_files_eq_stdin hoptions (by decide) rfl (by decide) inputFiles_brokenTree hstdin
  refine ⟨session, log, hdone, htree, hstdout.trans ?_⟩
  have hcontents : ["a.js".toList, "b.js".toList, "c.js".toList, "d.js".toList].filterMap
      brokenTree.textContent? =
        [Text.encodeUtf8 (namedSource "first"),
         Text.encodeUtf8 ("/** no name */".toList ++ namedSource "second")] := by
    decide +kernel
  rw [hcontents, List.flatMap_cons, List.flatMap_cons, List.flatMap_nil, List.append_nil]

end Command
end DocComment
