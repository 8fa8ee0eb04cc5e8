import Mathlib.Data.List.Basic
import DocComment.Proofs.Command.Failures
import DocComment.Proofs.Command.Spelling

/-!
# Order and repetition of arguments

Which files a run processes, and in which order, is decided by which arguments it is
given, not by their order or by how often each is given.  What can differ is the
spelling under which a file is processed: of several spellings, the one that comes
first stays.  It makes no difference to what is read, printed and written, only to
what the log tells.

Main results:

- Theorem `processFile_agrees`: processing a file under two spellings has the same
  effects.
- Theorem `processFiles_agrees`: so has a run over two lists of spellings.
- Theorem `runFiles_agrees`: so have runs over arguments that hold each other.
- Theorem `command_arguments_eq`: the input files of arguments, and the effects of the
  command.
-/

namespace DocComment
namespace Command

variable {options : Options} {format : Format} {session session' : Session}

/-! ## One file under two spellings -/

/-- Two sessions with the same effects.  They may have told different events. -/
structure Session.Agrees (session session' : Session) : Prop where
  tree : session'.tree = session.tree
  stdout : session'.stdout = session.stdout

theorem Session.Agrees.refl (session : Session) : session.Agrees session :=
  ⟨rfl, rfl⟩

/-- Sessions that agree still do so whatever events they tell. -/
theorem Session.Agrees.tell (h : session.Agrees session') (events events' : List Event) :
    (session.tell events).Agrees (session'.tell events') :=
  ⟨h.tree, h.stdout⟩

/-- Sessions that agree still do so after both print the same text. -/
theorem Session.Agrees.print (h : session.Agrees session') (text : Text) :
    (session.print text).Agrees (session'.print text) :=
  ⟨h.tree, congrArg (· ++ text) h.stdout⟩

/-- Two steps of runs that have the same effects and end in the same way. -/
structure EndsAlike (result result' : Session × Option Failure) : Prop where
  agrees : result.1.Agrees result'.1
  failure : result'.2 = result.2

/-- The output of a file does not depend on the spelling of its path. -/
theorem outputName_eq_of_components_eq {path path' : Text} (format : Format)
    (h : PathName.components path' = PathName.components path)
    (hstem : (PathName.stem? path).isSome = true) :
    outputName format path' = outputName format path := by
  have hsame : PathName.stem? path' = PathName.stem? path := by
    rw [PathName.stem?, PathName.stem?, PathName.fileName?, PathName.fileName?, h]
  rcases Option.isSome_iff_exists.mp hstem with ⟨stem, heq⟩
  rw [outputName_eq heq, outputName_eq (hsame.trans heq)]

/-- Two paths with one output name are delivered alike. -/
theorem deliver_agrees {path path' : Text} (h : session.Agrees session')
    (hname : outputName format path' = outputName format path) (text : Text) :
    EndsAlike (deliver options format path text session)
      (deliver options format path' text session') := by
  unfold deliver
  cases options.output with
  | none => exact ⟨h.print text, rfl⟩
  | some directory =>
      simp only [hname, h.tree]
      split
      · exact ⟨h, rfl⟩
      · exact ⟨⟨rfl, h.stdout⟩, rfl⟩

/-- Processing a file turns no file into a directory and no directory into a file. -/
theorem keepsKinds_processFile (options : Options) (format : Format) (session : Session)
    (path : Text) :
    session.tree.KeepsKinds (processFile options format session path).1.tree := by
  unfold processFile
  split
  · exact .refl _
  · unfold deliver
    split
    · exact .refl _
    · simp only [Session.tree_tell]
      split
      · exact .refl _
      · rename_i hwrite
        exact FileTree.keepsKinds_writeFile hwrite

section Files

variable {tree : FileTree} (hwell : tree.WellFormed)

include hwell

/-- A file of a tree is processed in the same way under two spellings, also after
other files have been processed. -/
theorem processFile_agrees {path path' : Text} (h : session.Agrees session')
    (hkeeps : tree.KeepsKinds session.tree)
    (hsame : PathName.components path' = PathName.components path)
    (hpath : tree.isFile path = true) (hpath' : tree.isFile path' = true) :
    EndsAlike (processFile options format session path)
      (processFile options format session' path') := by
  have hread : session'.tree.readText path' = session.tree.readText path := by
    rw [h.tree, hkeeps.readText_eq hsame hpath hpath']
  have hstem : (PathName.stem? path).isSome = true := by
    rcases FileTree.isFile_iff.mp hpath with ⟨_, _, hlookup⟩
    rcases hwell.exists_fileName hlookup with ⟨_, _, _, _, hfile⟩
    rw [PathName.stem?_eq hfile]
    rfl
  unfold processFile
  rw [hread]
  cases session.tree.readText path with
  | error error => exact ⟨h.tell _ _, rfl⟩
  | ok source =>
      exact deliver_agrees (h.tell _ _) (outputName_eq_of_components_eq format hsame hstem) _

/-- Files of a tree are processed in the same way under any spellings. -/
theorem processFiles_agrees {files files' : List Text} (h : session.Agrees session')
    (hkeeps : tree.KeepsKinds session.tree)
    (hsame : files'.map PathName.components = files.map PathName.components)
    (hfiles : ∀ file ∈ files, tree.isFile file = true)
    (hfiles' : ∀ file ∈ files', tree.isFile file = true) :
    EndsAlike (processFiles options format session files)
      (processFiles options format session' files') := by
  -- The tree of the start is fixed: what is a file there stays one in every later tree.
  induction files generalizing files' session session' with
  | nil =>
      have hnil : files' = [] := List.map_eq_nil_iff.mp hsame
      subst hnil
      exact ⟨h, rfl⟩
  | cons path files ih =>
      rcases files' with _ | ⟨path', files'⟩
      · simp at hsame
      · simp only [List.map_cons, List.cons.injEq] at hsame
        have hnext := keepsKinds_processFile options format session path
        have hstep : EndsAlike (processFile options format session path)
            (processFile options format session' path') :=
          processFile_agrees hwell h hkeeps hsame.1 (hfiles path List.mem_cons_self)
            (hfiles' path' List.mem_cons_self)
        obtain ⟨hagree, hfailure⟩ := hstep
        rw [processFiles, processFiles]
        rcases hfirst : processFile options format session path with ⟨next, failure⟩
        rcases hfirst' : processFile options format session' path' with ⟨next', failure'⟩
        rw [hfirst] at hnext hagree hfailure
        rw [hfirst'] at hagree hfailure
        cases hfailure
        cases failure with
        | some failure => exact ⟨hagree, rfl⟩
        | none =>
            exact ih hagree (hkeeps.trans hnext) hsame.2
              (fun file hfile => hfiles file (List.mem_cons_of_mem path hfile))
              (fun file hfile => hfiles' file (List.mem_cons_of_mem path' hfile))

end Files

/-! ## Arguments that hold each other -/

/-- Either such arguments both have input files, which differ in their spelling at most,
or neither of them has. -/
theorem inputFiles_agrees {arguments arguments' : List Text}
    (hsame : ∀ argument, argument ∈ arguments' ↔ argument ∈ arguments) (tree : FileTree) :
    (∃ events files events' files',
      inputFiles tree arguments = (events, .ok files) ∧
      inputFiles tree arguments' = (events', .ok files') ∧
      files'.map PathName.components = files.map PathName.components ∧
      (∀ file ∈ files, tree.isFile file = true) ∧ ∀ file ∈ files', tree.isFile file = true) ∨
    ∃ events invalid events' invalid',
      inputFiles tree arguments = (events, .error invalid) ∧
      inputFiles tree arguments' = (events', .error invalid') := by
  have hexpandable : (∀ argument ∈ arguments', Expandable tree argument) ↔
      ∀ argument ∈ arguments, Expandable tree argument := by
    simp only [hsame]
  rw [← exists_inputFiles_eq_ok_iff, ← exists_inputFiles_eq_ok_iff] at hexpandable
  rcases hinputs : inputFiles tree arguments with ⟨events, result⟩
  rcases hinputs' : inputFiles tree arguments' with ⟨events', result'⟩
  rw [hinputs, hinputs'] at hexpandable
  cases result with
  | error invalid =>
      cases result' with
      | error invalid' => exact .inr ⟨events, invalid, events', invalid', rfl, rfl⟩
      | ok files' => simp at hexpandable
  | ok files =>
      cases result' with
      | error invalid' => simp at hexpandable
      | ok files' =>
          have hfiles : IsExpansion tree arguments files :=
            isExpansion_of_inputFiles (by rw [hinputs])
          have hfiles' : IsExpansion tree arguments' files' :=
            isExpansion_of_inputFiles (by rw [hinputs'])
          exact .inl ⟨events, files, events', files', rfl, rfl,
            hfiles.map_components_eq hfiles' hsame, hfiles.isFile, hfiles'.isFile⟩

/-- The arguments of a run have no part in how its files are processed. -/
theorem processFiles_with_files (options : Options) (arguments : List Text) (format : Format)
    (session : Session) (files : List Text) :
    processFiles { options with files := arguments } format session files =
      processFiles options format session files := by
  induction files generalizing session with
  | nil => rfl
  | cons path files ih =>
      have hfirst : processFile { options with files := arguments } format session path =
        processFile options format session path := rfl
      rw [processFiles, processFiles, hfirst]
      split
      · rfl
      · exact ih _

/-- Runs over arguments that hold each other have the same effects. -/
theorem runFiles_agrees {arguments : List Text} (hwell : session.tree.WellFormed)
    (hsame : ∀ argument, argument ∈ arguments ↔ argument ∈ options.files) :
    (runFiles options session).1.Agrees (runFiles { options with files := arguments } session).1 ∧
      (runFiles { options with files := arguments } session).2.isSome =
        (runFiles options session).2.isSome := by
  have hformat : Options.formatName { options with files := arguments } = options.formatName := rfl
  have hprepare : prepareOutput { options with files := arguments } session =
    prepareOutput options session := rfl
  have hgrows := grows_prepareOutput options session
  unfold runFiles
  rw [hformat, hprepare]
  cases Format.ofName options.formatName with
  | error error => exact ⟨.refl session, rfl⟩
  | ok format =>
      rcases hprepared : prepareOutput options session with ⟨prepared, failure⟩
      rw [hprepared] at hgrows
      cases failure with
      | some failure => exact ⟨.refl prepared, rfl⟩
      | none =>
          rcases inputFiles_agrees hsame prepared.tree with
            ⟨events, files, events', files', hinputs, hinputs', hcomponents, hfiles, hfiles'⟩ |
            ⟨events, invalid, events', invalid', hinputs, hinputs'⟩
          · have halike : EndsAlike (processFiles options format (prepared.tell events) files)
                (processFiles options format (prepared.tell events') files') :=
              processFiles_agrees (hgrows.wellFormed hwell) ((Session.Agrees.refl prepared).tell _ _)
                (.refl prepared.tree) hcomponents hfiles hfiles'
            simp only [hinputs, hinputs', processFiles_with_files]
            exact ⟨halike.agrees, congrArg Option.isSome halike.failure⟩
          · simp only [hinputs, hinputs']
            exact ⟨(Session.Agrees.refl prepared).tell _ _, rfl⟩

/-! ## The command -/

/-- A run that is over has exit code 1 exactly when it failed. -/
theorem exitCode_done (session : Session) (failure : Option Failure) (log : List Text) :
    (Outcome.done session failure log).exitCode = if failure.isSome then 1 else 0 := by
  cases failure <;> rfl

/-- Order and repetition of arguments do not matter.  Arguments that can all be
expanded have input files in strictly ascending order, and these are, up to their
spelling, the input files of each argument alone.  And with other arguments that hold
each other and the same options, the command ends with the same exit code, has
printed the same text and leaves the same tree. -/
theorem command_arguments_eq {arguments arguments' files' : List Text}
    {tree : FileTree} (logSetting : Option Text) (stdin : ByteArray) (hwell : tree.WellFormed)
    (hoptions : Options.parse arguments = .ok options)
    (hoptions' : Options.parse arguments' = .ok { options with files := files' })
    (hsame : ∀ argument, argument ∈ files' ↔ argument ∈ options.files) :
    ((∀ argument ∈ options.files, Expandable tree argument) →
      ∃ events files, inputFiles tree options.files = (events, .ok files) ∧
        files.Pairwise PathName.Before ∧
        ∀ path, (∃ file ∈ files, PathName.same file path = true) ↔
          ∃ argument ∈ options.files, ∃ events alone,
            inputFiles tree [argument] = (events, .ok alone) ∧
            ∃ file ∈ alone, PathName.same file path = true) ∧
    ∃ session failure log session' failure' log',
      command arguments logSetting stdin tree = .done session failure log ∧
      command arguments' logSetting stdin tree = .done session' failure' log' ∧
      (Outcome.done session' failure' log').exitCode =
        (Outcome.done session failure log).exitCode ∧
      session'.stdout = session.stdout ∧ session'.tree = session.tree := by
  constructor
  · intro hexpandable
    obtain ⟨files, hfiles⟩ := exists_inputFiles_eq_ok_iff.mpr hexpandable
    have hexpansion := isExpansion_of_inputFiles hfiles
    exact ⟨(inputFiles tree options.files).1, files, Prod.ext rfl hfiles, hexpansion.ascending,
      hexpansion.same_iff_alone⟩
  · have hagree : (run options stdin tree).1.Agrees
          (run { options with files := files' } stdin tree).1 ∧
        (run { options with files := files' } stdin tree).2.isSome =
          (run options stdin tree).2.isSome := by
      have hempty : files'.isEmpty = options.files.isEmpty := by
        rw [Bool.eq_iff_iff, List.isEmpty_iff, List.isEmpty_iff, List.eq_nil_iff_forall_not_mem,
          List.eq_nil_iff_forall_not_mem]
        simp only [hsame]
      unfold run
      rw [hempty]
      split
      · exact ⟨.refl _, rfl⟩
      · exact runFiles_agrees hwell hsame
    rcases hrun : run options stdin tree with ⟨session, failure⟩
    rcases hrun' : run { options with files := files' } stdin tree with ⟨session', failure'⟩
    rw [hrun, hrun'] at hagree
    obtain ⟨log, hdone⟩ := (exists_command_eq_iff hoptions).mpr hrun
    obtain ⟨log', hdone'⟩ := (exists_command_eq_iff hoptions').mpr hrun'
    refine ⟨session, failure, log, session', failure', log', hdone, hdone', ?_,
      hagree.1.stdout, hagree.1.tree⟩
    rw [exitCode_done, exitCode_done, hagree.2]

/-! ## A file under three arguments -/

/-- A tree with two sources in a directory. -/
def spelledTree : FileTree where
  entries :=
    [(["work".toList], .directory),
     (["work".toList, "src".toList], .directory),
     (["work".toList, "src".toList, "a.js".toList], .file (Text.encodeUtf8 (namedSource "first"))),
     (["work".toList, "src".toList, "b.ts".toList], .file (Text.encodeUtf8 (namedSource "second")))]
  cwd := ["work".toList]

/-- The options of a run over a file, its directory and a pattern that it matches. -/
def spelledOptions : Options where
  files := ["src//a.js".toList, "src".toList, "src/*.js".toList]
  output := some "out".toList
  format := none
  namedOnly := false
  verbose := false

/-- The same arguments in another order, one of them twice. -/
def spelledAgain : List Text :=
  ["src/*.js".toList, "src".toList, "src//a.js".toList, "src".toList]

/-- Every argument of the example can be expanded. -/
theorem expandable_spelledTree :
    ∀ argument ∈ spelledOptions.files, Expandable spelledTree argument := by
  have hpattern : Glob.Valid "src/*.js".toList := ⟨⟨_, by cbv⟩, ⟨_, by cbv⟩⟩
  intro argument hargument
  simp only [spelledOptions, List.mem_cons, List.not_mem_nil, or_false] at hargument
  rcases hargument with rfl | rfl | rfl
  · exact .inl (by decide)
  · exact .inr (.inl (by decide))
  · exact .inr (.inr hpattern)

/-- The file is given under two spellings, and the run is the same whichever comes
first. -/
theorem command_spelledTree :
    (∃ events files, inputFiles spelledTree spelledOptions.files = (events, .ok files) ∧
      files.Pairwise PathName.Before) ∧
    ∃ session failure log session' failure' log',
      command (["-o".toList, "out".toList] ++ spelledOptions.files) none .empty spelledTree =
        .done session failure log ∧
      command (["-o".toList, "out".toList] ++ spelledAgain) none .empty spelledTree =
        .done session' failure' log' ∧
      (Outcome.done session' failure' log').exitCode =
        (Outcome.done session failure log).exitCode ∧
      session'.stdout = session.stdout ∧ session'.tree = session.tree := by
  have hwell : spelledTree.WellFormed := FileTree.wellFormed_of_entries (by decide) (by decide)
  have hoptions : Options.parse (["-o".toList, "out".toList] ++ spelledOptions.files) =
    .ok spelledOptions := rfl
  have hoptions' : Options.parse (["-o".toList, "out".toList] ++ spelledAgain) =
    .ok { spelledOptions with files := spelledAgain } := rfl
  have hsame : ∀ argument, argument ∈ spelledAgain ↔ argument ∈ spelledOptions.files := by
    intro argument
    simp only [spelledAgain, spelledOptions, List.mem_cons, List.not_mem_nil, or_false]
    grind
  obtain ⟨hinputs, hruns⟩ := command_arguments_eq none .empty hwell hoptions hoptions' hsame
  obtain ⟨events, files, hfiles, hascending, _⟩ := hinputs expandable_spelledTree
  exact ⟨⟨events, files, hfiles, hascending⟩, hruns⟩

end Command
end DocComment
