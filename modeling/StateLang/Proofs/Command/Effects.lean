import StateLang.Proofs.Command.Writing
import StateLang.Proofs.Compilation

/-!
# What a run does to the files

A run goes through its steps in order: the arguments, the settings, the source,
the program, and last the two documents. Before the last it only reads. Each
lemma here says how a run ends that gets so far and no further; the two theorems
put them together.
-/

namespace StateLang

/-- The settings in a file, if it can be read, is a text and is well formed. -/
def Settings.at? (t : FileTree) (path : Path) : Option Settings :=
  match t.read path with
  | .error _ => none
  | .ok content => (String.fromUTF8? content).bind Settings.parse?

namespace Command

variable {env : Environment} {options : Options} {settings : Settings} {filename : Path}
  {content : ByteArray} {source : String} {program : Program} {s s' : FileStore}

/-- The settings file below a home directory. -/
def homeFile (home : Path) : Path :=
  if home.text.isEmpty || home.endsInSlash then ⟨home.text ++ ".cffc/config.yaml"⟩
  else ⟨home.text ++ "/.cffc/config.yaml"⟩

/-- The settings in the file asked for; if none is asked for, those in `cffc.yaml`, or else those
below the home directory, or else the defaults. -/
def chosen? (t : FileTree) (env : Environment) (options : Options) : Option Settings :=
  match options.config? with
  | some path => Settings.at? t path
  | none =>
      let here? := Settings.at? t ⟨"cffc.yaml"⟩
      let atHome? := env.home?.bind fun home => Settings.at? t (homeFile home)
      some ((here?.or atHome?).getD ⟨⟨"."⟩, "Machine.h", "Machine.cpp", "RunTime.h"⟩)

/-- The settings that a compilation is made under: an output directory among the options goes
before the one chosen. -/
def effective? (t : FileTree) (env : Environment) (options : Options) : Option Settings :=
  (chosen? t env options).map fun settings =>
    { settings with outputDir := options.outDir?.getD settings.outputDir }

/-- What a run answers, and the files after it. -/
def runOn (env : Environment) (arguments : List String) (s : FileStore) : Outcome × FileStore :=
  (run env arguments : StateM FileStore Outcome) s

/-! ## Settings -/

theorem load_apply (env : Environment) (path : Path) (s : FileStore) :
    (∃ error, (Settings.load env path : StateM FileStore _) s = (.error error, s) ∧
      Settings.at? s.tree path = none) ∨
    ∃ settings, (Settings.load env path : StateM FileStore _) s = (.ok settings, s) ∧
      Settings.at? s.tree path = some settings := by
  simp only [Settings.load, bind_apply, read_apply, Settings.at?]
  cases s.tree.read path with
  | error cause => exact .inl ⟨_, rfl, rfl⟩
  | ok content =>
      simp only [pure_apply, Settings.ofContent]
      cases String.fromUTF8? content with
      | none => exact .inl ⟨_, rfl, rfl⟩
      | some text =>
          simp only [Option.bind_some]
          cases Settings.parse? text with
          | none => exact .inl ⟨_, rfl, rfl⟩
          | some settings => exact .inr ⟨settings, rfl, rfl⟩

theorem at?_of_not_isFile {t : FileTree} {path : Path} (h : t.isFile path = false) :
    Settings.at? t path = none := by
  unfold FileTree.isFile at h
  unfold Settings.at?
  cases hread : t.read path with
  | error cause => rfl
  | ok content => simp [hread] at h

/-- A search gives the first settings there are; it only reads. -/
theorem search_apply (env : Environment) (ignored : List SettingsError) (paths : List Path)
    (s : FileStore) :
    ∃ found, (Settings.search env ignored paths : StateM FileStore _) s = (found, s) ∧
      found.settings = (paths.findSome? (Settings.at? s.tree)).getD {} := by
  induction paths generalizing ignored with
  | nil => exact ⟨_, rfl, rfl⟩
  | cons path rest ih =>
      simp only [Settings.search, bind_apply, isFile_apply, List.findSome?_cons]
      by_cases hfile : s.tree.isFile path = true
      · rw [if_pos hfile]
        simp only [bind_apply]
        rcases load_apply env path s with ⟨error, hload, hnone⟩ | ⟨settings, hload, hsome⟩
        · rw [hload, hnone]
          exact ih (ignored ++ [error])
        · rw [hload, hsome]
          exact ⟨_, rfl, rfl⟩
      · rw [if_neg hfile, at?_of_not_isFile (Bool.eq_false_iff.mpr hfile)]
        exact ih ignored

theorem join_homeFile (home : Path) :
    (home.join ⟨".cffc"⟩).join ⟨"config.yaml"⟩ = homeFile home := by
  -- whatever it is joined to, the first name ends the path and is not followed by a slash
  have hjoin (text : String) :
      Path.join ⟨text ++ ".cffc"⟩ ⟨"config.yaml"⟩ = ⟨text ++ ".cffc/config.yaml"⟩ := by
    have hslash : Path.endsInSlash ⟨text ++ ".cffc"⟩ = false := by simp [Path.endsInSlash]
    have hfull : (text ++ ".cffc").isEmpty = false := by simp
    simp [Path.join, Path.isAbsolute, hslash, hfull, String.append_assoc]
  have hfirst : home.join ⟨".cffc"⟩ = if home.text.isEmpty || home.endsInSlash
      then ⟨home.text ++ ".cffc"⟩ else ⟨home.text ++ "/" ++ ".cffc"⟩ := if_neg (by decide)
  rw [hfirst, homeFile]
  split
  · exact hjoin home.text
  · rw [hjoin, String.append_assoc]
    rfl

theorem findSome?_candidates (t : FileTree) (home? : Option Path) :
    (Settings.candidates home?).findSome? (Settings.at? t) =
      (Settings.at? t ⟨"cffc.yaml"⟩).or (home?.bind fun home => Settings.at? t (homeFile home)) := by
  cases home? with
  | none =>
      simp only [Settings.candidates, List.findSome?_cons]
      cases Settings.at? t ⟨"cffc.yaml"⟩ <;> rfl
  | some home =>
      simp only [Settings.candidates, join_homeFile, List.findSome?_cons, Option.bind_some]
      cases Settings.at? t ⟨"cffc.yaml"⟩ with
      | some settings => rfl
      | none => cases Settings.at? t (homeFile home) <;> rfl

theorem applyOptions_eq (options : Options) (settings : Settings) : applyOptions options settings =
    { settings with outputDir := options.outDir?.getD settings.outputDir } := by
  unfold applyOptions
  cases options.outDir? <;> rfl

theorem chooseSettings_apply (env : Environment) (options : Options) (s : FileStore) :
    (∃ error, (chooseSettings env options : StateM FileStore _) s = (.error error, s) ∧
      chosen? s.tree env options = none) ∨
    ∃ settings notes, (chooseSettings env options : StateM FileStore _) s =
        (.ok (settings, notes), s) ∧ chosen? s.tree env options = some settings := by
  unfold chooseSettings chosen?
  cases options.config? with
  | some path =>
      simp only [bind_apply]
      rcases load_apply env path s with ⟨error, hload, hnone⟩ | ⟨settings, hload, hsome⟩
      · rw [hload, hnone]
        exact .inl ⟨error, rfl, rfl⟩
      · rw [hload, hsome]
        exact .inr ⟨settings, _, rfl, rfl⟩
  | none =>
      obtain ⟨found, hsearch, hsettings⟩ := search_apply env [] (Settings.candidates env.home?) s
      simp only [Settings.discover, bind_apply]
      rw [hsearch]
      refine .inr ⟨found.settings, _, rfl, ?_⟩
      rw [hsettings, findSome?_candidates]

/-! ## How far a compilation gets -/

theorem compile_of_no_filename (h : options.filename? = none) :
    (compile env options : StateM FileStore _) s = (⟨.noFilename, usageText, []⟩, s) := by
  simp only [compile, h, pure_apply]

theorem compile_of_no_settings (hfile : options.filename? = some filename)
    (hsettings : effective? s.tree env options = none) :
    ∃ notes, (compile env options : StateM FileStore _) s = (⟨.badSettings, "", notes⟩, s) := by
  simp only [compile, hfile, bind_apply]
  rcases chooseSettings_apply env options s with ⟨error, hchoose, -⟩ | ⟨settings, notes, -, hsome⟩
  · rw [hchoose]
    exact ⟨_, rfl⟩
  · simp [effective?, hsome] at hsettings

theorem compile_of_settings (hfile : options.filename? = some filename)
    (hsettings : effective? s.tree env options = some settings) :
    ∃ notes, (compile env options : StateM FileStore _) s =
      (compileFile options settings filename notes : StateM FileStore _) s := by
  simp only [compile, hfile, bind_apply]
  rcases chooseSettings_apply env options s with
    ⟨error, -, hnone⟩ | ⟨chosen, notes, hchoose, hsome⟩
  · simp [effective?, hnone] at hsettings
  · rw [hchoose]
    have heq : applyOptions options chosen = settings := by
      simpa [effective?, hsome, applyOptions_eq] using hsettings
    rw [← heq]
    exact ⟨notes, rfl⟩

theorem compile_of_missing (hfile : options.filename? = some filename)
    (hsettings : effective? s.tree env options = some settings)
    (hread : s.tree.read filename = .error .missing) :
    ∃ output notes, (compile env options : StateM FileStore _) s =
      (⟨.notFound, output, notes⟩, s) := by
  obtain ⟨notes, hrun⟩ := compile_of_settings hfile hsettings
  simp only [hrun, compileFile, bind_apply, read_apply, hread, pure_apply]
  exact ⟨_, _, rfl⟩

theorem compile_of_unreadable {cause : FileError} (hfile : options.filename? = some filename)
    (hsettings : effective? s.tree env options = some settings)
    (hread : s.tree.read filename = .error cause) (hcause : cause ≠ .missing) :
    ∃ output notes, (compile env options : StateM FileStore _) s =
      (⟨.unreadable, output, notes⟩, s) := by
  obtain ⟨notes, hrun⟩ := compile_of_settings hfile hsettings
  simp only [hrun, compileFile, bind_apply, read_apply, hread]
  cases cause with
  | missing => exact absurd rfl hcause
  | _ => exact ⟨_, _, rfl⟩

theorem compile_of_read (hfile : options.filename? = some filename)
    (hsettings : effective? s.tree env options = some settings)
    (hread : s.tree.read filename = .ok content) :
    ∃ notes, (compile env options : StateM FileStore _) s =
      (compileText options settings filename (Utf8.decodeLossy content) notes :
        StateM FileStore _) s := by
  obtain ⟨notes, hrun⟩ := compile_of_settings hfile hsettings
  simp only [hrun, compileFile, bind_apply, read_apply, hread]
  exact ⟨_, rfl⟩

/-- A source that cannot be read as a program, since reading never fails internally. -/
theorem compileText_of_fault {notes : List String} {fault : Fault}
    (hparse : Program.parse source = .error fault) :
    ∃ output notes', (compileText options settings filename source notes : StateM FileStore _) s =
      (⟨.badSource, output, notes'⟩, s) := by
  unfold compileText
  simp only [Resolved.ofSource_eq, hparse, Except.map]
  cases fault with
  | internal detail => exact absurd hparse Parser.IsRule.program.read_not_internal
  | _ => exact ⟨_, _, rfl⟩

theorem compileText_of_dump {notes : List String} (hparse : Program.parse source = .ok program)
    (hdump : options.dumpTree = true) :
    ∃ output notes', (compileText options settings filename source notes : StateM FileStore _) s =
      (⟨.success, output, notes'⟩, s) := by
  unfold compileText
  simp only [Resolved.ofSource_eq, hparse, Except.map, hdump, if_true, pure_apply]
  exact ⟨_, _, rfl⟩

/-- How a run that writes its documents ends. -/
def ending (program : Resolved) (notes : List String) : Except WriteError Unit → Outcome
  | .error error => ⟨.notWritten, "", notes ++ [error.message]⟩
  | .ok _ => ⟨.success, reportText program, notes⟩

theorem finish_apply (options : Options) (settings : Settings) (filename : Path)
    (program : Program) (notes : List String) (s : FileStore) : ∃ result s' notes',
    Written settings (program.written settings.naming) s (result, s') ∧
      (finish options settings filename program.resolve notes : StateM FileStore _) s =
        (ending program.resolve notes' result, s') := by
  have hwritten := writeDocuments_written settings (program.written settings.naming) s
  cases hrun : (writeDocuments settings (program.written settings.naming) :
      StateM FileStore _) s with
  | mk result s' =>
      rw [hrun] at hwritten
      simp only [finish, program.resolve_documents, bind_apply, hrun]
      cases result with
      | error error => exact ⟨_, s', _, hwritten, rfl⟩
      | ok _ => exact ⟨_, s', _, hwritten, rfl⟩

theorem compileText_of_parse {notes : List String} (hparse : Program.parse source = .ok program)
    (hdump : options.dumpTree = false) : ∃ result s' notes',
    Written settings (program.written settings.naming) s (result, s') ∧
      (compileText options settings filename source notes : StateM FileStore _) s =
        (ending program.resolve notes' result, s') := by
  unfold compileText
  simp only [Resolved.ofSource_eq, hparse, Except.map, hdump]
  exact finish_apply options settings filename program _ s

/-- The ways in which a compilation ends: refused, or shown, with the files as they were, or with
its documents written as far as they can be. -/
inductive Ends (env : Environment) (options : Options) (s : FileStore) :
    Outcome × FileStore → Prop
  | refused {exit : Exit} {output : String} {notes : List String}
      (hcode : exit.code ∈ [1, 2, 3, 6, 7]) : Ends env options s (⟨exit, output, notes⟩, s)
  | shown {output : String} {notes : List String} (hdump : options.dumpTree = true) :
      Ends env options s (⟨.success, output, notes⟩, s)
  | written {filename : Path} {settings : Settings} {content : ByteArray} {program : Program}
      {result : Except WriteError Unit} {notes : List String} {s' : FileStore}
      (hfile : options.filename? = some filename)
      (hsettings : effective? s.tree env options = some settings)
      (hread : s.tree.read filename = .ok content)
      (hparse : Program.parse (Utf8.decodeLossy content) = .ok program)
      (hdump : options.dumpTree = false)
      (hwritten : Written settings (program.written settings.naming) s (result, s')) :
      Ends env options s (ending program.resolve notes result, s')

theorem compile_ends (env : Environment) (options : Options) (s : FileStore) :
    Ends env options s ((compile env options : StateM FileStore _) s) := by
  cases hfile : options.filename? with
  | none =>
      rw [compile_of_no_filename hfile]
      exact .refused (by decide)
  | some filename =>
      cases hsettings : effective? s.tree env options with
      | none =>
          obtain ⟨notes, hrun⟩ := compile_of_no_settings hfile hsettings
          rw [hrun]
          exact .refused (by decide)
      | some settings =>
          cases hread : s.tree.read filename with
          | error cause =>
              by_cases hcause : cause = .missing
              · obtain ⟨output, notes, hend⟩ := compile_of_missing hfile hsettings (hcause ▸ hread)
                rw [hend]
                exact .refused (by decide)
              · obtain ⟨output, notes, hend⟩ := compile_of_unreadable hfile hsettings hread hcause
                rw [hend]
                exact .refused (by decide)
          | ok content =>
              obtain ⟨notes, hrun⟩ := compile_of_read hfile hsettings hread
              rw [hrun]
              cases hparse : Program.parse (Utf8.decodeLossy content) with
              | error fault =>
                  obtain ⟨output, notes', hend⟩ := compileText_of_fault hparse
                  rw [hend]
                  exact .refused (by decide)
              | ok program =>
                  cases hdump : options.dumpTree with
                  | true =>
                      obtain ⟨output, notes', hend⟩ := compileText_of_dump hparse hdump
                      rw [hend]
                      exact .shown hdump
                  | false =>
                      obtain ⟨result, s', notes', hwritten, hend⟩ :=
                        compileText_of_parse hparse hdump
                      rw [hend]
                      exact .written hfile hsettings hread hparse hdump hwritten

theorem ending_code (program : Resolved) (notes : List String) (result : Except WriteError Unit) :
    (ending program notes result).exit.code = if result.isOk then 0 else 5 := by
  cases result <;> rfl

theorem Ends.code_ne_four {final : Outcome × FileStore} (h : Ends env options s final) :
    final.1.exit.code ≠ 4 := by
  cases h with
  | @refused exit output notes hcode =>
      intro hfour
      have hmem : (4 : Nat) ∈ [1, 2, 3, 6, 7] := hfour ▸ hcode
      contradiction
  | shown => exact (by decide : Exit.success.code ≠ 4)
  | written =>
      rw [ending_code]
      split <;> decide

theorem runOn_of_compile {arguments : List String}
    (hparse : parseArguments? arguments = some (.compile options)) :
    runOn env arguments s = (compile env options : StateM FileStore _) s := by
  simp only [runOn, run, hparse]

/-! ## Only the outputs are touched -/

/-- The documents are written at their places and nothing else is, apart from directories for
them. -/
structure WritesOnly (settings : Settings) (source : String) (s : FileStore) (exit : Exit)
    (s' : FileStore) : Prop where
  code : exit.code = 0 ∨ exit.code = 5
  temporary : s'.staged = s.staged
  kept : ∀ loc, s.tree.entry? loc = some .directory → s'.tree.entry? loc = some .directory
  made : ∀ loc, s'.tree.entry? loc = some .directory → s.tree.entry? loc = some .directory ∨
    ∃ p ∈ settings.outputDir :: settings.outputDir.parents, s'.tree.locate p = .ok loc
  failed : exit.code = 5 → ∀ loc, s'.tree.file? loc ≠ s.tree.file? loc →
    s'.tree.locate settings.headerPath = .ok loc
  succeeded : exit.code = 0 → ∃ c, Compiled.ofSource source settings.naming = .ok c ∧
    ∃ header implementation, Placed settings c.documents s.tree s'.tree header implementation

theorem Written.writesOnly {result : Except WriteError Unit} {notes : List String}
    (hparse : Program.parse source = .ok program)
    (h : Written settings (program.written settings.naming) s (result, s')) :
    WritesOnly settings source s (ending program.resolve notes result).exit s' where
  code := by
    rw [ending_code]
    split <;> simp
  temporary := h.staged_eq
  kept _ := h.keeps.directory
  made _ := h.directory_made
  failed hcode loc hloc := by
    cases result with
    | ok _ => cases hcode
    | error error =>
        rcases h.error_cases with hsame | ⟨-, hheader⟩
        · exact absurd (hsame loc) hloc
        · exact hheader loc hloc
  succeeded hcode := by
    cases result with
    | error error => cases hcode
    | ok _ => exact ⟨_, Compiled.ofSource_of_parse hparse settings.naming, h.placed⟩

/-- How a compilation ends and what it does to the files, step by step: each field is about the
runs that get to its step and not further. -/
structure TouchesOnlyOutputs (env : Environment) (options : Options) (s : FileStore)
    (exit : Exit) (s' : FileStore) : Prop where
  noFilename : options.filename? = none → exit.code = 1 ∧ s' = s
  badSettings : ∀ filename, options.filename? = some filename →
    effective? s.tree env options = none → exit.code = 6 ∧ s' = s
  notFound : ∀ filename settings, options.filename? = some filename →
    effective? s.tree env options = some settings →
    s.tree.read filename = .error .missing → exit.code = 2 ∧ s' = s
  unreadable : ∀ filename settings cause, options.filename? = some filename →
    effective? s.tree env options = some settings →
    s.tree.read filename = .error cause → cause ≠ .missing → exit.code = 7 ∧ s' = s
  badSource : ∀ filename settings content fault, options.filename? = some filename →
    effective? s.tree env options = some settings → s.tree.read filename = .ok content →
    Program.parse (Utf8.decodeLossy content) = .error fault → exit.code = 3 ∧ s' = s
  dumped : ∀ filename settings content program, options.filename? = some filename →
    effective? s.tree env options = some settings → s.tree.read filename = .ok content →
    Program.parse (Utf8.decodeLossy content) = .ok program → options.dumpTree = true →
    exit.code = 0 ∧ s' = s
  written : ∀ filename settings content program, options.filename? = some filename →
    effective? s.tree env options = some settings → s.tree.read filename = .ok content →
    Program.parse (Utf8.decodeLossy content) = .ok program → options.dumpTree = false →
    WritesOnly settings (Utf8.decodeLossy content) s exit s'

/-- A run that is asked to compile goes through its steps in order and touches nothing but its
outputs, and it never ends with an internal error. -/
theorem run_touches_only_outputs (env : Environment) {arguments : List String}
    {options : Options} (s : FileStore)
    (hparse : parseArguments? arguments = some (.compile options)) :
    TouchesOnlyOutputs env options s (runOn env arguments s).1.exit
        (runOn env arguments s).2 ∧
      (runOn env arguments s).1.exit.code ≠ 4 := by
  rw [runOn_of_compile hparse]
  have htouches : TouchesOnlyOutputs env options s
      ((compile env options : StateM FileStore _) s).1.exit
      ((compile env options : StateM FileStore _) s).2 := by
    constructor
    · intro hfile
      rw [compile_of_no_filename hfile]
      exact ⟨rfl, rfl⟩
    · intro filename hfile hsettings
      obtain ⟨notes, hrun⟩ := compile_of_no_settings hfile hsettings
      rw [hrun]
      exact ⟨rfl, rfl⟩
    · intro filename settings hfile hsettings hread
      obtain ⟨output, notes, hend⟩ := compile_of_missing hfile hsettings hread
      rw [hend]
      exact ⟨rfl, rfl⟩
    · intro filename settings cause hfile hsettings hread hcause
      obtain ⟨output, notes, hend⟩ := compile_of_unreadable hfile hsettings hread hcause
      rw [hend]
      exact ⟨rfl, rfl⟩
    · intro filename settings content fault hfile hsettings hread hsource
      obtain ⟨notes, hrun⟩ := compile_of_read hfile hsettings hread
      obtain ⟨output, notes', hend⟩ := compileText_of_fault hsource
      rw [hrun, hend]
      exact ⟨rfl, rfl⟩
    · intro filename settings content program hfile hsettings hread hsource hdump
      obtain ⟨notes, hrun⟩ := compile_of_read hfile hsettings hread
      obtain ⟨output, notes', hend⟩ := compileText_of_dump hsource hdump
      rw [hrun, hend]
      exact ⟨rfl, rfl⟩
    · intro filename settings content program hfile hsettings hread hsource hdump
      obtain ⟨notes, hrun⟩ := compile_of_read hfile hsettings hread
      obtain ⟨result, s', notes', hwritten, hend⟩ := compileText_of_parse hsource hdump
      rw [hrun, hend]
      exact hwritten.writesOnly hsource
  exact ⟨htouches, (compile_ends env options s).code_ne_four⟩

/-- The settings name a directory that the options override; the one that the options name is
made. -/
theorem run_touches_only_outputs_new_directory :
    let arguments := ["--out-dir", "a/b", "m.cff"]
    let options : Options := { filename? := some ⟨"m.cff"⟩, outDir? := some ⟨"a/b"⟩ }
    let env : Environment := ⟨none, fun _ => ""⟩
    let source := "name: M; platform: P;"
    let config : Entry := .file "output_dir: c\nruntime_header: R.h\n".toUTF8
    let s : FileStore := ⟨⟨[(["m.cff"], .file source.toUTF8), (["cffc.yaml"], config)], []⟩, []⟩
    parseArguments? arguments = some (.compile options) ∧
      (runOn env arguments s).1.exit.code = 0 ∧
      TouchesOnlyOutputs env options s (runOn env arguments s).1.exit (runOn env arguments s).2 ∧
      (runOn env arguments s).1.exit.code ≠ 4 ∧
      ∃ c, Compiled.ofSource source ⟨"Machine.h", "R.h"⟩ = .ok c ∧
        (runOn env arguments s).2.tree.read ⟨"a/b/Machine.h"⟩ = .ok c.documents.header.toUTF8 ∧
        (runOn env arguments s).2.tree.read ⟨"a/b/Machine.cpp"⟩ =
          .ok c.documents.implementation.toUTF8 := by
  intro arguments options env source config s
  have hparse : parseArguments? arguments = some (.compile options) := by rfl
  have hcode : (runOn env arguments s).1.exit.code = 0 := by decide +kernel
  obtain ⟨htouches, hfour⟩ := run_touches_only_outputs env s hparse
  have hsettings : effective? s.tree env options =
      some ⟨⟨"a/b"⟩, "Machine.h", "Machine.cpp", "R.h"⟩ := by decide +kernel
  have hread : s.tree.read ⟨"m.cff"⟩ = .ok source.toUTF8 := by rfl
  have htext : Utf8.decodeLossy source.toUTF8 = source := by decide +kernel
  have hprogram : Program.parse (Utf8.decodeLossy source.toUTF8) =
      .ok ⟨.ofName "M", .ofName "P", [], []⟩ := Parser.ok_of_toOption (by decide +kernel)
  have hwrites := htouches.written _ _ _ _ rfl hsettings hread hprogram rfl
  obtain ⟨c, hc, header, implementation, hheader, himplementation, hheaderRead,
    himplementationRead, -⟩ := hwrites.succeeded hcode
  rw [htext] at hc
  have hpath : Settings.headerPath ⟨⟨"a/b"⟩, "Machine.h", "Machine.cpp", "R.h"⟩ =
      ⟨"a/b/Machine.h"⟩ := by decide +kernel
  have hpath' : Settings.implementationPath ⟨⟨"a/b"⟩, "Machine.h", "Machine.cpp", "R.h"⟩ =
      ⟨"a/b/Machine.cpp"⟩ := by decide +kernel
  rw [hpath] at hheader hheaderRead
  rw [hpath'] at himplementation himplementationRead
  have hplaces : header ≠ implementation := by
    have hne : ((runOn env arguments s).2.tree.locate ⟨"a/b/Machine.h"⟩).toOption ≠
        ((runOn env arguments s).2.tree.locate ⟨"a/b/Machine.cpp"⟩).toOption := by decide +kernel
    rintro rfl
    exact hne (congrArg Except.toOption (hheader.trans himplementation.symm))
  exact ⟨hparse, hcode, htouches, hfour, c, hc, hheaderRead hplaces, himplementationRead⟩

/-! ## Both outputs or none -/

/-- The options ask for a compilation under some settings, and this is what it gives. -/
def Compiles (env : Environment) (options : Options) (s : FileStore) (settings : Settings)
    (c : Compiled) : Prop :=
  ∃ filename content, options.filename? = some filename ∧
    effective? s.tree env options = some settings ∧ s.tree.read filename = .ok content ∧
    Compiled.ofSource (Utf8.decodeLossy content) settings.naming = .ok c

/-- The run comes to move both documents, and the implementation cannot be moved when the header
has been. -/
def Interrupted (env : Environment) (arguments : List String) (s : FileStore) : Prop :=
  ∃ options settings c made moved cause, parseArguments? arguments = some (.compile options) ∧
    options.dumpTree = false ∧ Compiles env options s settings c ∧
    StopsBetween settings c.documents s.tree made moved cause

/-- An interrupted run fails. -/
theorem Interrupted.code_eq {arguments : List String} (h : Interrupted env arguments s) :
    (runOn env arguments s).1.exit.code = 5 := by
  obtain ⟨options, settings, c, made, moved, cause, hrequest, hdump,
    ⟨filename, content, hfile, hsettings, hread, hc⟩, hstops⟩ := h
  obtain ⟨program, hparse, rfl⟩ := Compiled.exists_parse hc
  obtain ⟨notes, hrun⟩ := compile_of_read hfile hsettings hread
  obtain ⟨result, s', notes', hwritten, hend⟩ := compileText_of_parse hparse hdump
  rw [runOn_of_compile hrequest, hrun, hend]
  cases result with
  | error error => rfl
  | ok _ => exact absurd hstops hwritten.not_stopsBetween

/-- A run writes both documents and succeeds, or it fails and touches no file. -/
inductive BothOrNone (env : Environment) (arguments : List String) (s : FileStore)
    (outcome : Outcome) (s' : FileStore) : Prop
  | both (hcode : outcome.exit.code = 0)
      (hwritten : ∀ options, parseArguments? arguments = some (.compile options) →
        options.dumpTree = false → ∃ settings c header implementation,
          Compiles env options s settings c ∧
          Placed settings c.documents s.tree s'.tree header implementation)
  | none (hcode : outcome.exit.code ≠ 0) (hsame : ∀ loc, s'.tree.file? loc = s.tree.file? loc)

theorem Ends.bothOrNone {arguments : List String} {final : Outcome × FileStore}
    (hrequest : parseArguments? arguments = some (.compile options))
    (hpasses : ¬ Interrupted env arguments s) (h : Ends env options s final) :
    BothOrNone env arguments s final.1 final.2 := by
  have hsame {options' : Options} (h : parseArguments? arguments = some (.compile options')) :
      options' = options := by
    rw [hrequest] at h
    cases h
    rfl
  cases h with
  | refused hcode =>
      refine .none (fun hzero => ?_) fun _ => rfl
      rw [show _ = 0 from hzero] at hcode
      contradiction
  | shown hdump =>
      refine .both rfl fun options' hoptions hno => ?_
      rw [hsame hoptions, hdump] at hno
      cases hno
  | @written filename settings content program result notes s' hfile hsettings hread hparse hdump
      hwritten =>
      have hcompiles : Compiles env options s settings _ :=
        ⟨filename, content, hfile, hsettings, hread,
          Compiled.ofSource_of_parse hparse settings.naming⟩
      cases result with
      | ok _ =>
          obtain ⟨header, implementation, hplaced⟩ := hwritten.placed
          refine .both rfl fun options' hoptions _ => ?_
          rw [hsame hoptions]
          exact ⟨settings, _, header, implementation, hcompiles, hplaced⟩
      | error error =>
          rcases hwritten.error_cases with huntouched | ⟨⟨made, cause, hstops⟩, -⟩
          · exact .none (by decide : Exit.notWritten.code ≠ 0) huntouched
          · exact absurd ⟨_, _, _, made, _, cause, hrequest, hdump, hcompiles, hstops⟩ hpasses

theorem Ends.staged_eq {final : Outcome × FileStore} (h : Ends env options s final) :
    final.2.staged = s.staged := by
  cases h with
  | refused => rfl
  | shown => rfl
  | written _ _ _ _ _ hwritten => exact hwritten.staged_eq

/-- A run leaves no temporary file. If it is not interrupted between the two moves, it writes both
documents or touches no file. -/
theorem run_writes_both_or_none (env : Environment) (arguments : List String) (s : FileStore) :
    (runOn env arguments s).2.staged = s.staged ∧ (¬ Interrupted env arguments s →
      BothOrNone env arguments s (runOn env arguments s).1 (runOn env arguments s).2) := by
  cases hrequest : parseArguments? arguments with
  | none =>
      have hrun : runOn env arguments s = (⟨.badArguments, "", []⟩, s) := by
        simp only [runOn, run, hrequest, pure_apply]
      rw [hrun]
      exact ⟨rfl, fun _ => .none (by decide : Exit.badArguments.code ≠ 0) fun _ => rfl⟩
  | some request =>
      cases request with
      | version =>
          have hrun : runOn env arguments s = (⟨.success, versionText, []⟩, s) := by
            simp only [runOn, run, hrequest, pure_apply]
          rw [hrun]
          exact ⟨rfl, fun _ => .both rfl fun options hoptions => by simp [hrequest] at hoptions⟩
      | help =>
          have hrun : runOn env arguments s = (⟨.success, helpText, []⟩, s) := by
            simp only [runOn, run, hrequest, pure_apply]
          rw [hrun]
          exact ⟨rfl, fun _ => .both rfl fun options hoptions => by simp [hrequest] at hoptions⟩
      | compile options =>
          have hends := compile_ends env options s
          rw [runOn_of_compile hrequest]
          exact ⟨hends.staged_eq, fun hpasses => hends.bothOrNone hrequest hpasses⟩

-- a directory in the place of the implementation stops the run when the header has been moved
example :
    let env : Environment := ⟨none, fun _ => ""⟩
    let s : FileStore := ⟨⟨[(["m.cff"], .file "name: M; platform: P;".toUTF8),
      (["Machine.cpp"], .directory)], []⟩, []⟩
    (runOn env ["m.cff"] s).1.exit.code = 5 ∧
      (runOn env ["m.cff"] s).2.tree.file? ["Machine.h"] ≠ s.tree.file? ["Machine.h"] := by
  decide +kernel

/-- A directory with nothing but the source in it. -/
theorem run_writes_both_or_none_source :
    let env : Environment := ⟨none, fun _ => ""⟩
    let s : FileStore := ⟨⟨[(["m.cff"], .file "name: M; platform: P;".toUTF8)], []⟩, []⟩
    ¬ Interrupted env ["m.cff"] s ∧
      BothOrNone env ["m.cff"] s (runOn env ["m.cff"] s).1 (runOn env ["m.cff"] s).2 := by
  intro env s
  have hpasses : ¬ Interrupted env ["m.cff"] s := by
    intro h
    have hcode : (runOn env ["m.cff"] s).1.exit.code ≠ 5 := by decide +kernel
    exact hcode h.code_eq
  exact ⟨hpasses, (run_writes_both_or_none env ["m.cff"] s).2 hpasses⟩

/-- Under one name for both documents a run succeeds without a header. -/
theorem run_not_both_or_none :
    let env : Environment := ⟨none, fun _ => ""⟩
    let names : Entry := .file "header_file: M\nimplementation_file: M\n".toUTF8
    let s : FileStore := ⟨⟨[(["m.cff"], .file "name: M; platform: P;".toUTF8),
      (["cffc.yaml"], names)], []⟩, []⟩
    (runOn env ["m.cff"] s).1.exit.code = 0 ∧
      (runOn env ["m.cff"] s).2.tree.entry? ["M"] ≠
        (Compiled.ofSource "name: M; platform: P;" ⟨"M", "RunTime.h"⟩).toOption.map
          fun c => .file c.documents.header.toUTF8 := by
  decide +kernel

end Command

end StateLang
