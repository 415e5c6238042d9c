import StateLang.Command.Arguments
import StateLang.Compilation
import StateLang.Json.Tree
import StateLang.Settings
import StateLang.Text.Utf8

/-!
# Running the command

The command reads a source, compiles it and writes both documents. They are
staged beside their places first and moved into place only when both are
complete. Each way to fail has an exit code of its own.
-/

namespace StateLang.Command

/-- The exit codes. -/
inductive Exit
  | success
  | noFilename
  | badArguments
  | notFound
  | badSource
  | internal
  | notWritten
  | badSettings
  | unreadable
  deriving DecidableEq, Repr

/-- A file that is not there and arguments that are wrong share a code. -/
def Exit.code : Exit → Nat
  | success => 0
  | noFilename => 1
  | badArguments => 2
  | notFound => 2
  | badSource => 3
  | internal => 4
  | notWritten => 5
  | badSettings => 6
  | unreadable => 7

structure Outcome where
  exit : Exit
  /-- What is printed. -/
  output : String
  /-- Lines for the log. -/
  notes : List String
  deriving DecidableEq, Repr

def versionText : String := "cffc 0.1.0\n"

def usageText : String := "Usage: cffc <filename>\n"

def helpText : String :=
  "Compile your CFF program\n\n" ++
  "Usage: cffc [OPTIONS] [FILENAME]\n\n" ++
  "Arguments:\n" ++
  "  [FILENAME]  CFF source file\n\n" ++
  "Options:\n" ++
  "      --out-dir <OUT_DIR>  Directory for the generated files (overrides the config)\n" ++
  "      --config <CONFIG>    Config file (default: ./cffc.yaml, then ~/.cffc/config.yaml)\n" ++
  "      --dump-ast           Print the resolved program as JSON instead of writing files\n" ++
  "  -v, --verbose            Log every compiler phase\n" ++
  "  -h, --help               Print help\n" ++
  "  -V, --version            Print version\n"

/-- What is printed of a program whose documents are written. -/
def reportText (r : Resolved) : String :=
  r.name.name ++ ": " ++ toString r.counts.declarations ++ " declarations, " ++
    toString r.counts.states ++ " states, " ++ toString r.counts.variableUses ++ " variable uses\n"

/-- The lines that a compilation logs; only a verbose one tells more than warnings. -/
def logLines (verbose : Bool) (events : List Event) : List String :=
  (events.filter fun event => verbose || event.level = .warn).map (·.message)

/-- A line that only a verbose run logs. -/
def detailLine (options : Options) (line : String) : List String :=
  if options.verbose then [line] else []

/-- What could not be done, and why. -/
structure WriteError where
  action : String
  cause : FileError
  deriving DecidableEq, Repr

def WriteError.message (e : WriteError) : String := e.action ++ ": " ++ e.cause.message

section

variable {m : Type → Type} [Monad m] [FileSystem m]

/-- Move both staged documents into place. What fails to move is discarded. -/
def installBoth (settings : Settings) (header implementation : Staged) :
    m (Except WriteError Unit) := do
  let headerPath := settings.headerPath
  let implementationPath := settings.implementationPath
  match ← FileSystem.install header headerPath with
  | .error cause =>
      FileSystem.discard header
      FileSystem.discard implementation
      pure (.error ⟨"Writing " ++ headerPath.text, cause⟩)
  | .ok _ =>
      match ← FileSystem.install implementation implementationPath with
      | .error cause =>
          FileSystem.discard implementation
          pure (.error ⟨"Writing " ++ implementationPath.text ++ " (" ++ headerPath.text ++
            " was already replaced)", cause⟩)
      | .ok _ => pure (.ok ())

/-- Write both documents, making the output directory first. -/
def writeDocuments (settings : Settings) (documents : Documents) : m (Except WriteError Unit) := do
  let headerPath := settings.headerPath
  let implementationPath := settings.implementationPath
  match ← FileSystem.createDirAll settings.outputDir with
  | .error cause => pure (.error ⟨"Creating " ++ settings.outputDir.text, cause⟩)
  | .ok _ =>
      match ← FileSystem.stage headerPath.directory documents.header.toUTF8 with
      | .error cause => pure (.error ⟨"Writing " ++ headerPath.text, cause⟩)
      | .ok header =>
          match ← FileSystem.stage implementationPath.directory
              documents.implementation.toUTF8 with
          | .error cause =>
              FileSystem.discard header
              pure (.error ⟨"Writing " ++ implementationPath.text, cause⟩)
          | .ok implementation => installBoth settings header implementation

/-- Write the documents of a program and report. -/
def finish (options : Options) (settings : Settings) (filename : Path) (program : Resolved)
    (notes : List String) : m Outcome := do
  match program.documents settings.naming with
  | .error fault =>
      pure ⟨.internal,
        "Internal compiler error, failed to generate code.\n" ++ fault.message ++ "\n", notes⟩
  | .ok documents =>
      let notes := notes ++ logLines options.verbose [Compilation.generateEvent program documents]
      match ← writeDocuments settings documents with
      | .error error => pure ⟨.notWritten, "", notes ++ [error.message]⟩
      | .ok _ => pure ⟨.success, reportText program, notes ++
          detailLine options ("compiled " ++ filename.text ++ " into " ++
            settings.headerPath.text ++ " and " ++ settings.implementationPath.text)⟩

/-- Compile the text of a file. -/
def compileText (options : Options) (settings : Settings) (filename : Path) (source : String)
    (notes : List String) : m Outcome := do
  let notes := notes ++ logLines options.verbose (Compilation.readEvents source)
  match Resolved.ofSource source with
  | .error (.internal detail) =>
      pure ⟨.internal, "Internal compiler error: " ++ (Fault.internal detail).message ++ "\n", notes⟩
  | .error fault =>
      pure ⟨.badSource, "Syntax errors in CFF program: \n" ++ fault.message ++ "\n", notes⟩
  | .ok program =>
      if options.dumpTree then pure ⟨.success, program.toJson.pretty ++ "\n", notes⟩
      else finish options settings filename program notes

/-- Compile a file under given settings. Bytes that are no text are replaced, with a warning. -/
def compileFile (options : Options) (settings : Settings) (filename : Path)
    (notes : List String) : m Outcome := do
  match ← FileSystem.read filename with
  | .error .missing =>
      pure ⟨.notFound, "File \"" ++ filename.text ++ "\" not found.\n", notes⟩
  | .error cause =>
      pure ⟨.unreadable, "Cannot read file \"" ++ filename.text ++ "\": " ++ cause.message ++ "\n",
        notes⟩
  | .ok content =>
      let isText := (String.fromUTF8? content).isSome
      compileText options settings filename (Utf8.decodeLossy content)
        (if isText then notes else notes ++ [filename.text ++ " is not valid UTF-8"])

/-- The settings asked for or else those found, and what to log of the search. -/
def chooseSettings (env : Environment) (options : Options) :
    m (Except SettingsError (Settings × List String)) := do
  match options.config? with
  | some path =>
      match ← Settings.load env path with
      | .error error => pure (.error error)
      | .ok settings => pure (.ok (settings, []))
  | none =>
      let found ← Settings.discover env
      let ignored := found.ignored.map fun error => "ignoring " ++ error.message
      let used := found.used?.toList.flatMap fun path =>
        detailLine options ("using config " ++ path.text)
      pure (.ok (found.settings, ignored ++ used))

/-- The settings with the output directory that the options name. -/
def applyOptions (options : Options) (settings : Settings) : Settings :=
  match options.outDir? with
  | some dir => { settings with outputDir := dir }
  | none => settings

/-- Compile as the options say. -/
def compile (env : Environment) (options : Options) : m Outcome := do
  match options.filename? with
  | none => pure ⟨.noFilename, usageText, []⟩
  | some filename =>
      match ← chooseSettings env options with
      | .error error => pure ⟨.badSettings, "", [error.message]⟩
      | .ok (settings, notes) =>
          compileFile options (applyOptions options settings) filename notes

/-- Run the command with its arguments. -/
def run (env : Environment) (arguments : List String) : m Outcome := do
  match parseArguments? arguments with
  | none => pure ⟨.badArguments, "", []⟩
  | some .version => pure ⟨.success, versionText, []⟩
  | some .help => pure ⟨.success, helpText, []⟩
  | some (.compile options) => compile env options

end

end StateLang.Command
