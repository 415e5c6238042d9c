import StateLang.Document.Naming
import StateLang.Files.System
import StateLang.Yaml.Node

/-!
# Settings

Settings say where and under which names the documents are written. They come
from a mapping of texts; a field that it lacks has its default, and keys that
mean nothing here are passed over. An empty document sets nothing.
-/

namespace StateLang

structure Settings where
  outputDir : Path := ⟨"."⟩
  headerFile : String := "Machine.h"
  implementationFile : String := "Machine.cpp"
  runtimeHeader : String := "RunTime.h"
  deriving DecidableEq, Repr

namespace Settings

def naming (s : Settings) : Naming := ⟨s.headerFile, s.runtimeHeader⟩

/-- Where the header goes. -/
def headerPath (s : Settings) : Path := s.outputDir.join ⟨s.headerFile⟩

/-- Where the implementation goes. -/
def implementationPath (s : Settings) : Path := s.outputDir.join ⟨s.implementationFile⟩

/-- The fields that a file can set. -/
inductive Field
  | outputDir
  | headerFile
  | implementationFile
  | runtimeHeader
  deriving DecidableEq, Repr

def Field.ofName? : String → Option Field
  | "output_dir" => some .outputDir
  | "header_file" => some .headerFile
  | "implementation_file" => some .implementationFile
  | "runtime_header" => some .runtimeHeader
  | _ => none

def set (s : Settings) (field : Field) (value : String) : Settings :=
  match field with
  | .outputDir => { s with outputDir := ⟨value⟩ }
  | .headerFile => { s with headerFile := value }
  | .implementationFile => { s with implementationFile := value }
  | .runtimeHeader => { s with runtimeHeader := value }

/-- Set fields from pairs. A key must be a text; a field is set at most once, and to a text.
`seen` are the fields set before. -/
def setAll? (s : Settings) (seen : List Field) : List (Yaml.Node × Yaml.Node) → Option Settings
  | [] => some s
  | (key, value) :: rest => do
      let name ← key.text?
      match Field.ofName? name with
      | none => s.setAll? seen rest
      | some field =>
          if field ∈ seen then none
          else
            let text ← value.text?
            (s.set field text).setAll? (field :: seen) rest

def ofNode? : Option Yaml.Node → Option Settings
  | none => some {}
  | some (.scalar text) => if text.isEmpty then some {} else none
  | some (.mapping pairs) => setAll? {} [] pairs
  | some _ => none

/-- The settings of a text, if it is a well-formed document of the right shape. -/
def parse? (text : String) : Option Settings := do
  let root ← Yaml.Node.parse? text
  ofNode? root

end Settings

/-- What a run finds around it, the files apart. -/
structure Environment where
  /-- The home directory, if there is one. -/
  home? : Option Path
  /-- The words of the YAML reader for what is wrong with a text. -/
  yamlCause : String → String

/-- Why settings cannot be had from a file. -/
inductive SettingsError
  | unreadable (path : Path) (cause : FileError)
  | notText (path : Path)
  | malformed (path : Path) (cause : String)
  deriving DecidableEq, Repr

def SettingsError.message : SettingsError → String
  | unreadable path cause => "cannot read " ++ path.text ++ ": " ++ cause.message
  | notText path => "cannot read " ++ path.text ++ ": stream did not contain valid UTF-8"
  | malformed path cause => "invalid config " ++ path.text ++ ": " ++ cause

namespace Settings

variable (env : Environment)

/-- The settings of a file's content. -/
def ofContent (path : Path) (content : ByteArray) : Except SettingsError Settings :=
  match String.fromUTF8? content with
  | none => .error (.notText path)
  | some text =>
      match parse? text with
      | none => .error (.malformed path (env.yamlCause text))
      | some settings => .ok settings

/-- The settings of a file. -/
def load {m : Type → Type} [Monad m] [FileSystem m] (path : Path) :
    m (Except SettingsError Settings) := do
  match ← FileSystem.read path with
  | .error cause => pure (.error (.unreadable path cause))
  | .ok content => pure (ofContent env path content)

/-- What a search for settings gives: the file that was used, if any, and the files that were
there but gave none. -/
structure Found where
  settings : Settings
  used? : Option Path
  ignored : List SettingsError
  deriving DecidableEq, Repr

/-- Try files in turn. The first that can be used is; without one the defaults are. -/
def search {m : Type → Type} [Monad m] [FileSystem m] (ignored : List SettingsError) :
    List Path → m Found
  | [] => pure ⟨{}, none, ignored⟩
  | path :: rest => do
      let isFile ← FileSystem.isFile path
      if isFile then
        match ← load env path with
        | .ok settings => pure ⟨settings, some path, ignored⟩
        | .error error => search (ignored ++ [error]) rest
      else search ignored rest

/-- The files in which settings are looked for: in the working directory, then in the home
directory. -/
def candidates (home? : Option Path) : List Path :=
  ⟨"cffc.yaml"⟩ :: match home? with
    | none => []
    | some home => [(home.join ⟨".cffc"⟩).join ⟨"config.yaml"⟩]

def discover {m : Type → Type} [Monad m] [FileSystem m] : m Found :=
  search env [] (candidates env.home?)

end Settings

end StateLang
