import StateLang.Document.Basic
import StateLang.Program.Parser

/-!
# Compiling a source

A source is scanned, read, resolved and written as documents. Each step leaves
an event; the events of a failed compilation end at the step that failed.
-/

namespace StateLang

inductive Level
  | debug
  | warn
  deriving DecidableEq, Repr

/-- What a step of a compilation reports. -/
inductive Event
  | scanned (tokens unknown : Nat)
  | parsed (name : String) (declarations states : Nat)
  | warned (name : String) (warning : Warning)
  | resolved (name : String) (counts : Counts)
  | generated (name : String) (headerBytes implementationBytes : Nat)
  deriving DecidableEq, Repr

namespace Event

def level : Event → Level
  | warned _ _ => .warn
  | _ => .debug

def message : Event → String
  | scanned tokens unknown =>
      "scanned " ++ toString tokens ++ " tokens (" ++ toString unknown ++ " lexical errors)"
  | parsed name declarations states =>
      "parsed program `" ++ name ++ "`: " ++ toString declarations ++ " declarations, " ++
        toString states ++ " states"
  | warned name warning => name ++ ": " ++ warning.message
  | resolved name counts =>
      "resolved `" ++ name ++ "`: " ++ toString counts.declarations ++ " decls, " ++
        toString counts.states ++ " states, " ++ toString counts.variableUses ++ " variable uses"
  | generated name headerBytes implementationBytes =>
      "generated `" ++ name ++ "`: header " ++ toString headerBytes ++ " bytes, implementation " ++
        toString implementationBytes ++ " bytes"

end Event

/-- A resolved program with its documents. -/
structure Compiled where
  program : Resolved
  documents : Documents
  deriving DecidableEq, Repr

/-- Read and resolve a source. -/
def Resolved.ofSource (source : String) : Except Fault Resolved := do
  let program ← Program.parse source
  pure program.resolve

/-- Read, resolve and write a source. -/
def Compiled.ofSource (source : String) (naming : Naming) : Except Fault Compiled := do
  let program ← Resolved.ofSource source
  let documents ← program.documents naming
  pure ⟨program, documents⟩

namespace Compilation

def scanEvent (tokens : List Token) : Event :=
  .scanned tokens.length (tokens.countP (·.kind = .unknown))

def parseEvent (p : Program) : Event := .parsed p.name.name p.declarations.length p.states.length

def resolveEvents (r : Resolved) : List Event :=
  r.warnings.map (.warned r.name.name) ++ [.resolved r.name.name r.counts]

def generateEvent (r : Resolved) (documents : Documents) : Event :=
  .generated r.name.name documents.header.utf8ByteSize documents.implementation.utf8ByteSize

/-- The events of reading and resolving a source. -/
def readEvents (source : String) : List Event :=
  let tokens := Token.scan source
  scanEvent tokens ::
    match Parser.read Parser.program tokens with
    | .error _ => []
    | .ok program => parseEvent program :: resolveEvents program.resolve

/-- The event of writing the documents of a source, if they are written. -/
def writeEvents (source : String) (naming : Naming) : List Event :=
  match Compiled.ofSource source naming with
  | .error _ => []
  | .ok compiled => [generateEvent compiled.program compiled.documents]

/-- The events of a compilation, in order. -/
def events (source : String) (naming : Naming) : List Event :=
  readEvents source ++ writeEvents source naming

end Compilation

end StateLang
