import StateLang.Files.Path

/-!
# Command-line arguments

Arguments are taken from left to right. The first that is wrong makes the whole
command wrong; a call for the version or for help is answered where it stands,
whatever follows. A name after two dashes may carry its value behind an equals
sign; otherwise the value is the next argument, which must not look like an
option. No option is given twice and no value is empty. After a lone `--` all
arguments are file names.
-/

namespace StateLang.Command

structure Options where
  filename? : Option Path := none
  outDir? : Option Path := none
  config? : Option Path := none
  dumpTree : Bool := false
  verbose : Bool := false
  deriving DecidableEq, Repr

/-- What the arguments ask for. -/
inductive Request
  | compile (options : Options)
  | version
  | help
  deriving DecidableEq, Repr

/-- The options that take a value. -/
inductive ValueOption
  | outDir
  | config
  deriving DecidableEq, Repr

/-- The options that take none. -/
inductive Flag
  | dumpTree
  | verbose
  | version
  | help
  deriving DecidableEq, Repr

def ValueOption.ofName? : String → Option ValueOption
  | "out-dir" => some .outDir
  | "config" => some .config
  | _ => none

def Flag.ofName? : String → Option Flag
  | "dump-ast" => some .dumpTree
  | "verbose" => some .verbose
  | "version" => some .version
  | "help" => some .help
  | _ => none

def Flag.ofLetter? : Char → Option Flag
  | 'v' => some .verbose
  | 'V' => some .version
  | 'h' => some .help
  | _ => none

namespace Options

/-- Fill a place that must be empty with a text that must not be. -/
def fill? (place : Option Path) (text : String) : Option Path :=
  if place.isSome || text.isEmpty then none else some ⟨text⟩

def setFilename? (o : Options) (text : String) : Option Options := do
  let path ← fill? o.filename? text
  pure { o with filename? := some path }

def setValue? (o : Options) (option : ValueOption) (text : String) : Option Options :=
  match option with
  | .outDir => do
      let path ← fill? o.outDir? text
      pure { o with outDir? := some path }
  | .config => do
      let path ← fill? o.config? text
      pure { o with config? := some path }

/-- Give a flag: the options with it, or what it asks for. -/
def giveFlag? (o : Options) : Flag → Option (Options ⊕ Request)
  | .dumpTree => if o.dumpTree then none else some (.inl { o with dumpTree := true })
  | .verbose => if o.verbose then none else some (.inl { o with verbose := true })
  | .version => some (.inr .version)
  | .help => some (.inr .help)

/-- Give flags by their letters. -/
def giveLetters? (o : Options) : List Char → Option (Options ⊕ Request)
  | [] => some (.inl o)
  | letter :: rest => do
      let flag ← Flag.ofLetter? letter
      match ← o.giveFlag? flag with
      | .inl o => o.giveLetters? rest
      | .inr request => pure (.inr request)

end Options

/-- The shapes of an argument. -/
inductive Argument
  /-- Two dashes alone. -/
  | separator
  /-- Two dashes and a name, and what follows an equals sign. -/
  | long (name : String) (value? : Option String)
  /-- One dash and letters. -/
  | short (letters : List Char)
  /-- Anything else, a lone dash included. -/
  | plain (text : String)
  deriving DecidableEq, Repr

def Argument.ofText (text : String) : Argument :=
  match text.toList with
  | ['-', '-'] => .separator
  | '-' :: '-' :: rest =>
      let name := rest.takeWhile (· ≠ '=')
      match rest.drop name.length with
      | [] => .long (String.ofList name) none
      | _ :: value => .long (String.ofList name) (some (String.ofList value))
  | ['-'] => .plain text
  | '-' :: letters => .short letters
  | _ => .plain text

/-- Take the arguments after a lone `--`. -/
def takeFilenames? (o : Options) : List String → Option Request
  | [] => some (.compile o)
  | text :: rest => do
      let o ← o.setFilename? text
      takeFilenames? o rest

/-- Take arguments; `waiting?` is an option whose value comes next. -/
def takeArguments? (waiting? : Option ValueOption) (o : Options) : List String → Option Request
  | [] => if waiting?.isSome then none else some (.compile o)
  | text :: rest =>
      match waiting?, Argument.ofText text with
      | some option, .plain value => do
          let o ← o.setValue? option value
          takeArguments? none o rest
      | some _, _ => none
      | none, .plain filename => do
          let o ← o.setFilename? filename
          takeArguments? none o rest
      | none, .separator => takeFilenames? o rest
      | none, .short letters => do
          match ← o.giveLetters? letters with
          | .inl o => takeArguments? none o rest
          | .inr request => pure request
      | none, .long name value? =>
          match ValueOption.ofName? name, Flag.ofName? name, value? with
          | some option, _, some value => do
              let o ← o.setValue? option value
              takeArguments? none o rest
          | some option, _, none => takeArguments? (some option) o rest
          | none, some flag, none => do
              match ← o.giveFlag? flag with
              | .inl o => takeArguments? none o rest
              | .inr request => pure request
          | none, _, _ => none

/-- What arguments ask for, unless one of them is wrong. -/
def parseArguments? (arguments : List String) : Option Request := takeArguments? none {} arguments

end StateLang.Command
