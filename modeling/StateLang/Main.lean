import StateLang.Command.Run

/-!
# The command

Runs the command on the files of the machine it runs on.
-/

namespace StateLang.Main

/-- The library's name for a failure of the operating system. -/
def fileError (error : IO.Error) : FileError :=
  match error with
  | .noFileOrDirectory _ _ _ => .missing
  | .alreadyExists _ _ _ => .alreadyExists
  | .inappropriateType _ code _ => if code = 21 then .isDirectory else .notDirectory
  | _ => .other (toString error)

def attempt {α : Type} (action : IO α) : IO (Except FileError α) := do
  try
    let a ← action
    pure (.ok a)
  catch error => pure (.error (fileError error))

/-- Where a temporary file lies. -/
def stagedPath (file : Staged) : String :=
  (file.directory.join ⟨".tmp" ++ toString file.serial⟩).text

/-- Make a temporary file of a name that is free. -/
def stage (directory : Path) (content : ByteArray) : Nat → IO Staged
  | 0 => throw (IO.userError "no free name for a temporary file")
  | attempts + 1 => do
      let serial ← IO.rand 100000 999999
      let file : Staged := ⟨directory, serial⟩
      let opened ← attempt (IO.FS.Handle.mk (stagedPath file) .writeNew)
      match opened with
      | .ok handle =>
          handle.write content
          handle.flush
          pure file
      | .error .alreadyExists => stage directory content attempts
      | .error error => throw (IO.userError error.message)

def isFile (path : Path) : IO Bool := do
  try
    let real ← IO.FS.realPath path.text
    let metadata ← real.metadata
    pure (metadata.type == .file)
  catch _ => pure false

instance : FileSystem IO where
  read path := attempt (IO.FS.readBinFile path.text)
  isFile := isFile
  createDirAll path :=
    if path.text.isEmpty then pure (.ok ()) else attempt (IO.FS.createDirAll path.text)
  stage directory content := attempt (stage directory content 100)
  install file target := attempt (IO.FS.rename (stagedPath file) target.text)
  discard file := do
    let _ ← attempt (IO.FS.removeFile (stagedPath file))

/-- The YAML reader here only says that a text is wrong. -/
def yamlCause (_ : String) : String := "malformed document"

end StateLang.Main

def main (arguments : List String) : IO UInt32 := do
  let home? ← IO.getEnv "HOME"
  let env : StateLang.Environment := ⟨home?.map StateLang.Path.mk, StateLang.Main.yamlCause⟩
  let outcome ← StateLang.Command.run env arguments
  for note in outcome.notes do
    IO.eprintln note
  IO.print outcome.output
  pure (UInt32.ofNat outcome.exit.code)
