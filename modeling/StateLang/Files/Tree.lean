import StateLang.Files.Path

/-!
# File trees

A tree of files and directories, with a working directory. A path is followed
name by name, and each name but the last must lead to a directory. A path that
ends in a slash denotes a directory or nothing.
-/

namespace StateLang

/-- Why a file operation fails. -/
inductive FileError
  | missing
  | alreadyExists
  | notDirectory
  | isDirectory
  | nameTooLong
  | nulByte
  | other (text : String)
  deriving DecidableEq, Repr

def FileError.message : FileError → String
  | missing => "No such file or directory (os error 2)"
  | alreadyExists => "File exists (os error 17)"
  | notDirectory => "Not a directory (os error 20)"
  | isDirectory => "Is a directory (os error 21)"
  | nameTooLong => "File name too long (os error 36)"
  | nulByte => "file name contained an unexpected NUL byte"
  | other text => text

/-- The names from the root to a place in the tree. -/
abbrev Location := List String

inductive Entry
  | file (content : ByteArray)
  | directory

namespace Entry

theorem file_eq_iff (a b : ByteArray) : a.data.toList = b.data.toList ↔ file a = file b := by
  constructor
  · intro h
    cases a
    cases b
    simpa using h
  · intro h
    cases h
    rfl

instance : DecidableEq Entry
  | file a, file b => decidable_of_iff _ (file_eq_iff a b)
  | file _, directory => isFalse nofun
  | directory, file _ => isFalse nofun
  | directory, directory => isTrue rfl

end Entry

structure FileTree where
  entries : List (Location × Entry)
  workingDirectory : Location

namespace FileTree

/-- What stands at a location; the root is always a directory. -/
def entry? (t : FileTree) (loc : Location) : Option Entry :=
  if loc = [] then some .directory else t.entries.lookup loc

/-- The tree with `entry` at a location. -/
def put (t : FileTree) (loc : Location) (entry : Entry) : FileTree :=
  { t with entries := (loc, entry) :: t.entries.filter (fun e => e.1 ≠ loc) }

/-- The longest name, in bytes. -/
def maxNameBytes : Nat := 255

/-- The longest path, in bytes. -/
def maxPathBytes : Nat := 4095

/-- Check that a path can be asked for at all. -/
def checkText (p : Path) : Except FileError Unit :=
  if p.text.isEmpty then .error .missing
  else if '\x00' ∈ p.text.toList then .error .nulByte
  else if maxPathBytes < p.text.utf8ByteSize then .error .nameTooLong
  else .ok ()

/-- Fail unless a directory stands at a location. -/
def requireDirectory (t : FileTree) (loc : Location) : Except FileError Unit :=
  match t.entry? loc with
  | some .directory => .ok ()
  | some (.file _) => .error .notDirectory
  | none => .error .missing

/-- Follow names from a location to something that exists. -/
def walk (t : FileTree) (loc : Location) : List String → Except FileError Location
  | [] => .ok loc
  | name :: rest => do
      t.requireDirectory loc
      if name = "." then t.walk loc rest
      else if name = ".." then t.walk loc.dropLast rest
      else if maxNameBytes < name.utf8ByteSize then .error .nameTooLong
      else
        let child := loc ++ [name]
        match t.entry? child with
        | none => .error .missing
        | some _ => t.walk child rest

/-- Where following a path starts. -/
def origin (t : FileTree) (p : Path) : Location :=
  if p.isAbsolute then [] else t.workingDirectory

/-- The location that a path leads to. -/
def locate (t : FileTree) (p : Path) : Except FileError Location := do
  checkText p
  let loc ← t.walk (t.origin p) p.names
  if p.endsInSlash then t.requireDirectory loc
  pure loc

/-- The location that a path would give a new entry; its directory must exist. -/
def place (t : FileTree) (p : Path) : Except FileError Location := do
  checkText p
  match p.names.getLast? with
  | none => .error .alreadyExists
  | some name =>
      let dir ← t.walk (t.origin p) p.names.dropLast
      t.requireDirectory dir
      if name = "." || name = ".." then .error .alreadyExists
      else if maxNameBytes < name.utf8ByteSize then .error .nameTooLong
      else pure (dir ++ [name])

/-- The content of a file. -/
def read (t : FileTree) (p : Path) : Except FileError ByteArray := do
  let loc ← t.locate p
  match t.entry? loc with
  | some (.file content) => pure content
  | some .directory => .error .isDirectory
  | none => .error .missing

def isFile (t : FileTree) (p : Path) : Bool :=
  match t.read p with
  | .ok _ => true
  | .error _ => false

def isDirectory (t : FileTree) (p : Path) : Bool :=
  match t.locate p with
  | .ok loc => t.entry? loc = some .directory
  | .error _ => false

/-- Make one directory. -/
def createDir (t : FileTree) (p : Path) : Except FileError FileTree := do
  let loc ← t.place p
  match t.entry? loc with
  | some _ => .error .alreadyExists
  | none => pure (t.put loc .directory)

/-- Make directories in turn, those that are there apart. The tree keeps what was made before a
failure. -/
def createDirs (t : FileTree) : List Path → Except FileError Unit × FileTree
  | [] => (.ok (), t)
  | p :: rest =>
      match t.createDir p with
      | .ok t => t.createDirs rest
      | .error error => if t.isDirectory p then t.createDirs rest else (.error error, t)

/-- Make the nearest directory that can be made of a path and its parents, then those in `inner`
below it. -/
def createFrom (t : FileTree) (inner : List Path) : List Path → Except FileError Unit × FileTree
  | [] => t.createDirs inner
  | p :: outer =>
      match t.createDir p with
      | .ok t => t.createDirs inner
      | .error .missing => t.createFrom (p :: inner) outer
      | .error error => if t.isDirectory p then t.createDirs inner else (.error error, t)

/-- Make a directory and the parents that it lacks. -/
def createDirAll (t : FileTree) (p : Path) : Except FileError Unit × FileTree :=
  if p.text.isEmpty then (.ok (), t) else t.createFrom [] (p :: p.parents)

/-- Put a file in place, over a file that stands there. -/
def install (t : FileTree) (p : Path) (content : ByteArray) : Except FileError FileTree := do
  let loc ← t.place p
  if p.endsInSlash then .error .notDirectory
  else
    match t.entry? loc with
    | some .directory => .error .isDirectory
    | _ => pure (t.put loc (.file content))

end FileTree

end StateLang
