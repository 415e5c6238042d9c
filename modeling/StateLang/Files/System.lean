import StateLang.Files.Tree

/-!
# File systems

What a command asks of a file system. A file is replaced in two steps: its new
content is staged in a temporary file beside it, and the temporary file is then
moved into place or discarded. A `FileStore` answers from a tree and keeps the
temporary files apart, so that none can collide with a named file.
-/

namespace StateLang

/-- A temporary file. -/
structure Staged where
  directory : Path
  serial : Nat
  deriving DecidableEq, Repr

class FileSystem (m : Type → Type) where
  read : Path → m (Except FileError ByteArray)
  isFile : Path → m Bool
  createDirAll : Path → m (Except FileError Unit)
  /-- Write a temporary file in a directory. -/
  stage : Path → ByteArray → m (Except FileError Staged)
  /-- Move a temporary file to a path; on failure it stays where it is. -/
  install : Staged → Path → m (Except FileError Unit)
  discard : Staged → m Unit

structure FileStore where
  tree : FileTree
  /-- The temporary files and their contents. -/
  staged : List (Staged × ByteArray)

namespace FileStore

/-- A number that no temporary file has. -/
def nextSerial (s : FileStore) : Nat := s.staged.foldl (fun n entry => max n (entry.1.serial + 1)) 0

def stage (directory : Path) (content : ByteArray) (s : FileStore) :
    Except FileError Staged × FileStore :=
  match s.tree.locate directory with
  | .error error => (.error error, s)
  | .ok loc =>
      match s.tree.requireDirectory loc with
      | .error error => (.error error, s)
      | .ok _ =>
          let file : Staged := ⟨directory, s.nextSerial⟩
          (.ok file, { s with staged := (file, content) :: s.staged })

def discard (file : Staged) (s : FileStore) : FileStore :=
  { s with staged := s.staged.filter (fun entry => entry.1 ≠ file) }

def install (file : Staged) (target : Path) (s : FileStore) : Except FileError Unit × FileStore :=
  match s.staged.lookup file with
  | none => (.error .missing, s)
  | some content =>
      match s.tree.install target content with
      | .error error => (.error error, s)
      | .ok tree => (.ok (), { s.discard file with tree := tree })

instance : FileSystem (StateM FileStore) where
  read p := fun s => (s.tree.read p, s)
  isFile p := fun s => (s.tree.isFile p, s)
  createDirAll p := fun s =>
    let (result, tree) := s.tree.createDirAll p
    (result, { s with tree := tree })
  stage directory content := fun s => s.stage directory content
  install file target := fun s => s.install file target
  discard file := fun s => ((), s.discard file)

end FileStore

end StateLang
