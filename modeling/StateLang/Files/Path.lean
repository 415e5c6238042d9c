/-!
# Paths

A path is a text; slashes divide its names. Joining keeps both texts as they
are, and a path that starts with a slash replaces what it is joined to. For
parents a path is read by components: empty names do not count, and a single
dot counts only at the front of a relative path.
-/

namespace StateLang

structure Path where
  text : String
  deriving DecidableEq, Repr

namespace Path

def isAbsolute (p : Path) : Bool := p.text.toList.head? = some '/'

def endsInSlash (p : Path) : Bool := p.text.toList.getLast? = some '/'

/-- `child` below `base`. -/
def join (base child : Path) : Path :=
  if child.isAbsolute then child
  else if base.text.isEmpty || base.endsInSlash then ⟨base.text ++ child.text⟩
  else ⟨base.text ++ "/" ++ child.text⟩

/-- The pieces of a text between slashes. -/
def segments : List Char → List (List Char)
  | [] => [[]]
  | c :: s =>
      if c = '/' then [] :: segments s
      else
        match segments s with
        | [] => [[c]]
        | first :: rest => (c :: first) :: rest

/-- The names that a path goes through, dots included. -/
def names (p : Path) : List String :=
  ((segments p.text.toList).filter (fun segment => !segment.isEmpty)).map String.ofList

/-- The names that tell a path from its parents. -/
def components (p : Path) : List String :=
  match p.names with
  | "." :: rest =>
      if p.isAbsolute then rest.filter (· ≠ ".") else "." :: rest.filter (· ≠ ".")
  | names => names.filter (· ≠ ".")

def ofComponents (absolute : Bool) (components : List String) : Path :=
  ⟨(if absolute then "/" else "") ++ "/".intercalate components⟩

/-- The path without its last component. -/
def parent? (p : Path) : Option Path :=
  match p.components with
  | [] => none
  | components => some (ofComponents p.isAbsolute components.dropLast)

/-- The parents of a path, the nearest first, without the empty path. -/
def parents (p : Path) : List Path :=
  let components := p.components
  let all := (List.range components.length).reverse.map fun count =>
    ofComponents p.isAbsolute (components.take count)
  all.filter (fun q => !q.text.isEmpty)

/-- The directory that holds the path's last component. -/
def directory (p : Path) : Path :=
  match p.parent? with
  | some q => if q.text.isEmpty then ⟨"."⟩ else q
  | none => ⟨"."⟩

end Path

end StateLang
