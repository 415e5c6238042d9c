/-!
# Names that the documents use

The implementation includes the header and the runtime's header by name. The
header's include guard is made from its name: letters in upper case, digits as
they are, anything else an underscore, and never a digit first.
-/

namespace StateLang

structure Naming where
  headerFile : String := "Machine.h"
  runtimeHeader : String := "RunTime.h"
  deriving DecidableEq, Repr

namespace Naming

def guardChar (c : Char) : Char := if c.isAlphanum then c.toUpper else '_'

/-- The include guard of the header. -/
def guard (n : Naming) : String :=
  match n.headerFile.toList.map guardChar with
  | [] => "_"
  | first :: rest =>
      if first.isDigit then String.ofList ('_' :: first :: rest) else String.ofList (first :: rest)

end Naming

end StateLang
