import StateLang.Document.Expr
import StateLang.Document.Naming
import StateLang.Resolved

/-!
# The documents of a machine

A resolved program becomes a class in two documents. The header declares one
method per state. In the implementation each method announces its state to the
platform and tries the transitions in order, as one cascade of conditions; the
main function starts the machine in its initial state.
-/

namespace StateLang

structure Documents where
  header : String
  implementation : String
  deriving DecidableEq, Repr

/-- The type of a field. -/
def VarType.fieldType : VarType → String
  | int => "int"
  | float => "float"
  | boolean => "bool"
  | string => "std::string"
  | char => "char"

/-- Stands for the methods of a program without states. -/
def noStates : String := "\n\t\t// No states\n"

def Declaration.field (d : Declaration) : String :=
  "\t\t" ++ d.type.fieldType ++ " " ++ d.name.name ++ ";\n"

def State.methodDeclaration (s : State) : String := "\t\tvoid " ++ s.name.name ++ "();\n"

/-- The text that writes an assignment. -/
def Assignment.render (a : Assignment) : Except Fault String := do
  let value ← a.value.render
  match a.target.origin with
  | .platform => pure ("\t\tplatform->set_" ++ a.target.name ++ "(" ++ value ++ ");\n")
  | .machine => pure ("\t\tthis->" ++ a.target.name ++ " = " ++ value ++ ";\n")
  | .unresolved => .error a.target.unresolvedFault

def renderBody : List Assignment → Except Fault String
  | [] => pure "\t\t// No statements\n"
  | body => do
      let lines ← body.mapM (·.render)
      pure (String.join lines)

/-- A transition is one branch of the cascade, and `opening` starts it. -/
def Transition.render (opening : String) (t : Transition) : Except Fault String := do
  let guard ← t.guard.render
  let body ← renderBody t.body
  let call := t.target?.elim "" fun target => "\t\t" ++ target.name ++ "();\n"
  pure (opening ++ "(" ++ guard ++ ") \x7b\n" ++ body ++ "\t\tplatform->next_state();\n" ++ call ++
    "\t\x7d ")

def renderTransitions : List Transition → Except Fault String
  | [] => pure "\n\t\t// No transitions\n"
  | first :: rest => do
      let head ← first.render "\tif "
      let tail ← rest.mapM (·.render "else if ")
      pure (head ++ String.join tail ++ "\n")

/-- The method of a state of the machine `name`. -/
def State.renderMethod (name : String) (s : State) : Except Fault String := do
  let transitions ← renderTransitions s.transitions
  pure ("void " ++ name ++ "::" ++ s.name.name ++ "() \x7b\n" ++ "\tplatform->enter_state();\n\n" ++
    transitions ++ "\x7d\n\n")

namespace Resolved

def header (r : Resolved) (naming : Naming) : String :=
  let name := r.name.name
  let platform := r.platform.name
  let guard := naming.guard
  "#ifndef " ++ guard ++ "\n#define " ++ guard ++ "\n" ++
  "class " ++ name ++ " \x7b \n" ++
  "\tpublic: \n" ++
  "\t\t" ++ name ++ "(" ++ platform ++ " *platform);\n" ++
  "\t\t~" ++ name ++ "();\n" ++
  String.join (r.declarations.map (·.field)) ++
  (if r.states.isEmpty then noStates else "") ++
  String.join (r.states.map (·.methodDeclaration)) ++
  "\tprivate:\n" ++
  "\t\t" ++ platform ++ " *platform;\n" ++
  "\x7d;\n\n" ++
  "int main(int argc, char **argv);\n\n" ++
  "#endif\n"

/-- The line of the main function that starts the machine. -/
def initialCall (states : List State) : String :=
  if states.isEmpty then "// No initial state (empty)\n"
  else
    match initialState? states with
    | some state => "machine->" ++ state.name.name ++ "();"
    | none => "// No initial state (not declared)"

def mainFunction (r : Resolved) : String :=
  let name := r.name.name
  let platform := r.platform.name
  "int main(int argc, char **argv) \x7b\n\n" ++
  "\t" ++ platform ++ " *platform = new " ++ platform ++ "(argc, argv);\n\n" ++
  "\t" ++ name ++ " *machine = new " ++ name ++ "(platform);\n" ++
  "\t" ++ initialCall r.states ++ "\n\n" ++
  "\treturn 0;\n" ++
  "\x7d\n"

def implementation (r : Resolved) (naming : Naming) : Except Fault String := do
  let name := r.name.name
  let methods ← r.states.mapM (·.renderMethod name)
  pure (
    "#include \"" ++ naming.runtimeHeader ++ "\"\n" ++
    "#include \"" ++ naming.headerFile ++ "\"\n" ++
    name ++ "::" ++ name ++ "(" ++ r.platform.name ++ " *p) \x7b\n" ++
    "\tthis->platform = p;\n" ++
    "\x7d;\n" ++
    name ++ "::~" ++ name ++ "() \x7b\x7d\n\n" ++
    (if r.states.isEmpty then noStates else "") ++
    String.join methods ++
    r.mainFunction ++
    "\n\n\n")

/-- Both documents of a machine. -/
def documents (r : Resolved) (naming : Naming) : Except Fault Documents := do
  let implementation ← r.implementation naming
  pure ⟨r.header naming, implementation⟩

end Resolved

end StateLang
