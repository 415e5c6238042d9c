import StateLang.Json.Basic
import StateLang.Resolved

/-!
# Programs as JSON

A plain variant is its name, a variant with a payload an object of one field.
-/

namespace StateLang

open Json

def Origin.toJson : Origin → Json
  | unresolved => str "Unresolved"
  | platform => str "Platform"
  | machine => str "Local"

def Variable.toJson (v : Variable) : Json :=
  obj [("name", str v.name), ("origin", v.origin.toJson)]

def ConstKind.label : ConstKind → String
  | int => "Int"
  | float => "Float"
  | string => "String"
  | char => "Char"
  | bool => "Bool"

def ArithOp.label : ArithOp → String
  | add => "Add"
  | sub => "Sub"
  | mul => "Mul"
  | div => "Div"

def CompareOp.label : CompareOp → String
  | eq => "Eq"
  | ne => "Ne"
  | lt => "Lt"
  | le => "Le"
  | gt => "Gt"
  | ge => "Ge"

/-- The variant of a binary node, and its operator's label. -/
def BinaryOp.labels : BinaryOp → String × String
  | arith op => ("Operator", op.label)
  | compare op => ("Comparison", op.label)

def Expr.toJson : Expr → Json
  | const kind text => variant "Constant" (obj [("kind", str kind.label), ("text", str text)])
  | var v => variant "Variable" v.toJson
  | binary op left right =>
      variant op.labels.1
        (obj [("op", str op.labels.2), ("left", left.toJson), ("right", right.toJson)])

def Assignment.toJson (a : Assignment) : Json :=
  obj [("lhs", a.target.toJson), ("rhs", a.value.toJson)]

def Destination.toJson : Destination → Json
  | goto target => variant "Goto" (obj [("target", target.toJson)])
  | exit => str "Exit"

def Transition.toJson (t : Transition) : Json :=
  obj [("guard", t.guard.toJson), ("body", arr (t.body.map (·.toJson))),
    ("kind", t.destination.toJson)]

def State.toJson (s : State) : Json :=
  obj [("name", s.name.toJson), ("transitions", arr (s.transitions.map (·.toJson))),
    ("is_initial", bool s.isInitial)]

def VarType.label : VarType → String
  | int => "Int"
  | float => "Float"
  | boolean => "Boolean"
  | string => "String"
  | char => "Char"

def Declaration.toJson (d : Declaration) : Json :=
  obj [("ty", str d.type.label), ("name", d.name.toJson)]

/-- A platform is an object with its name. -/
def platformJson (platform : Variable) : Json := obj [("name", platform.toJson)]

def Program.jsonFields (p : Program) : List (String × Json) :=
  [("name", p.name.toJson), ("platform", platformJson p.platform),
    ("decls", arr (p.declarations.map (·.toJson))), ("states", arr (p.states.map (·.toJson)))]

def Program.toJson (p : Program) : Json := obj p.jsonFields

def Counts.toJson (c : Counts) : Json :=
  obj [("decls", num c.declarations), ("states", num c.states),
    ("variable_uses", num c.variableUses)]

def Warning.toJson : Warning → Json
  | duplicateDeclaration name => variant "DuplicateDecl" (obj [("name", str name)])
  | multipleInitialStates first extra =>
      variant "MultipleInitialStates" (obj [("first", str first), ("extra", str extra)])
  | unknownGotoTarget state target =>
      variant "UnknownGotoTarget" (obj [("state", str state), ("target", str target)])

def Resolved.toJson (r : Resolved) : Json :=
  obj (r.toProgram.jsonFields ++
    [("symbols", arr (r.symbols.map str)), ("counts", r.counts.toJson),
      ("diagnostics", arr (r.warnings.map (·.toJson)))])

end StateLang
