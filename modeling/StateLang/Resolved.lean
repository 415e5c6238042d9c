import StateLang.Program.Basic

/-!
# Resolved programs

Resolving gives every variable use in an assignment or a guard its origin: a
declared name belongs to the machine, any other to the platform. It counts the
uses on the way and warns of what is legal but suspicious.
-/

namespace StateLang

/-- What is legal but suspicious. -/
inductive Warning
  | duplicateDeclaration (name : String)
  | multipleInitialStates (first extra : String)
  | unknownGotoTarget (state target : String)
  deriving DecidableEq, Repr

def Warning.message : Warning → String
  | duplicateDeclaration name => "variable `" ++ name ++ "` is declared more than once"
  | multipleInitialStates first extra =>
      "state `" ++ extra ++ "` is marked initial but `" ++ first ++ "` already is; `" ++ first ++
        "` is used"
  | unknownGotoTarget state target =>
      "state `" ++ state ++ "` has a goto to `" ++ target ++ "`, which is not a state"

structure Counts where
  declarations : Nat
  states : Nat
  /-- Occurrences of variables in assignments and guards. -/
  variableUses : Nat
  deriving DecidableEq, Repr

structure Resolved extends Program where
  /-- The declared names, increasing and each once. -/
  symbols : List String
  counts : Counts
  warnings : List Warning
  deriving DecidableEq, Repr

/-- Insert a name into an increasing list of names, unless it is there. -/
def insertName (name : String) : List String → List String
  | [] => [name]
  | first :: rest =>
      if name < first then name :: first :: rest
      else if name = first then first :: rest
      else first :: insertName name rest

/-- The state marked initial; of several the first. -/
def initialState? (states : List State) : Option State := states.find? (·.isInitial)

namespace Program

def declaredNames (p : Program) : List String := p.declarations.map (·.name.name)

/-- The declared names, increasing and each once. -/
def symbols (p : Program) : List String :=
  p.declaredNames.foldl (fun names name => insertName name names) []

/-- One warning for each declaration whose name an earlier one has; `earlier` are the names
declared before. -/
def duplicateWarnings (earlier : List String) : List String → List Warning
  | [] => []
  | name :: rest =>
      if name ∈ earlier then .duplicateDeclaration name :: duplicateWarnings earlier rest
      else duplicateWarnings (name :: earlier) rest

/-- One warning for each initial state after the first. -/
def initialWarnings (states : List State) : List Warning :=
  match states.filter (·.isInitial) with
  | [] => []
  | first :: extras =>
      extras.map fun extra => .multipleInitialStates first.name.name extra.name.name

/-- One warning for each transition to a name that no state has. -/
def targetWarnings (states : List State) : List Warning :=
  let names := states.map (·.name.name)
  states.flatMap fun state =>
    let targets := state.transitions.filterMap (·.target?)
    (targets.filter (fun target => target.name ∉ names)).map fun target =>
      .unknownGotoTarget state.name.name target.name

def warnings (p : Program) : List Warning :=
  duplicateWarnings [] p.declaredNames ++ initialWarnings p.states ++ targetWarnings p.states

end Program

/-- The assertion on a use that is given its origin: it has none yet. -/
def Variable.assertUnresolved (v : Variable) : Except String Unit :=
  if v.origin = .unresolved then pure ()
  else throw ("variable `" ++ v.name ++ "` resolved twice")

section Resolve

variable {m : Type → Type} [Monad m] (assertion : Variable → m Unit)

/-- Give one use its origin and count it, after the assertion on it. -/
def Variable.resolveUse (symbols : List String) (v : Variable) : StateT Nat m Variable := do
  assertion v
  modify (· + 1)
  pure { v with origin := if v.name ∈ symbols then .machine else .platform }

/-- Give every variable use its origin, with an assertion on each. -/
def Program.resolveWith (p : Program) : m Resolved := do
  let symbols := p.symbols
  let visit := p.states.mapM (State.mapVariablesM (Variable.resolveUse assertion symbols))
  let (states, uses) ← visit.run 0
  pure { p with
    states := states
    symbols := symbols
    counts := ⟨p.declarations.length, p.states.length, uses⟩
    warnings := p.warnings }

end Resolve

/-- Resolving in a build with assertions: it stops at a use that has an origin already. -/
def Program.resolveChecked (p : Program) : Except String Resolved :=
  p.resolveWith Variable.assertUnresolved

/-- Resolving in a build without assertions. -/
def Program.resolve (p : Program) : Resolved := Id.run (p.resolveWith fun _ => pure ())

end StateLang
