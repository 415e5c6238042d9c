import StateLang.Resolved

/-!
# What resolving does to a program

Resolving is a visit that counts. Its answer is the program with an origin put
on every variable use and nothing else changed, and its count is the number of
these uses. Both are read off the tree here, without the visit's state.
-/

namespace StateLang

/-! ## Origins and uses -/

def Variable.locate (names : List String) (v : Variable) : Variable :=
  { v with origin := if v.name ∈ names then .machine else .platform }

def Expr.locate (names : List String) : Expr → Expr
  | const kind text => const kind text
  | var v => var (v.locate names)
  | binary op left right => binary op (left.locate names) (right.locate names)

namespace Assignment

def locate (names : List String) (a : Assignment) : Assignment :=
  ⟨a.target.locate names, a.value.locate names⟩

def uses (a : Assignment) : List Variable := a.target :: a.value.vars

end Assignment

namespace Transition

def locate (names : List String) (t : Transition) : Transition :=
  { t with guard := t.guard.locate names, body := t.body.map (·.locate names) }

/-- The variable uses in the order in which resolving visits them. -/
def uses (t : Transition) : List Variable := t.body.flatMap (·.uses) ++ t.guard.vars

end Transition

namespace State

def locate (names : List String) (s : State) : State :=
  { s with transitions := s.transitions.map (·.locate names) }

def uses (s : State) : List Variable := s.transitions.flatMap (·.uses)

end State

/-! ## The visit -/

/-- `visit` has the effects of the uses, in order and each once, and gives what `change` makes of
the tree. -/
def Visits {m : Type → Type} [Monad m] {α : Type} (effect : Variable → m Unit) (visit : α → m α)
    (change : α → α) (uses : α → List Variable) : Prop :=
  ∀ a, visit a = do
    forM (uses a) effect
    pure (change a)

section Visits

variable {m : Type → Type} [Monad m] [LawfulMonad m] {α : Type} {effect : Variable → m Unit}
  {f : Variable → m Variable} {names : List String}

theorem Visits.list {visit : α → m α} {change : α → α} {uses : α → List Variable}
    (h : Visits effect visit change uses) :
    Visits effect (List.mapM visit) (List.map change) (List.flatMap uses) := by
  intro as
  induction as with
  | nil => simp
  | cons a as ih =>
      rw [List.mapM_cons, h a, ih, List.flatMap_cons, List.forM_append]
      simp

variable (hf : ∀ v, f v = do effect v; pure (v.locate names))
include hf

theorem expr_visits : Visits effect (Expr.mapVariablesM f) (Expr.locate names) Expr.vars := by
  intro e
  induction e with
  | const kind text => simp [Expr.mapVariablesM, Expr.vars, Expr.locate]
  | var v =>
      rw [Expr.mapVariablesM, hf v]
      simp [Expr.vars, Expr.locate]
  | binary op left right ihl ihr =>
      rw [Expr.mapVariablesM, ihl, ihr, Expr.vars, List.forM_append]
      simp [Expr.locate]

theorem assignment_visits : Visits effect (Assignment.mapVariablesM f) (Assignment.locate names)
    Assignment.uses := by
  intro a
  rw [Assignment.mapVariablesM, hf a.target, expr_visits hf a.value]
  simp [Assignment.uses, Assignment.locate]

theorem transition_visits : Visits effect (Transition.mapVariablesM f) (Transition.locate names)
    Transition.uses := by
  intro t
  rw [Transition.mapVariablesM, (assignment_visits hf).list t.body, expr_visits hf t.guard,
    Transition.uses, List.forM_append]
  simp [Transition.locate]

theorem state_visits : Visits effect (State.mapVariablesM f) (State.locate names) State.uses := by
  intro s
  rw [State.mapVariablesM, (transition_visits hf).list s.transitions]
  simp [State.uses, State.locate]

end Visits

section Runs

variable {m : Type → Type} [Monad m] [LawfulMonad m] {σ α : Type} (step : σ → α → σ)

/-- A visit that acts and changes a state acts on what it visits, and folds its steps over it. -/
theorem run_forM_act (act : α → m Unit) (as : List α) (s : σ) :
    (forM as fun a => do act a; modify (step · a) : StateT σ m Unit).run s =
      (do forM as act; pure ((), as.foldl step s)) := by
  induction as generalizing s with
  | nil => simp
  | cons a as ih => simp [ih]

/-- A visit that only changes a state folds its steps over what it visits. -/
theorem run_forM_modify (as : List α) (s : σ) :
    (forM as fun a => modify (step · a) : StateT σ m Unit).run s = pure ((), as.foldl step s) := by
  induction as generalizing s with
  | nil => rfl
  | cons a as ih => simp [ih]

end Runs

/-! ## Uses after the visit -/

section Uses

variable (names : List String)

theorem Variable.locate_origin (v : Variable) : (v.locate names).origin ≠ .unresolved := by
  unfold Variable.locate
  by_cases hmem : v.name ∈ names
  · simp [hmem]
  · simp [hmem]

theorem Expr.vars_locate (e : Expr) : (e.locate names).vars = e.vars.map (·.locate names) := by
  induction e with
  | const kind text => rfl
  | var v => rfl
  | binary op left right ihl ihr => simp only [Expr.locate, Expr.vars, List.map_append, ihl, ihr]

theorem Assignment.uses_locate (a : Assignment) :
    (a.locate names).uses = a.uses.map (·.locate names) := by
  simp only [Assignment.locate, Assignment.uses, Expr.vars_locate, List.map_cons]

theorem Transition.uses_locate (t : Transition) :
    (t.locate names).uses = t.uses.map (·.locate names) := by
  simp only [Transition.locate, Transition.uses, Expr.vars_locate, List.flatMap_map,
    Assignment.uses_locate, List.map_append, List.map_flatMap]

theorem State.uses_locate (s : State) : (s.locate names).uses = s.uses.map (·.locate names) := by
  simp only [State.locate, State.uses, List.flatMap_map, Transition.uses_locate, List.map_flatMap]

end Uses

/-! ## Resolved programs -/

namespace Program

variable (p : Program)

@[simp] theorem resolve_name : p.resolve.name = p.name := rfl

@[simp] theorem resolve_platform : p.resolve.platform = p.platform := rfl

@[simp] theorem resolve_declarations : p.resolve.declarations = p.declarations := rfl

/-- The program with an origin on every use, and what is counted and warned of. -/
def located : Resolved :=
  { p with
    states := p.states.map (·.locate p.symbols)
    symbols := p.symbols
    counts := ⟨p.declarations.length, p.states.length, (p.states.flatMap (·.uses)).length⟩
    warnings := p.warnings }

/-- Resolving makes its assertion on every use, in order and each once, and then has its answer. -/
theorem resolveWith_eq {m : Type → Type} [Monad m] [LawfulMonad m]
    (assertion : Variable → m Unit) : p.resolveWith assertion = (do
      forM (p.states.flatMap (·.uses)) assertion
      pure p.located) := by
  have hf (v : Variable) : v.resolveUse assertion p.symbols =
      (do (do assertion v; modify (· + 1)); pure (v.locate p.symbols) : StateT Nat m Variable) := by
    simp [Variable.resolveUse, Variable.locate]
  have hvisit := (state_visits hf).list p.states
  simp only [resolveWith, hvisit, StateT.run_bind, run_forM_act fun count _ => count + 1,
    List.foldl_add_const]
  simp [located]

theorem resolve_eq : p.resolve = p.located := by
  rw [resolve, resolveWith_eq]
  simp

theorem resolve_states : p.resolve.states = p.states.map (·.locate p.symbols) := by
  rw [resolve_eq, located]

/-- Every use in a resolved program has an origin. -/
theorem resolve_located : ∀ s ∈ p.resolve.states, ∀ v ∈ s.uses, v.origin ≠ .unresolved := by
  intro s hs v hv
  rw [resolve_states] at hs
  obtain ⟨state, -, rfl⟩ := List.mem_map.mp hs
  rw [State.uses_locate] at hv
  obtain ⟨use, -, rfl⟩ := List.mem_map.mp hv
  exact use.locate_origin _

theorem resolve_variableUses :
    p.resolve.counts.variableUses = (p.states.flatMap (·.uses)).length := by
  rw [resolve_eq, located]

end Program

end StateLang
