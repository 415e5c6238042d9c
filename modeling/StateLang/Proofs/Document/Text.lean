import StateLang.Document.Basic
import StateLang.Proofs.Resolved

/-!
# The texts of resolved trees

Writing a tree fails only at a variable without an origin. A tree whose uses all
have one has a text, and writing gives that text.
-/

namespace StateLang

/-! ## Texts -/

def Variable.text (v : Variable) : String :=
  if v.origin = .platform then "platform->get_" ++ v.name ++ "()" else "this->" ++ v.name

def Expr.text : Expr → String
  | const _ text => text
  | var v => v.text
  | binary op left right => " " ++ left.text ++ " " ++ op.symbol ++ " " ++ right.text ++ " "

def Assignment.text (a : Assignment) : String :=
  if a.target.origin = .platform then
    "\t\tplatform->set_" ++ a.target.name ++ "(" ++ a.value.text ++ ");\n"
  else "\t\tthis->" ++ a.target.name ++ " = " ++ a.value.text ++ ";\n"

/-- The texts of the items, or a text that stands for none. -/
def listText {α : Type} (none : String) (text : α → String) : List α → String
  | [] => none
  | first :: rest => String.join ((first :: rest).map text)

def bodyText (body : List Assignment) : String := listText "\t\t// No statements\n" (·.text) body

/-- The call of the next state's method. -/
def Destination.call : Destination → String
  | goto target => "\t\t" ++ target.name ++ "();\n"
  | exit => ""

/-- What a branch does besides its assignments. -/
def nextState : String := "\t\tplatform->next_state();\n"

def Transition.text (opening : String) (t : Transition) : String :=
  opening ++ "(" ++ t.guard.text ++ ") \x7b\n" ++ bodyText t.body ++ nextState ++
    t.destination.call ++ "\t\x7d "

def transitionsText : List Transition → String
  | [] => "\n\t\t// No transitions\n"
  | first :: rest => first.text "\tif " ++ String.join (rest.map (·.text "else if ")) ++ "\n"

def State.method (name : String) (s : State) : String :=
  "void " ++ name ++ "::" ++ s.name.name ++ "() \x7b\n" ++ "\tplatform->enter_state();\n\n" ++
    transitionsText s.transitions ++ "\x7d\n\n"

namespace Resolved

/-- The implementation before its methods. -/
def preamble (r : Resolved) (naming : Naming) : String :=
  "#include \"" ++ naming.runtimeHeader ++ "\"\n" ++
  "#include \"" ++ naming.headerFile ++ "\"\n" ++
  r.name.name ++ "::" ++ r.name.name ++ "(" ++ r.platform.name ++ " *p) \x7b\n" ++
  "\tthis->platform = p;\n" ++
  "\x7d;\n" ++
  r.name.name ++ "::~" ++ r.name.name ++ "() \x7b\x7d\n\n"

def implementationText (r : Resolved) (naming : Naming) : String :=
  r.preamble naming ++ listText noStates (·.method r.name.name) r.states ++ r.mainFunction ++
    "\n\n\n"

end Resolved

/-! ## Writing gives the texts -/

theorem mapM_eq_ok {α β ε : Type} {f : α → Except ε β} {g : α → β} {as : List α}
    (h : ∀ a ∈ as, f a = .ok (g a)) : as.mapM f = .ok (as.map g) := by
  induction as with
  | nil => rfl
  | cons a as ih =>
      have hrest := ih fun b hmem => h b (List.mem_cons_of_mem _ hmem)
      rw [List.mapM_cons, h a List.mem_cons_self, hrest]
      rfl

theorem Variable.render_eq {v : Variable} (h : v.origin ≠ .unresolved) : v.render = .ok v.text := by
  unfold Variable.render Variable.text
  cases horigin : v.origin with
  | unresolved => exact absurd horigin h
  | platform => rfl
  | machine => rfl

theorem Expr.render_eq {e : Expr} (h : ∀ v ∈ e.vars, v.origin ≠ .unresolved) :
    e.render = .ok e.text := by
  induction e with
  | const kind text => rfl
  | var v => exact Variable.render_eq (h v (by simp [Expr.vars]))
  | binary op left right ihl ihr =>
      simp only [Expr.vars, List.mem_append] at h
      rw [Expr.render, ihl fun v hv => h v (.inl hv), ihr fun v hv => h v (.inr hv)]
      rfl

theorem Assignment.render_eq {a : Assignment} (h : ∀ v ∈ a.uses, v.origin ≠ .unresolved) :
    a.render = .ok a.text := by
  obtain ⟨htarget, hvalue⟩ := List.forall_mem_cons.mp h
  rw [Assignment.render, Expr.render_eq hvalue]
  unfold Assignment.text
  cases horigin : a.target.origin with
  | unresolved => exact absurd horigin htarget
  | platform => rfl
  | machine => rfl

theorem renderBody_eq {body : List Assignment}
    (h : ∀ v ∈ body.flatMap (·.uses), v.origin ≠ .unresolved) :
    renderBody body = .ok (bodyText body) := by
  have hlines : body.mapM (·.render) = .ok (body.map (·.text)) := by
    apply mapM_eq_ok
    intro a ha
    exact Assignment.render_eq fun v hv => h v (List.mem_flatMap.mpr ⟨a, ha, hv⟩)
  cases body with
  | nil => rfl
  | cons first rest =>
      rw [renderBody, hlines]
      · rfl
      · simp

theorem Transition.render_eq {t : Transition} (h : ∀ v ∈ t.uses, v.origin ≠ .unresolved)
    (opening : String) : t.render opening = .ok (t.text opening) := by
  simp only [Transition.uses, List.mem_append] at h
  have hcall : (t.target?.elim "" fun target => "\t\t" ++ target.name ++ "();\n") =
      t.destination.call := by
    unfold Transition.target?
    cases t.destination <;> rfl
  rw [Transition.render, Expr.render_eq fun v hv => h v (.inr hv),
    renderBody_eq fun v hv => h v (.inl hv), hcall]
  rfl

theorem renderTransitions_eq {transitions : List Transition}
    (h : ∀ v ∈ transitions.flatMap (·.uses), v.origin ≠ .unresolved) :
    renderTransitions transitions = .ok (transitionsText transitions) := by
  cases transitions with
  | nil => rfl
  | cons first rest =>
      simp only [List.flatMap_cons, List.mem_append] at h
      have hrest : rest.mapM (·.render "else if ") = .ok (rest.map (·.text "else if ")) := by
        apply mapM_eq_ok
        intro t ht
        exact Transition.render_eq (fun v hv => h v (.inr (List.mem_flatMap.mpr ⟨t, ht, hv⟩))) _
      rw [renderTransitions, Transition.render_eq fun v hv => h v (.inl hv), hrest]
      rfl

theorem State.renderMethod_eq {s : State} (h : ∀ v ∈ s.uses, v.origin ≠ .unresolved)
    (name : String) : s.renderMethod name = .ok (s.method name) := by
  rw [State.renderMethod, renderTransitions_eq h]
  rfl

namespace Resolved

variable {r : Resolved}

theorem implementation_eq (h : ∀ s ∈ r.states, ∀ v ∈ s.uses, v.origin ≠ .unresolved)
    (naming : Naming) : r.implementation naming = .ok (r.implementationText naming) := by
  have hmethods : r.states.mapM (·.renderMethod r.name.name) =
      .ok (r.states.map (·.method r.name.name)) :=
    mapM_eq_ok fun s hs => State.renderMethod_eq (h s hs) _
  have hlist : (if r.states.isEmpty then noStates else "") ++
      String.join (r.states.map (·.method r.name.name)) =
        listText noStates (·.method r.name.name) r.states := by
    cases r.states with
    | nil => simp [listText]
    | cons first rest => simp [listText]
  rw [implementation, hmethods, implementationText, ← hlist, ← String.append_assoc]
  rfl

theorem documents_eq (h : ∀ s ∈ r.states, ∀ v ∈ s.uses, v.origin ≠ .unresolved)
    (naming : Naming) :
    r.documents naming = .ok ⟨r.header naming, r.implementationText naming⟩ := by
  rw [documents, implementation_eq h]
  rfl

end Resolved

end StateLang
