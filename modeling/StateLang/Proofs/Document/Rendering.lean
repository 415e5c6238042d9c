import StateLang.Proofs.Document.Occurrences
import StateLang.Proofs.Document.Text

/-!
# When an expression can be written

Writing an expression stops at the first variable without an origin, and first
means what it means to a visit: both go from left to right and leave nothing
out. Where all variables have origins the text is the leaves and the operators
in order, with blanks between them and no other sign of the tree.

The main statement is `Expr.render_exact`.
-/

namespace StateLang

/-! ## Visits -/

/-- Note down a variable and leave it as it is. -/
def Variable.record (v : Variable) : StateM (List Variable) Variable := do
  modify (· ++ [v])
  pure v

/-- The variables in the order in which a visit comes to them. -/
def Expr.visited (e : Expr) : List Variable := ((e.mapVariablesM Variable.record).run []).2

/-- A visit that changes no variable has its effects in order and gives the tree back. -/
theorem Expr.mapVariablesM_keep {m : Type → Type} [Monad m] [LawfulMonad m]
    {f : Variable → m Variable} {effect : Variable → m Unit}
    (hf : ∀ v, f v = do effect v; pure v) (e : Expr) :
    e.mapVariablesM f = (do forM e.vars effect; pure e) := by
  induction e with
  | const kind text => simp [Expr.mapVariablesM, Expr.vars]
  | var v => simp [Expr.mapVariablesM, Expr.vars, hf]
  | binary op left right ihl ihr =>
      rw [Expr.mapVariablesM, ihl, ihr, Expr.vars, List.forM_append]
      simp

theorem Expr.visited_eq (e : Expr) : e.visited = e.vars := by
  have hrecord (v : Variable) : v.record = (do modify (· ++ [v]); pure v) := rfl
  rw [Expr.visited, Expr.mapVariablesM_keep hrecord, StateT.run_bind,
    run_forM_modify fun seen v => seen ++ [v]]
  have hfold : e.vars.foldl (fun seen v => seen ++ [v]) [] = e.vars := by
    rw [List.foldl_append_eq_append, List.nil_append, ← List.flatMap_def, List.flatMap_singleton']
  exact hfold

/-! ## Writing -/

theorem Variable.render_unresolved {v : Variable} (h : v.origin = .unresolved) :
    v.render = .error v.unresolvedFault := by
  simp [Variable.render, h]

theorem Expr.located_of_find {e : Expr} (h : e.vars.find? (·.origin = .unresolved) = none) :
    ∀ v ∈ e.vars, v.origin ≠ .unresolved := by
  simpa using List.find?_eq_none.mp h

/-- Writing stops at the first variable without an origin: what stands to the left of it has been
written, and nothing to the right of it is looked at. -/
theorem Expr.render_of_find {e : Expr} {v : Variable}
    (h : e.vars.find? (·.origin = .unresolved) = some v) : e.render = .error v.unresolvedFault := by
  induction e with
  | const kind text => cases h
  | var u =>
      obtain rfl : u = v := List.mem_singleton.mp (List.mem_of_find?_eq_some h) |>.symm
      exact Variable.render_unresolved (by simpa using List.find?_some h)
  | binary op left right ihl ihr =>
      rw [Expr.vars, List.find?_append, Option.or_eq_some_iff] at h
      rcases h with hleft | ⟨hleft, hright⟩
      · rw [Expr.render, ihl hleft]
        rfl
      · rw [Expr.render, Expr.render_eq (Expr.located_of_find hleft), ihr hright]
        rfl

/-! ## Blanks -/

def withoutBlanks (text : String) : String := String.ofList (text.toList.filter (· ≠ ' '))

theorem withoutBlanks_append (x y : String) :
    withoutBlanks (x ++ y) = withoutBlanks x ++ withoutBlanks y := by
  simp [withoutBlanks]

theorem withoutBlanks_of_lacks {text : String} (h : Lacks ' ' text) :
    withoutBlanks text = text := by
  have hkept : text.toList.filter (· ≠ ' ') = text.toList := by
    rw [List.filter_eq_self]
    intro c hc
    exact decide_eq_true fun heq => h (heq ▸ hc)
  rw [withoutBlanks, hkept, String.ofList_toList]

namespace Expr

/-- The texts of the constants and variables, left to right. -/
def leaves : Expr → List String
  | const _ text => [text]
  | var v => [v.text]
  | binary _ left right => left.leaves ++ right.leaves

/-- The texts of the leaves and the symbols of the operators, left to right. -/
def words : Expr → List String
  | const _ text => [text]
  | var v => [v.text]
  | binary op left right => left.words ++ op.symbol :: right.words

theorem withoutBlanks_text {e : Expr} (h : ∀ leaf ∈ e.leaves, Lacks ' ' leaf) :
    withoutBlanks e.text = String.join e.words := by
  induction e with
  | const kind word => simp [text, words, withoutBlanks_of_lacks (h word List.mem_cons_self)]
  | var v => simp [text, words, withoutBlanks_of_lacks (h v.text List.mem_cons_self)]
  | binary op left right ihl ihr =>
      rw [leaves, List.forall_mem_append] at h
      have hblank : withoutBlanks " " = "" := by decide
      have hsymbol : withoutBlanks op.symbol = op.symbol :=
        withoutBlanks_of_lacks (op.symbol_lacks (by decide))
      simp [text, words, withoutBlanks_append, hblank, hsymbol, ihl h.1, ihr h.2,
        String.append_assoc]

/-- An expression cannot be written exactly if one of its variables has no origin. The fault is an
internal one and names the first of these that a visit comes to. Where no leaf has a blank in its
text, the text of an expression without its blanks is the leaves and operators in order. -/
theorem render_exact (e : Expr) :
    ((∃ fault, e.render = .error fault) ↔ ∃ v ∈ e.vars, v.origin = .unresolved) ∧
    (∀ fault, e.render = .error fault ↔
      ∃ v, e.visited.find? (·.origin = .unresolved) = some v ∧
        fault = .internal ("variable `" ++ v.name ++ "` reached code generation unresolved")) ∧
    ∀ text, e.render = .ok text → (∀ leaf ∈ e.leaves, Lacks ' ' leaf) →
      withoutBlanks text = String.join e.words := by
  rw [visited_eq]
  cases hfind : e.vars.find? (·.origin = .unresolved) with
  | none =>
      have hlocated := located_of_find hfind
      rw [render_eq hlocated]
      refine ⟨iff_of_false (by simp) (by simpa using hlocated), by simp, ?_⟩
      rintro text ⟨⟩ hleaves
      exact withoutBlanks_text hleaves
  | some v =>
      have hv : v.origin = .unresolved := by simpa using List.find?_some hfind
      rw [render_of_find hfind]
      refine ⟨iff_of_true ⟨_, rfl⟩ ⟨v, List.mem_of_find?_eq_some hfind, hv⟩, ?_, by simp⟩
      intro fault
      simp [Variable.unresolvedFault, eq_comm]

/-- Of two variables without an origin the left one is named, though the right one is higher in the
tree; with origins for both the text has its blanks. -/
theorem render_exact_product :
    let e (a b : Origin) : Expr := .binary (.arith .mul)
      (.binary (.compare .lt) (.const .int "1") (.var ⟨"a", a⟩)) (.var ⟨"b", b⟩)
    (∃ v ∈ (e .unresolved .unresolved).vars, v.origin = .unresolved) ∧
    (e .unresolved .unresolved).render =
      .error (.internal "variable `a` reached code generation unresolved") ∧
    (e .machine .platform).render = .ok "  1 < this->a  * platform->get_b() " ∧
    (∀ leaf ∈ (e .machine .platform).leaves, Lacks ' ' leaf) ∧
    withoutBlanks "  1 < this->a  * platform->get_b() " =
      String.join ["1", "<", "this->a", "*", "platform->get_b()"] := by
  intro e
  have hvar : ∃ v ∈ (e .unresolved .unresolved).vars, v.origin = .unresolved :=
    ⟨⟨"a", .unresolved⟩, by decide, rfl⟩
  have htext : (e .machine .platform).render = .ok "  1 < this->a  * platform->get_b() " := rfl
  have hleaves : ∀ leaf ∈ (e .machine .platform).leaves, Lacks ' ' leaf := by decide
  obtain ⟨-, hfault, -⟩ := render_exact (e .unresolved .unresolved)
  obtain ⟨-, -, hwords⟩ := render_exact (e .machine .platform)
  exact ⟨hvar, (hfault _).mpr ⟨⟨"a", .unresolved⟩, rfl, rfl⟩, htext, hleaves,
    hwords _ htext hleaves⟩

end Expr

end StateLang
