import StateLang.Proofs.Expr.RoundTrip

/-!
# Expressions that are read back as they are

The text of an expression has no parentheses, so what is read from it is grouped
by the binding powers. Whether a tree is so can be seen at each of its nodes: the
operand on the left binds at least as tightly as the node, the one on the right
tighter. The limits on depth have no say in it, since a tree that was read is low
enough to be read again.

The main statement is `parse_render_eq_iff`.
-/

namespace StateLang.Expr

/-- `part` is the tree itself or stands somewhere below its top. -/
inductive Within (part : Expr) : Expr → Prop
  | refl : Within part part
  | left {op : BinaryOp} {l r : Expr} (h : Within part l) : Within part (binary op l r)
  | right {op : BinaryOp} {l r : Expr} (h : Within part r) : Within part (binary op l r)

variable {rank : BinaryOp → Nat} {n : Nat} {e : Expr}

theorem bindsAt_iff_top : e.BindsAt rank n ↔ ∀ op l r, e = binary op l r → n ≤ rank op := by
  cases e with
  | const kind text => simp [BindsAt]
  | var v => simp [BindsAt]
  | binary top l r =>
      constructor
      · intro h op l' r' heq
        cases heq
        exact h
      · intro h
        exact h top l r rfl

/-- Grouping is a matter of each node and the tops of its two operands. -/
theorem grouped_iff_nodes : e.Grouped rank ↔ ∀ op l r, Within (binary op l r) e →
    l.BindsAt rank (rank op) ∧ r.BindsAt rank (rank op + 1) := by
  induction e with
  | const kind text =>
      refine ⟨fun _ op l r h => ?_, fun _ => trivial⟩
      cases h
  | var v =>
      refine ⟨fun _ op l r h => ?_, fun _ => trivial⟩
      cases h
  | binary top left right ihl ihr =>
      constructor
      · intro hgrouped op l r h
        obtain ⟨hleft, hright, hgl, hgr⟩ := hgrouped
        cases h with
        | refl => exact ⟨hleft, hright⟩
        | left h => exact ihl.mp hgl op l r h
        | right h => exact ihr.mp hgr op l r h
      · intro hnodes
        obtain ⟨hleft, hright⟩ := hnodes top left right .refl
        refine ⟨hleft, hright, ihl.mpr ?_, ihr.mpr ?_⟩
        · exact fun op l r h => hnodes op l r (.left h)
        · exact fun op l r h => hnodes op l r (.right h)

/-- An expression without variables that was read is read back from its own text as it is exactly
if, at every node, the left operand is a leaf or binds at least as tightly as the node, and the
right operand is a leaf or binds tighter. -/
theorem parse_render_eq_iff {source : String} (h : Expr.parse source = .ok e)
    (hvars : e.vars = []) :
    ∃ text, e.render = .ok text ∧ (Expr.parse text = .ok e ↔
      ∀ op l r, Within (binary op l r) e →
        (∀ op' a b, l = binary op' a b → op.power ≤ op'.power) ∧
        ∀ op' a b, r = binary op' a b → op.power < op'.power) := by
  obtain ⟨hspelled, hheight⟩ := spelled_of_parse h hvars
  obtain ⟨text, htext, hread⟩ := hspelled.parse_render
  refine ⟨text, htext, ?_⟩
  calc Expr.parse text = .ok e
      ↔ (e.symbols = e.symbols ∧ e.Grouped BinaryOp.power) ∧ e.height ≤ maxDepth := hread e
    _ ↔ e.Grouped BinaryOp.power := by simp [hheight]
    _ ↔ ∀ op l r, Within (binary op l r) e →
          l.BindsAt BinaryOp.power op.power ∧ r.BindsAt BinaryOp.power (op.power + 1) :=
        grouped_iff_nodes
    _ ↔ _ := by simp only [bindsAt_iff_top, Nat.succ_le_iff]

/-- Of two differences the one with parentheses is lost, though both powers are the same; a
comparison of sums is kept. -/
theorem parse_render_eq_iff_difference :
    let leaf (text : String) : Expr := .const .int text
    let nested : Expr :=
      .binary (.arith .sub) (leaf "1") (.binary (.arith .sub) (leaf "2") (leaf "3"))
    let sums : Expr :=
      .binary (.compare .lt) (leaf "1") (.binary (.arith .add) (leaf "2") (leaf "3"))
    (Expr.parse "1 - (2 - 3)" = .ok nested ∧ nested.vars = [] ∧
      ∃ text, nested.render = .ok text ∧ Expr.parse text ≠ .ok nested) ∧
    Expr.parse "1 < (2 + 3)" = .ok sums ∧ sums.vars = [] ∧
      ∃ text, sums.render = .ok text ∧ Expr.parse text = .ok sums := by
  intro leaf nested sums
  have hnested : Expr.parse "1 - (2 - 3)" = .ok nested := Parser.ok_of_toOption (by decide +kernel)
  have hsums : Expr.parse "1 < (2 + 3)" = .ok sums := Parser.ok_of_toOption (by decide +kernel)
  obtain ⟨text, htext, hlost⟩ := parse_render_eq_iff hnested rfl
  obtain ⟨text', htext', hkept⟩ := parse_render_eq_iff hsums rfl
  refine ⟨⟨hnested, rfl, text, htext, fun hback => ?_⟩, hsums, rfl, text', htext', hkept.mpr ?_⟩
  · exact absurd ((hlost.mp hback _ _ _ .refl).2 _ _ _ rfl) (Nat.lt_irrefl 50)
  · intro op l r h
    dsimp only [sums, leaf] at h
    cases h with
    | refl => simp [BinaryOp.power, CompareOp.power, ArithOp.power]
    | left h => cases h
    | right h =>
        cases h with
        | refl => simp
        | left h => cases h
        | right h => cases h

end StateLang.Expr
