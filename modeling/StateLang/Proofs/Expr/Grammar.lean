import StateLang.Expr.Parser

/-!
# The grammar of expressions

Four levels, the loosest first. Operators of one level group to the left.

    comparison = comparison ("==" | "!=" | "<" | "<=" | ">" | ">=") sum | sum
    sum        = sum ("+" | "-") term | term
    term       = term ("*" | "/") factor | factor
    factor     = literal | variable | "(" comparison ")"

A derivation knows its nesting: how many expressions inside one another a
reader meets that reads left operands in place and opens a new expression for a
right operand and inside parentheses.
-/

namespace StateLang

/-- How tightly an expression holds together. -/
inductive Precedence
  | comparison
  | sum
  | term
  | factor
  deriving DecidableEq, Repr

/-- The class of the constant that a literal is. -/
def Literal.constClass : Literal → ConstKind
  | int => .int
  | float => .float
  | string => .string
  | char => .char
  | true | false => .bool

theorem Token.Kind.constKind?_eq_some_iff {kind : Token.Kind} {c : ConstKind} :
    kind.constKind? = some c ↔ ∃ sort, kind = .literal sort ∧ sort.constClass = c := by
  constructor
  · intro h
    cases kind with
    | literal sort =>
        refine ⟨sort, rfl, Option.some.inj (Eq.trans ?_ h)⟩
        cases sort <;> rfl
    | _ => cases h
  · intro h
    obtain ⟨sort, rfl, rfl⟩ := h
    cases sort <;> rfl

/-- The level at which an operator stands. -/
def BinaryOp.precedence : BinaryOp → Precedence
  | compare _ => .comparison
  | arith .add | arith .sub => .sum
  | arith .mul | arith .div => .term

namespace Precedence

/-- The next tighter level; none is tighter than a factor. -/
def tighter : Precedence → Precedence
  | comparison => sum
  | sum => term
  | term => factor
  | factor => factor

def rank : Precedence → Nat
  | comparison => 0
  | sum => 1
  | term => 2
  | factor => 3

/-- The loosest level whose operators all bind tighter than `power`. -/
def ofPower (power : Nat) : Precedence :=
  if power < 30 then comparison
  else if power < 50 then sum
  else if power < 60 then term
  else factor

/-- The tokens `ts` form the expression `e` at a level, by a derivation of nesting `n`. -/
inductive Derives : Precedence → List Token → Expr → Nat → Prop
  | constant {t : Token} {sort : Literal} (ht : t.kind = .literal sort) :
      Derives factor [t] (.const sort.constClass t.lexeme) 0
  | name {t : Token} (ht : t.kind = .identifier) :
      Derives factor [t] (.var (.ofName t.lexeme)) 0
  | group {opening closing : Token} {ts : List Token} {e : Expr} {n : Nat}
      (ho : opening.kind = .punctuation .lparen) (inner : Derives comparison ts e n)
      (hc : closing.kind = .punctuation .rparen) :
      Derives factor (opening :: (ts ++ [closing])) e (1 + n)
  | unit {level : Precedence} {ts : List Token} {e : Expr} {n : Nat}
      (inner : Derives level.tighter ts e n) : Derives level ts e n
  | binary {level : Precedence} {op : BinaryOp} {t : Token} {xs ys : List Token} {l r : Expr} {m n : Nat}
      (hop : op.precedence = level) (left : Derives level xs l m) (ht : t.kind = .operator op)
      (right : Derives level.tighter ys r n) :
      Derives level (xs ++ t :: ys) (.binary op l r) (max m (1 + n))

/-! ## Levels and binding powers -/

theorem tighter_rank {level : Precedence} (h : level ≠ factor) : level.tighter.rank = level.rank + 1 := by
  cases level <;> simp_all [tighter, rank]

theorem rank_le_tighter (level : Precedence) : level.rank ≤ level.tighter.rank := by
  cases level <;> decide

theorem tighter_rank_of_op (op : BinaryOp) :
    op.precedence.tighter.rank = op.precedence.rank + 1 := by
  rcases op with op | op <;> cases op <;> rfl

theorem rank_le_three (level : Precedence) : level.rank ≤ 3 := by cases level <;> simp [rank]

theorem rank_injective {level level' : Precedence} (h : level.rank = level'.rank) : level = level' := by
  cases level <;> cases level' <;> simp_all [rank]

theorem ofPower_power (op : BinaryOp) : ofPower op.power = op.precedence.tighter := by
  rcases op with op | op <;> cases op <;> rfl

/-- An operator binds tighter than `power` exactly at the levels that `power` selects. -/
theorem rank_ofPower_le_iff {power : Nat} {op : BinaryOp} :
    (ofPower power).rank ≤ op.precedence.rank ↔ power < op.power := by
  have hpower : op.power = 30 ∧ op.precedence = comparison ∨ op.power = 50 ∧ op.precedence = sum ∨
      op.power = 60 ∧ op.precedence = term := by
    rcases op with op | op <;> cases op <;> simp [BinaryOp.precedence, BinaryOp.power,
      ArithOp.power, CompareOp.power]
  rcases hpower with ⟨hp, hl⟩ | ⟨hp, hl⟩ | ⟨hp, hl⟩ <;> rw [hp, hl] <;> grind [ofPower, rank]

theorem rank_le_iff_power_le {op op' : BinaryOp} :
    op.precedence.rank ≤ op'.precedence.rank ↔ op.power ≤ op'.power := by
  rcases op with op | op <;> rcases op' with op' | op' <;> cases op <;> cases op' <;> decide

theorem rank_lt_iff_power_lt {op op' : BinaryOp} :
    op.precedence.rank < op'.precedence.rank ↔ op.power < op'.power := by
  rw [← Nat.not_le, ← Nat.not_le, rank_le_iff_power_le]

/-! ## Derivations -/

namespace Derives

variable {level loose : Precedence} {ts : List Token} {e : Expr} {n : Nat}

/-- What a level derives every looser level derives. -/
theorem loosen (h : level.Derives ts e n) (hle : loose.rank ≤ level.rank) :
    loose.Derives ts e n := by
  obtain ⟨k, hk⟩ := Nat.exists_eq_add_of_le hle
  induction k generalizing loose with
  | zero => exact rank_injective hk ▸ h
  | succ k ih =>
      have hne : loose ≠ factor := by
        intro h
        subst h
        have hfactor : factor.rank = 3 := rfl
        have hbound := level.rank_le_three
        omega
      have hstep := tighter_rank hne
      exact .unit (ih (by omega) (by omega))

theorem ne_nil (h : level.Derives ts e n) : ts ≠ [] := by
  induction h with
  | constant => simp
  | name => simp
  | group => simp
  | unit _ ih => exact ih
  | binary => simp

/-- An end is in no expression. -/
theorem inside (h : level.Derives ts e n) : ∀ t ∈ ts, t.kind ≠ .endOfFile := by
  induction h with
  | constant ht =>
      intro u hu hk
      simp only [List.mem_singleton] at hu
      simp [← hu, hk] at ht
  | name ht =>
      intro u hu hk
      simp only [List.mem_singleton] at hu
      simp [← hu, hk] at ht
  | group ho _ hc ih =>
      intro u hu
      simp only [List.mem_cons, List.mem_append, List.not_mem_nil, or_false] at hu
      rcases hu with rfl | hu | rfl
      · simp [ho]
      · exact ih u hu
      · simp [hc]
  | unit _ ih => exact ih
  | binary _ _ ht _ ihl ihr =>
      intro u hu
      rcases List.mem_append.mp hu with hu | hu
      · exact ihl u hu
      · rcases List.mem_cons.mp hu with rfl | hu
        · simp [ht]
        · exact ihr u hu

end Derives

end Precedence

/-- The tokens `ts` form `e` at a level by a derivation whose nesting is less than `levels`, and
the tree is not too high. -/
def ExprPhrase (levels : Nat) (level : Precedence) (ts : List Token) (e : Expr) : Prop :=
  (∃ n, n < levels ∧ level.Derives ts e n) ∧ e.height ≤ maxDepth

/-- `expression`, within both limits on expressions. -/
def Expr.Phrase (ts : List Token) (e : Expr) : Prop := ExprPhrase maxDepth .comparison ts e

theorem Expr.height_pos (e : Expr) : 0 < e.height := by cases e <;> simp only [Expr.height] <;> omega

end StateLang
