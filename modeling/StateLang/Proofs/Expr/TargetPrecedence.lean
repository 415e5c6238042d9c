import StateLang.Proofs.Expr.Flat

/-!
# Precedence in the documents

Documents are C++, which ranks `==` and `!=` below the other comparisons, where
this language ranks all comparisons alike. So the two group the same sequence of
operands and operators alike exactly if no ordering follows an equality.
-/

namespace StateLang

namespace BinaryOp

/-- The rank of an operator in the language of the documents. -/
def targetRank : BinaryOp → Nat
  | arith .mul | arith .div => 3
  | arith .add | arith .sub => 2
  | compare .lt | compare .le | compare .gt | compare .ge => 1
  | compare .eq | compare .ne => 0

def IsEquality (op : BinaryOp) : Prop := op = compare .eq ∨ op = compare .ne
  deriving Decidable

def IsOrdering (op : BinaryOp) : Prop :=
  op = compare .lt ∨ op = compare .le ∨ op = compare .gt ∨ op = compare .ge
  deriving Decidable

/-- The later of two operators is no ordering if the first is an equality. -/
def InOrder (first later : BinaryOp) : Prop := first.IsEquality → ¬ later.IsOrdering
  deriving Decidable

variable {op op' : BinaryOp}

theorem targetRank_lt_of_power_lt (h : op.power < op'.power) : op.targetRank < op'.targetRank := by
  rcases op with op | op <;> rcases op' with op' | op' <;> cases op <;> cases op' <;>
    simp_all [power, ArithOp.power, CompareOp.power, targetRank]

/-- An operator that binds no tighter has a lower rank too, unless both are comparisons and the
ranks tell them apart. -/
theorem targetRank_le_iff (h : op.power ≤ op'.power) :
    op.targetRank ≤ op'.targetRank ↔ InOrder op' op := by
  rcases op with op | op <;> rcases op' with op' | op' <;> cases op <;> cases op' <;>
    simp_all [power, ArithOp.power, CompareOp.power, targetRank, InOrder, IsEquality, IsOrdering]

theorem inOrder_of_power_lt (h : op.power < op'.power) (first : BinaryOp) : InOrder first op' := by
  rcases op with op | op <;> rcases op' with op' | op' <;> cases op <;> cases op' <;>
    simp_all [power, ArithOp.power, CompareOp.power, InOrder, IsOrdering]

end BinaryOp

namespace Expr

open BinaryOp (InOrder targetRank)

variable {e : Expr}

/-- A tree that the powers group is grouped for the documents if its operators are in order. -/
theorem Grouped.target_iff (h : e.Grouped BinaryOp.power) :
    e.Grouped targetRank ↔ e.operators.Pairwise InOrder := by
  induction e with
  | const => simp [Grouped, operators]
  | var => simp [Grouped, operators]
  | binary op l r ihl ihr =>
      obtain ⟨⟨hl, hr⟩, hgl, hgr⟩ := grouped_binary_iff.mp h
      have hleft : (∀ op' ∈ l.operators, op.targetRank ≤ op'.targetRank) ↔
          ∀ op' ∈ l.operators, InOrder op' op :=
        forall₂_congr fun op' hop' => BinaryOp.targetRank_le_iff (hl op' hop')
      have hright : ∀ op' ∈ r.operators, op.targetRank < op'.targetRank :=
        fun op' hop' => BinaryOp.targetRank_lt_of_power_lt (hr op' hop')
      have hlater (first : BinaryOp) : ∀ op' ∈ r.operators, InOrder first op' :=
        fun op' hop' => BinaryOp.inOrder_of_power_lt (hr op' hop') first
      rw [grouped_binary_iff, hleft, ihl hgl, ihr hgr, operators, List.pairwise_append,
        List.pairwise_cons]
      constructor
      · intro h
        obtain ⟨⟨hop, -⟩, hpl, hpr⟩ := h
        refine ⟨hpl, ⟨hlater op, hpr⟩, fun first hfirst later hmem => ?_⟩
        rcases List.mem_cons.mp hmem with rfl | hmem
        · exact hop first hfirst
        · exact hlater first later hmem
      · intro h
        obtain ⟨hpl, ⟨-, hpr⟩, hboth⟩ := h
        exact ⟨⟨fun first hfirst => hboth first hfirst op List.mem_cons_self, hright⟩, hpl, hpr⟩

/-- A source without parentheses that is read as an expression has the grouping that its operands
and operators have in the documents exactly if no ordering follows an equality. -/
theorem parse_eq_target_group_iff {source : String} (h : Expr.parse source = .ok e)
    (hflat : ∀ t ∈ Token.scan source, t.kind ≠ .punctuation .lparen) :
    let sequence := (Token.scan source).filterMap Token.symbol?
    e.symbols = sequence ∧ ∃ c, Symbol.group? targetRank sequence = some c ∧
      (e = c ↔ (sequence.filterMap Symbol.operator?).Pairwise InOrder) := by
  intro sequence
  obtain ⟨body, last, hscan, hlast, hparse⟩ := Expr.parse_iff source
  obtain ⟨⟨n, -, hd⟩, -⟩ := (hparse e).mp h
  have hsequence : sequence = e.symbols := by
    simp only [sequence]
    rw [hscan, List.filterMap_append, hd.symbols,
      List.filterMap_cons_none (Token.symbol?_of_end hlast), List.filterMap_nil, List.append_nil]
  have hgrouped := (hd.grouped fun t ht => hflat t (hscan ▸ List.mem_append_left _ ht)).1
  obtain ⟨c, hc, hcs⟩ := exists_grouped targetRank e
  rw [hsequence, filterMap_symbols, ← hgrouped.target_iff]
  refine ⟨rfl, c, Symbol.group?_eq_some_iff.mpr ⟨hcs, hc⟩, ?_⟩
  constructor
  · intro heq
    exact heq ▸ hc
  · intro he
    have hsame := Symbol.group?_of_grouped he
    rw [← hcs, Symbol.group?_of_grouped hc] at hsame
    exact (Option.some.inj hsame).symm

/-- An equality after an ordering is grouped alike. -/
theorem parse_eq_target_group_iff_ordering_first :
    let e : Expr := .binary (.compare .eq)
      (.binary (.compare .lt) (.const .int "1") (.const .int "2")) (.const .bool "true")
    Expr.parse "1 < 2 == true" = .ok e ∧
      (∀ t ∈ Token.scan "1 < 2 == true", t.kind ≠ .punctuation .lparen) ∧
      Symbol.group? targetRank ((Token.scan "1 < 2 == true").filterMap Token.symbol?) = some e := by
  intro e
  have hparse : Expr.parse "1 < 2 == true" = .ok e := Parser.ok_of_toOption (by decide +kernel)
  have hflat : ∀ t ∈ Token.scan "1 < 2 == true", t.kind ≠ .punctuation .lparen := by decide +kernel
  obtain ⟨hsymbols, c, hc, heq⟩ := parse_eq_target_group_iff hparse hflat
  have horder : (e.symbols.filterMap Symbol.operator?).Pairwise InOrder := by decide
  rw [hsymbols] at horder
  exact ⟨hparse, hflat, (heq.mpr horder).symm ▸ hc⟩

/-- An ordering after an equality is grouped to its left here and binds tighter in the documents. -/
theorem parse_ne_target_group :
    let e : Expr := .binary (.compare .lt)
      (.binary (.compare .eq) (.const .int "1") (.const .int "2")) (.const .int "3")
    let c : Expr := .binary (.compare .eq) (.const .int "1")
      (.binary (.compare .lt) (.const .int "2") (.const .int "3"))
    Expr.parse "1 == 2 < 3" = .ok e ∧
      (∀ t ∈ Token.scan "1 == 2 < 3", t.kind ≠ .punctuation .lparen) ∧
      Symbol.group? targetRank ((Token.scan "1 == 2 < 3").filterMap Token.symbol?) = some c ∧
      e ≠ c :=
  ⟨Parser.ok_of_toOption (by decide +kernel), by decide +kernel, by decide +kernel, by decide⟩

end Expr

end StateLang
