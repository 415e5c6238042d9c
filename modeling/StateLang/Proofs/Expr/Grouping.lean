import StateLang.Expr.Basic

/-!
# Grouping a sequence of operands and operators

Without parentheses an expression is a sequence of operands and operators, and
a table of ranks says how it is grouped: a higher rank binds tighter, and equal
ranks group to the left. `Grouped` says this of a tree, `Symbol.group?` computes
the tree of a sequence, and each sequence of a tree has exactly one grouping.
-/

namespace StateLang

/-- A part of an expression without parentheses. An operand is a tree without operators. -/
inductive Symbol
  | operand (leaf : Expr)
  | operator (op : BinaryOp)
  deriving DecidableEq, Repr

namespace Expr

/-- The operands and operators of a tree, left to right. -/
def symbols : Expr → List Symbol
  | const kind text => [.operand (const kind text)]
  | var v => [.operand (var v)]
  | binary op left right => left.symbols ++ .operator op :: right.symbols

/-- The operators of a tree, left to right. -/
def operators : Expr → List BinaryOp
  | const _ _ => []
  | var _ => []
  | binary op left right => left.operators ++ op :: right.operators

/-- A tree without operators, or one whose topmost operator has at least rank `n`. -/
def BindsAt (rank : BinaryOp → Nat) (n : Nat) : Expr → Prop
  | const _ _ => True
  | var _ => True
  | binary op _ _ => n ≤ rank op

/-- Every left operand binds at least as tightly as its operator, every right operand tighter. -/
def Grouped (rank : BinaryOp → Nat) : Expr → Prop
  | const _ _ => True
  | var _ => True
  | binary op left right =>
      left.BindsAt rank (rank op) ∧ right.BindsAt rank (rank op + 1) ∧
        left.Grouped rank ∧ right.Grouped rank

/-- Put an operator and its right operand at the right end of a tree, as deep as the ranks say. -/
def attach (rank : BinaryOp → Nat) : Expr → BinaryOp → Expr → Expr
  | const kind text, op, operand => binary op (const kind text) operand
  | var v, op, operand => binary op (var v) operand
  | binary top left right, op, operand =>
      if rank top < rank op then binary top left (right.attach rank op operand)
      else binary op (binary top left right) operand

end Expr

namespace Symbol

/-- Take in the operators that follow a tree, one after the other. -/
def extend (rank : BinaryOp → Nat) : Expr → List Symbol → Expr
  | tree, operator op :: operand leaf :: rest => extend rank (tree.attach rank op leaf) rest
  | tree, _ => tree

/-- The tree of a sequence, if the sequence starts with an operand. -/
def group? (rank : BinaryOp → Nat) : List Symbol → Option Expr
  | operand leaf :: rest => some (extend rank leaf rest)
  | _ => none

def operator? : Symbol → Option BinaryOp
  | operand _ => none
  | operator op => some op

end Symbol

namespace Expr

variable {rank : BinaryOp → Nat} {m n : Nat} {op top : BinaryOp} {e l r : Expr}

/-! ## Ranks inside a grouped tree -/

theorem BindsAt.mono (h : e.BindsAt rank n) (hle : m ≤ n) : e.BindsAt rank m := by
  cases e with
  | const => trivial
  | var => trivial
  | binary => exact Nat.le_trans hle h

theorem filterMap_symbols (e : Expr) : e.symbols.filterMap Symbol.operator? = e.operators := by
  induction e with
  | const => rfl
  | var => rfl
  | binary op l r ihl ihr => simp [symbols, operators, ihl, ihr, Symbol.operator?]

/-- In a grouped tree the topmost operator has the least rank. -/
theorem Grouped.bindsAt_iff (h : e.Grouped rank) :
    e.BindsAt rank n ↔ ∀ op ∈ e.operators, n ≤ rank op := by
  induction e generalizing n with
  | const => simp [BindsAt, operators]
  | var => simp [BindsAt, operators]
  | binary top l r ihl ihr =>
      obtain ⟨hl, hr, hgl, hgr⟩ := h
      have hleft := (ihl hgl).mp hl
      have hright := (ihr hgr).mp hr
      simp only [operators, List.mem_append, List.mem_cons]
      constructor
      · intro hn op hop
        have hn' : n ≤ rank top := hn
        rcases hop with hop | rfl | hop
        · exact Nat.le_trans hn' (hleft op hop)
        · exact hn'
        · have := hright op hop
          omega
      · intro hall
        exact hall top (.inr (.inl rfl))

/-- A tree is grouped if its operands are and the ranks on both sides fit its operator. -/
theorem grouped_binary_iff : (binary op l r).Grouped rank ↔
    ((∀ op' ∈ l.operators, rank op ≤ rank op') ∧ ∀ op' ∈ r.operators, rank op < rank op') ∧
      l.Grouped rank ∧ r.Grouped rank := by
  constructor
  · intro h
    obtain ⟨hl, hr, hgl, hgr⟩ := h
    exact ⟨⟨hgl.bindsAt_iff.mp hl, hgr.bindsAt_iff.mp hr⟩, hgl, hgr⟩
  · intro h
    obtain ⟨⟨hl, hr⟩, hgl, hgr⟩ := h
    exact ⟨hgl.bindsAt_iff.mpr hl, hgr.bindsAt_iff.mpr hr, hgl, hgr⟩

/-! ## Attaching -/

theorem attach_of_bindsAt (h : e.BindsAt rank (rank op)) : e.attach rank op r = binary op e r := by
  cases e with
  | const => rfl
  | var => rfl
  | binary top l' r' =>
      have hle : rank op ≤ rank top := h
      simp [attach, Nat.not_lt.mpr hle]

/-- Attaching an operand and then an operator to it is attaching what they form. -/
theorem attach_attach (hlt : rank top < rank op) (hl : l.BindsAt rank (rank op)) (e : Expr) :
    (e.attach rank top l).attach rank op r = e.attach rank top (binary op l r) := by
  have hroot (e : Expr) : (binary top e l).attach rank op r = binary top e (binary op l r) := by
    simp [attach, hlt, attach_of_bindsAt hl]
  induction e with
  | const => exact hroot _
  | var => exact hroot _
  | binary op' l' r' _ ih =>
      by_cases hop : rank op' < rank top
      · have hop' : rank op' < rank op := by omega
        simp [attach, hop, hop', ih]
      · simp only [attach, hop, if_false]
        exact hroot _

theorem attach_symbols (e : Expr) :
    (e.attach rank op r).symbols = e.symbols ++ .operator op :: r.symbols := by
  induction e with
  | const => rfl
  | var => rfl
  | binary top l' r' _ ih =>
      by_cases hop : rank top < rank op
      · simp [attach, hop, symbols, ih]
      · simp [attach, hop, symbols]

theorem attach_operators (e : Expr) :
    (e.attach rank op r).operators = e.operators ++ op :: r.operators := by
  rw [← filterMap_symbols, attach_symbols, List.filterMap_append, filterMap_symbols]
  simp [Symbol.operator?, filterMap_symbols]

theorem Grouped.attach (h : e.Grouped rank) (hr : r.Grouped rank) (hnone : r.operators = []) :
    (e.attach rank op r).Grouped rank := by
  have hroot {e : Expr} (he : e.Grouped rank) (hle : ∀ op' ∈ e.operators, rank op ≤ rank op') :
      (binary op e r).Grouped rank :=
    grouped_binary_iff.mpr ⟨⟨hle, by simp [hnone]⟩, he, hr⟩
  induction e with
  | const => exact hroot h (by simp [operators])
  | var => exact hroot h (by simp [operators])
  | binary top l' r' _ ih =>
      obtain ⟨⟨hl', hr'⟩, hgl, hgr⟩ := grouped_binary_iff.mp h
      by_cases hop : rank top < rank op
      · simp only [Expr.attach, hop, if_true]
        refine grouped_binary_iff.mpr ⟨⟨hl', ?_⟩, hgl, ih hgr⟩
        intro op' hmem
        rw [attach_operators, hnone] at hmem
        simp only [List.mem_append, List.mem_singleton] at hmem
        rcases hmem with hmem | rfl
        · exact hr' op' hmem
        · exact hop
      · simp only [Expr.attach, hop, if_false]
        apply hroot h
        have hbinds : (binary top l' r').BindsAt rank (rank op) := Nat.not_lt.mp hop
        exact h.bindsAt_iff.mp hbinds

/-! ## Every sequence of a tree has a grouping -/

theorem exists_grouped_append (h : e.Grouped rank) (op : BinaryOp) (r : Expr) :
    ∃ c : Expr, c.Grouped rank ∧ c.symbols = e.symbols ++ .operator op :: r.symbols := by
  induction r generalizing e op with
  | const kind text =>
      exact ⟨e.attach rank op (const kind text), h.attach trivial rfl, attach_symbols e⟩
  | var v => exact ⟨e.attach rank op (var v), h.attach trivial rfl, attach_symbols e⟩
  | binary op' l r ihl ihr =>
      obtain ⟨c, hc, hcs⟩ := ihl h op
      obtain ⟨d, hd, hds⟩ := ihr hc op'
      exact ⟨d, hd, by simp [hds, hcs, symbols]⟩

theorem exists_grouped (rank : BinaryOp → Nat) (e : Expr) :
    ∃ c : Expr, c.Grouped rank ∧ c.symbols = e.symbols := by
  induction e with
  | const kind text => exact ⟨const kind text, trivial, rfl⟩
  | var v => exact ⟨var v, trivial, rfl⟩
  | binary op l r ihl _ =>
      obtain ⟨c, hc, hcs⟩ := ihl
      obtain ⟨d, hd, hds⟩ := exists_grouped_append hc op r
      exact ⟨d, hd, by rw [hds, hcs]; rfl⟩

end Expr

/-! ## Grouping by computation -/

namespace Symbol

variable {rank : BinaryOp → Nat} {op : BinaryOp} {e c r : Expr}

/-- An operand that binds tighter than its operator is attached as a whole. -/
theorem extend_operand (h : r.Grouped rank) (hb : r.BindsAt rank (rank op + 1)) (tree : Expr)
    (rest : List Symbol) :
    extend rank tree (operator op :: (r.symbols ++ rest)) =
      extend rank (tree.attach rank op r) rest := by
  induction r generalizing tree op rest with
  | const kind text => rfl
  | var v => rfl
  | binary op' l r ihl ihr =>
      obtain ⟨hl, hr, hgl, hgr⟩ := h
      have hlt : rank op < rank op' := hb
      have hsplit : (Expr.binary op' l r).symbols ++ rest =
          l.symbols ++ operator op' :: (r.symbols ++ rest) := by simp [Expr.symbols]
      rw [hsplit, ihl hgl (hl.mono hlt), ihr hgr hr, Expr.attach_attach hlt hl]

theorem group?_append (h : e.Grouped rank) (rest : List Symbol) :
    group? rank (e.symbols ++ rest) = some (extend rank e rest) := by
  induction e generalizing rest with
  | const kind text => rfl
  | var v => rfl
  | binary op l r ihl _ =>
      obtain ⟨hl, hr, hgl, hgr⟩ := h
      have hsplit : (Expr.binary op l r).symbols ++ rest =
          l.symbols ++ operator op :: (r.symbols ++ rest) := by simp [Expr.symbols]
      rw [hsplit, ihl hgl, extend_operand hgr hr, Expr.attach_of_bindsAt hl]

theorem group?_of_grouped (h : e.Grouped rank) : group? rank e.symbols = some e := by
  have happend := group?_append h []
  rwa [List.append_nil] at happend

/-- The tree that is computed for the sequence of a tree is its one grouping. -/
theorem group?_eq_some_iff :
    group? rank e.symbols = some c ↔ c.symbols = e.symbols ∧ c.Grouped rank := by
  constructor
  · intro h
    obtain ⟨d, hd, hds⟩ := Expr.exists_grouped rank e
    rw [← hds, group?_of_grouped hd] at h
    cases h
    exact ⟨hds, hd⟩
  · intro h
    rw [← h.1, group?_of_grouped h.2]

end Symbol

end StateLang
