import StateLang.Proofs.Expr.Climbing
import StateLang.Proofs.Expr.Grouping
import StateLang.Proofs.Token.Scan

/-!
# Expressions without parentheses

The tokens of an expression are its operands and operators in order, and its
parentheses. Without parentheses the grammar forms one tree of them: the one
that the binding powers group.
-/

namespace StateLang

/-- The part of an expression that a token with this spelling is. Parentheses are none. -/
def Symbol.ofSpelling? : Token.Kind × String → Option Symbol
  | (.operator op, _) => some (.operator op)
  | (.identifier, lexeme) => some (.operand (.var (.ofName lexeme)))
  | (.literal sort, lexeme) => some (.operand (.const sort.constClass lexeme))
  | _ => none

def Token.symbol? (t : Token) : Option Symbol := Symbol.ofSpelling? t.spelling

namespace Symbol

variable {kind : Token.Kind} {lexeme : String}

/-- A symbol says what its token is. -/
theorem ofSpelling?_cases {symbol : Symbol} (h : ofSpelling? (kind, lexeme) = some symbol) :
    (∃ op, symbol = .operator op ∧ kind = .operator op) ∨
    (symbol = .operand (.var (.ofName lexeme)) ∧ kind = .identifier) ∨
    ∃ sort, symbol = .operand (.const sort.constClass lexeme) ∧ kind = .literal sort := by
  unfold ofSpelling? at h
  split at h
  · next op _ heq =>
      cases heq
      cases h
      exact .inl ⟨op, rfl, rfl⟩
  · next heq =>
      cases heq
      cases h
      exact .inr (.inl ⟨rfl, rfl⟩)
  · next sort _ heq =>
      cases heq
      cases h
      exact .inr (.inr ⟨sort, rfl, rfl⟩)
  · cases h

end Symbol

namespace Token

variable {t : Token}

theorem symbol?_of_literal {sort : Literal} (h : t.kind = .literal sort) :
    t.symbol? = some (.operand (.const sort.constClass t.lexeme)) := by
  rw [symbol?, spelling, h]
  rfl

theorem symbol?_of_name (h : t.kind = .identifier) :
    t.symbol? = some (.operand (.var (.ofName t.lexeme))) := by
  rw [symbol?, spelling, h]
  rfl

theorem symbol?_of_operator {op : BinaryOp} (h : t.kind = .operator op) :
    t.symbol? = some (.operator op) := by
  rw [symbol?, spelling, h]
  rfl

theorem symbol?_of_mark {mark : Punctuation} (h : t.kind = .punctuation mark) : t.symbol? = none := by
  rw [symbol?, spelling, h]
  rfl

theorem symbol?_of_end (h : t.kind = .endOfFile) : t.symbol? = none := by
  rw [symbol?, spelling, h]
  rfl

end Token

namespace Precedence

variable {level : Precedence} {ts : List Token} {e : Expr} {n : Nat}

/-! ## What the grammar forms -/

/-- The operands and operators of a tree are those of its tokens. -/
theorem Derives.symbols (h : level.Derives ts e n) : ts.filterMap Token.symbol? = e.symbols := by
  induction h with
  | constant ht =>
      rw [List.filterMap_cons_some (Token.symbol?_of_literal ht)]
      rfl
  | name ht =>
      rw [List.filterMap_cons_some (Token.symbol?_of_name ht)]
      rfl
  | group ho _ hc ih =>
      rw [List.filterMap_cons_none (Token.symbol?_of_mark ho), List.filterMap_append, ih,
        List.filterMap_cons_none (Token.symbol?_of_mark hc), List.filterMap_nil, List.append_nil]
  | unit _ ih => exact ih
  | binary _ _ ht _ ihl ihr =>
      rw [List.filterMap_append, ihl, List.filterMap_cons_some (Token.symbol?_of_operator ht), ihr]
      rfl

/-- Without parentheses the tree is grouped by the powers, and the nesting is what the levels
below leave. -/
theorem Derives.grouped (h : level.Derives ts e n)
    (hflat : ∀ t ∈ ts, t.kind ≠ .punctuation .lparen) :
    e.Grouped BinaryOp.power ∧ (∀ op ∈ e.operators, level.rank ≤ op.precedence.rank) ∧
      n + level.rank ≤ 3 := by
  induction h with
  | constant => exact ⟨trivial, by simp [Expr.operators], by decide⟩
  | name => exact ⟨trivial, by simp [Expr.operators], by decide⟩
  | group ho => exact absurd ho (hflat _ List.mem_cons_self)
  | @unit level _ _ _ _ ih =>
      obtain ⟨hgrouped, hops, hle⟩ := ih hflat
      have hrank := rank_le_tighter level
      exact ⟨hgrouped, fun op hop => Nat.le_trans hrank (hops op hop), by omega⟩
  | binary hop _ _ _ ihl ihr =>
      subst hop
      obtain ⟨hgl, hopsl, hlel⟩ := ihl fun t ht => hflat t (List.mem_append_left _ ht)
      obtain ⟨hgr, hopsr, hler⟩ := ihr fun t ht =>
        hflat t (List.mem_append_right _ (List.mem_cons_of_mem _ ht))
      rw [tighter_rank_of_op] at hopsr hler
      refine ⟨Expr.grouped_binary_iff.mpr ⟨⟨?_, ?_⟩, hgl, hgr⟩, ?_, by omega⟩
      · exact fun op' hop' => rank_le_iff_power_le.mp (hopsl op' hop')
      · exact fun op' hop' => rank_lt_iff_power_lt.mp (hopsr op' hop')
      · intro op' hop'
        simp only [Expr.operators, List.mem_append, List.mem_cons] at hop'
        rcases hop' with hop' | rfl | hop'
        · exact hopsl op' hop'
        · exact Nat.le_refl _
        · exact Nat.le_of_succ_le (hopsr op' hop')

/-- A tree that the powers group is formed of its operands and operators alone. -/
theorem derives_of_grouped (h : e.Grouped BinaryOp.power)
    (hops : ∀ op ∈ e.operators, level.rank ≤ op.precedence.rank)
    (hts : ts.map Token.symbol? = e.symbols.map some) : ∃ n, level.Derives ts e n := by
  induction e generalizing level ts with
  | const kind text =>
      obtain ⟨t, rfl, ht⟩ := List.map_eq_singleton_iff.mp hts
      rcases Symbol.ofSpelling?_cases ht with ⟨_, heq, -⟩ | ⟨heq, -⟩ | ⟨sort, heq, hsort⟩ <;> cases heq
      exact ⟨0, (Derives.constant hsort).loosen level.rank_le_three⟩
  | var v =>
      obtain ⟨t, rfl, ht⟩ := List.map_eq_singleton_iff.mp hts
      rcases Symbol.ofSpelling?_cases ht with ⟨_, heq, -⟩ | ⟨heq, hname⟩ | ⟨_, heq, -⟩ <;> cases heq
      exact ⟨0, (Derives.name hname).loosen level.rank_le_three⟩
  | binary op l r ihl ihr =>
      obtain ⟨⟨hl, hr⟩, hgl, hgr⟩ := Expr.grouped_binary_iff.mp h
      rw [Expr.symbols, List.map_append, List.map_cons] at hts
      obtain ⟨xs, tail, rfl, hxs, htail⟩ := List.map_eq_append_iff.mp hts
      obtain ⟨t, ys, rfl, ht, hys⟩ := List.map_eq_cons_iff.mp htail
      have hop : t.kind = .operator op := by
        rcases Symbol.ofSpelling?_cases ht with ⟨_, heq, hop⟩ | ⟨heq, -⟩ | ⟨_, heq, -⟩ <;> cases heq
        exact hop
      have hleft : ∀ op' ∈ l.operators, op.precedence.rank ≤ op'.precedence.rank :=
        fun op' hop' => rank_le_iff_power_le.mpr (hl op' hop')
      have hright : ∀ op' ∈ r.operators, op.precedence.tighter.rank ≤ op'.precedence.rank := by
        intro op' hop'
        rw [tighter_rank_of_op]
        exact rank_lt_iff_power_lt.mpr (hr op' hop')
      obtain ⟨m, hdl⟩ := ihl hgl hleft hxs
      obtain ⟨n, hdr⟩ := ihr hgr hright hys
      have htop : level.rank ≤ op.precedence.rank := hops op (by simp [Expr.operators])
      exact ⟨max m (1 + n), (Derives.binary rfl hdl hop hdr).loosen htop⟩

end Precedence

variable {ts : List Token} {s : List Symbol} {e : Expr}

theorem filterMap_symbol? (h : ts.map Token.symbol? = s.map some) : ts.filterMap Token.symbol? = s := by
  have hid : (ts.map Token.symbol?).filterMap id = ts.filterMap Token.symbol? := by
    rw [List.filterMap_map]
    rfl
  rw [← hid, h, List.filterMap_map]
  exact List.filterMap_some

/-- Operands and operators alone form the one tree that the powers group. -/
theorem Expr.phrase_flat_iff (h : ts.map Token.symbol? = s.map some) :
    e.Phrase ts ↔ (e.symbols = s ∧ e.Grouped BinaryOp.power) ∧ e.height ≤ maxDepth := by
  have hflat : ∀ t ∈ ts, t.kind ≠ .punctuation .lparen := by
    intro t ht hkind
    have hmem : t.symbol? ∈ s.map some := h ▸ List.mem_map_of_mem ht
    rw [Token.symbol?_of_mark hkind] at hmem
    simp at hmem
  constructor
  · intro hphrase
    obtain ⟨⟨n, -, hd⟩, hheight⟩ := hphrase
    exact ⟨⟨hd.symbols.symm.trans (filterMap_symbol? h), (hd.grouped hflat).1⟩, hheight⟩
  · intro he
    obtain ⟨⟨rfl, hgrouped⟩, hheight⟩ := he
    obtain ⟨n, hd⟩ : ∃ n, Precedence.comparison.Derives ts e n :=
      Precedence.derives_of_grouped hgrouped (fun _ _ => Nat.zero_le _) h
    have hn := (hd.grouped hflat).2.2
    exact ⟨⟨n, by simp only [maxDepth]; omega, hd⟩, hheight⟩

/-! ## Sources that are one expression -/

theorem Parser.wholeExpr_reads :
    Reads 0 wholeExpr (fun ts e => Expr.Phrase ts e) (· = .endOfFile) := by
  refine ((expr_reads 0 0).bind (fun e => Reads.expectEnd.map fun _ => e) ?_).congr fun ts e => ?_
  · intro e ts e' k h hk
    obtain ⟨_, rfl, -⟩ := h
    simp [EndsExpr, firstKind, hk, Token.Kind.exprRule]
  · constructor
    · intro h
      obtain ⟨xs, a, ys, rfl, hphrase, -, rfl, rfl⟩ := h
      rw [List.append_nil]
      exact hphrase
    · intro h
      exact ⟨ts, e, [], (List.append_nil ts).symm, h, (), rfl, rfl⟩

/-- A source is read as an expression exactly if its tokens before the end form it. -/
theorem Expr.parse_iff (source : String) :
    ∃ body last, Token.scan source = body ++ [last] ∧ last.kind = .endOfFile ∧
      ∀ e, Expr.parse source = .ok e ↔ e.Phrase body := by
  obtain ⟨body, last, hscan, hlast, hbody⟩ := Token.scan_ends source
  refine ⟨body, last, hscan, hlast, fun e => ?_⟩
  rw [Expr.parse, hscan]
  exact Parser.wholeExpr_reads.read_iff hlast hbody

end StateLang
