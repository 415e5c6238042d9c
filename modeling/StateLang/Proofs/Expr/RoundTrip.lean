import StateLang.Document.Expr
import StateLang.Proofs.Expr.Flat
import StateLang.Proofs.Token.Lexeme

/-!
# Reading back what was written

An expression is written as its operands and operators with blanks between
them. The text has no parentheses, so reading it gives the tree that the binding
powers group, which is the tree that was written exactly if that is grouped.
-/

namespace StateLang

/-- An expression without variables whose constants are lexemes of their kind. -/
def Expr.Spelled : Expr → Prop
  | const kind text =>
      ∃ sort, Literal.constClass sort = kind ∧ Token.IsLexeme (.literal sort) text.toList
  | var _ => False
  | binary _ left right => left.Spelled ∧ right.Spelled

namespace Token

theorem separated_nil : Separated [] := by
  intro c s h
  cases h

theorem separated_blank (s : List Char) : Separated (' ' :: s) := by
  intro c t h
  cases h
  rfl

theorem operator_isLexeme (op : BinaryOp) : IsLexeme (.operator op) op.symbol.toList := by
  refine ⟨[], ?_⟩
  rcases op with op | op <;> cases op <;> decide +kernel

end Token

/-- The constants of an expression that was read are lexemes. -/
theorem Precedence.Derives.spelled {level : Precedence} {ts : List Token} {e : Expr} {n : Nat}
    (h : level.Derives ts e n) (hvars : e.vars = [])
    (hts : ∀ t ∈ ts, t.kind = .endOfFile ∨ t.kind = .unknown ∨
      Token.IsLexeme t.kind t.lexeme.toList) : e.Spelled := by
  induction h with
  | @constant t sort ht =>
      refine ⟨sort, rfl, ?_⟩
      rcases hts t List.mem_cons_self with hkind | hkind | hlexeme
      · simp [hkind] at ht
      · simp [hkind] at ht
      · exact ht ▸ hlexeme
  | name => cases hvars
  | group _ _ _ ih =>
      apply ih hvars
      intro t ht
      exact hts t (by simp [ht])
  | unit _ ih => exact ih hvars hts
  | binary _ _ _ _ ihl ihr =>
      obtain ⟨hl, hr⟩ := List.append_eq_nil_iff.mp hvars
      constructor
      · exact ihl hl fun t ht => hts t (List.mem_append_left _ ht)
      · exact ihr hr fun t ht => hts t (List.mem_append_right _ (List.mem_cons_of_mem _ ht))

namespace Expr

open Token (Separated separated_nil separated_blank spellings spellings_blank)

variable {e : Expr}

/-- The tokens of the text of an expression are its operands and operators. -/
theorem Spelled.render (h : e.Spelled) : ∃ text, e.render = .ok text ∧
    ∀ rest, Separated rest → ∃ written, spellings (text.toList ++ rest) = written ++ spellings rest ∧
      written.map Symbol.ofSpelling? = e.symbols.map some := by
  induction e with
  | const kind text =>
      obtain ⟨sort, rfl, hlexeme⟩ := h
      refine ⟨text, rfl, fun rest hrest => ⟨[(.literal sort, text)], ?_, rfl⟩⟩
      rw [hlexeme.spellings_separated hrest, String.ofList_toList]
      rfl
  | var v => exact h.elim
  | binary op l r ihl ihr =>
      obtain ⟨left, hleft, hl⟩ := ihl h.1
      obtain ⟨right, hright, hr⟩ := ihr h.2
      refine ⟨" " ++ left ++ " " ++ op.symbol ++ " " ++ right ++ " ", ?_, fun rest hrest => ?_⟩
      · rw [Expr.render, hleft, hright]
        rfl
      · have htext : (" " ++ left ++ " " ++ op.symbol ++ " " ++ right ++ " ").toList ++ rest =
            ' ' :: (left.toList ++
              ' ' :: (op.symbol.toList ++ ' ' :: (right.toList ++ ' ' :: rest))) := by simp
        obtain ⟨ks, hks, hls⟩ :=
          hl (' ' :: (op.symbol.toList ++ ' ' :: (right.toList ++ ' ' :: rest))) (separated_blank _)
        obtain ⟨ms, hms, hrs⟩ := hr (' ' :: rest) (separated_blank _)
        refine ⟨ks ++ (.operator op, op.symbol) :: ms, ?_, ?_⟩
        · rw [htext, spellings_blank rfl, hks, spellings_blank rfl,
            (Token.operator_isLexeme op).spellings_separated (separated_blank _),
            spellings_blank rfl, hms, spellings_blank rfl, String.ofList_toList]
          simp
        · rw [List.map_append, List.map_cons, hls, hrs, Expr.symbols]
          simp [Symbol.ofSpelling?]

/-- Reading the text of an expression gives its operands and operators as the powers group them. -/
theorem Spelled.parse_render (h : e.Spelled) : ∃ text, e.render = .ok text ∧ ∀ e', Expr.parse text = .ok e' ↔
    (e'.symbols = e.symbols ∧ e'.Grouped BinaryOp.power) ∧ e'.height ≤ maxDepth := by
  obtain ⟨text, htext, hspell⟩ := h.render
  obtain ⟨written, hwritten, hsymbols⟩ := hspell [] separated_nil
  obtain ⟨body, last, hscan, -, hparse⟩ := Expr.parse_iff text
  refine ⟨text, htext, fun e' => (hparse e').trans (phrase_flat_iff ?_)⟩
  have hbody : body.map Token.spelling = written := by
    have hall := Token.scan_spellings text
    have hend : spellings [] = [(.endOfFile, "")] := Token.spellings_end Token.Gap.after_nil
    rw [List.append_nil, hend] at hwritten
    rw [hscan, hwritten, List.map_append] at hall
    exact List.append_inj_left' hall rfl
  rw [← hsymbols, ← hbody, List.map_map]
  rfl

/-- What was read is spelled in lexemes and low enough to be read again. -/
theorem spelled_of_parse {source : String} (h : Expr.parse source = .ok e) (hvars : e.vars = []) :
    e.Spelled ∧ e.height ≤ maxDepth := by
  obtain ⟨body, last, hscan, -, hparse⟩ := Expr.parse_iff source
  obtain ⟨⟨_, -, hderives⟩, hheight⟩ := (hparse e).mp h
  refine ⟨hderives.spelled hvars fun t ht => ?_, hheight⟩
  exact Token.scan_isLexeme source t (hscan ▸ List.mem_append_left _ ht)

/-- An expression without variables that was read can be written. Reading the text back gives its
operands and operators grouped by the binding powers, if that tree is not too high; so it gives
the same tree if no grouping goes against the powers. -/
theorem parse_render_group {source : String} (h : Expr.parse source = .ok e) (hvars : e.vars = []) :
    ∃ text, e.render = .ok text ∧ (e.Grouped BinaryOp.power → Expr.parse text = .ok e) ∧
      ∀ e', Expr.parse text = .ok e' ↔
        Symbol.group? BinaryOp.power e.symbols = some e' ∧ e'.height ≤ maxDepth := by
  obtain ⟨hspelled, hheight⟩ := spelled_of_parse h hvars
  obtain ⟨text, htext, hread⟩ := hspelled.parse_render
  refine ⟨text, htext, fun hgrouped => (hread e).mpr ⟨⟨rfl, hgrouped⟩, hheight⟩, fun e' => ?_⟩
  rw [hread e', Symbol.group?_eq_some_iff]

/-- A sum with a product on its right is read back as it is. -/
theorem parse_render_group_sum :
    let e : Expr := .binary (.arith .add) (.const .int "1")
      (.binary (.arith .mul) (.const .int "2") (.const .int "3"))
    Expr.parse "1 + (2 * 3)" = .ok e ∧ e.vars = [] ∧ e.Grouped BinaryOp.power ∧
      ∃ text, e.render = .ok text ∧ Expr.parse text = .ok e := by
  intro e
  have hparse : Expr.parse "1 + (2 * 3)" = .ok e := Parser.ok_of_toOption (by decide +kernel)
  have hgrouped : e.Grouped BinaryOp.power := by simp [e, Grouped, BindsAt, BinaryOp.power, ArithOp.power]
  obtain ⟨text, htext, hback, -⟩ := parse_render_group hparse rfl
  exact ⟨hparse, rfl, hgrouped, text, htext, hback hgrouped⟩

/-- Grouping that only parentheses give is lost in the text. -/
theorem render_loses_grouping :
    let e : Expr := .binary (.arith .mul)
      (.binary (.arith .add) (.const .int "1") (.const .int "2")) (.const .int "3")
    Expr.parse "(1 + 2) * 3" = .ok e ∧ e.vars = [] ∧ e.render = .ok "  1 + 2  * 3 " ∧
      Expr.parse "  1 + 2  * 3 " ≠ .ok e := by
  intro e
  have hparse : Expr.parse "(1 + 2) * 3" = .ok e := Parser.ok_of_toOption (by decide +kernel)
  have hback : Expr.parse "  1 + 2  * 3 " = .ok (.binary (.arith .add) (.const .int "1")
      (.binary (.arith .mul) (.const .int "2") (.const .int "3"))) :=
    Parser.ok_of_toOption (by decide +kernel)
  refine ⟨hparse, rfl, rfl, ?_⟩
  rw [hback]
  simp [e]

end Expr

end StateLang
