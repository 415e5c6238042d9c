import StateLang.Proofs.Expr.Grammar
import StateLang.Proofs.Parser

/-!
# Precedence climbing reads the grammar of expressions

The reader and the grammar cut an expression differently. The grammar has a
level for each binding power; the reader takes in operators of all levels in one
loop, and what it has read so far moves to looser levels as the operators do.
Both limits are exact: the nesting of the derivation stays below the levels the
reader has left, and the height of the tree below the greatest height.
-/

namespace StateLang

open StateLang.Parser

/-- An expression read down to `power` ends before a token that binds no tighter. -/
def EndsExpr (power : Nat) (kind : Token.Kind) : Prop := kind.exprRule.power ≤ power

/-- A reader of operands reads expressions of every power, and notes their heights. -/
structure ReadsOperands (depth levels : Nat) (operand : Nat → ParseM Expr) : Prop where
  reads : ∀ power, Reads depth (operand power) (ExprPhrase levels (.ofPower power)) (EndsExpr power)
  height : ∀ {power p q e}, p.Ready depth → operand power p = .ok e q → q.height = e.height

namespace Parser

variable {depth levels power fuel h n : Nat} {operand : Nat → ParseM Expr} {p q m : Parser}
  {e left : Expr} {ts xs : List Token} {level : Precedence}

/-! ## Tokens and their rules -/

theorem exprRule_operator (op : BinaryOp) : ∃ rule : ContinueRule,
    (Token.Kind.operator op).exprRule = ⟨none, some rule, op.power⟩ ∧
      rule.operator? (.operator op) = some op := by
  cases op with
  | arith op => exact ⟨.arithmetic, rfl, rfl⟩
  | compare op => exact ⟨.comparison, rfl, rfl⟩

theorem continue?_eq_some {kind : Token.Kind} {rule : ContinueRule}
    (h : kind.exprRule.continue? = some rule) : ∃ op, kind = .operator op := by
  cases kind with
  | operator op => exact ⟨op, rfl⟩
  | punctuation mark => cases mark <;> simp [Token.Kind.exprRule] at h
  | _ => simp [Token.Kind.exprRule] at h

theorem power_of_operator {kind : Token.Kind} {op : BinaryOp} (hk : kind = .operator op) :
    kind.exprRule.power = op.power := by
  obtain ⟨rule, hrule, -⟩ := exprRule_operator op
  rw [hk, hrule]

/-! ## Starting an expression -/

@[simp] theorem setHeight_bind {β : Type} (f : Unit → ParseM β) (p : Parser) (h : Nat) :
    (setHeight h >>= f) p = f () { p with height := h } := rfl

theorem constant_ok_iff : constant p = .ok e q ↔ ∃ sort, p.current.kind = .literal sort ∧
    .const sort.constClass p.current.lexeme = e ∧ { p.next with height := 1 } = q := by
  have hkind : constant p = .ok e q ↔ ∃ kind, p.current.kind.constKind? = some kind ∧
      .const kind p.current.lexeme = e ∧ { p.next with height := 1 } = q := by
    simp only [constant, advance_bind]
    cases p.current.kind.constKind? with
    | none =>
        constructor
        · intro h
          cases h
        · simp
    | some kind => simp
  simp only [hkind, Token.Kind.constKind?_eq_some_iff]
  constructor
  · intro h
    obtain ⟨_, ⟨sort, hsort, rfl⟩, hanswer⟩ := h
    exact ⟨sort, hsort, hanswer⟩
  · intro h
    obtain ⟨sort, hsort, hanswer⟩ := h
    exact ⟨_, ⟨sort, hsort, rfl⟩, hanswer⟩

theorem startName_ok_iff : startBy operand .name p = .ok e q ↔ p.current.kind = .identifier ∧
    .var (.ofName p.current.lexeme) = e ∧ { p.next with height := 1 } = q := by
  simp only [startBy, identifier, bind_ok_iff, expect_ok_iff, setHeight_bind, pure_ok_iff]
  constructor
  · intro h
    obtain ⟨v, m, ⟨t, m', ⟨hk, rfl, rfl⟩, rfl, rfl⟩, rfl, rfl⟩ := h
    exact ⟨hk, rfl, rfl⟩
  · intro h
    obtain ⟨hk, rfl, rfl⟩ := h
    exact ⟨_, _, ⟨_, _, ⟨hk, rfl, rfl⟩, rfl, rfl⟩, rfl, rfl⟩

def GroupPhrase (levels : Nat) (ts : List Token) (e : Expr) : Prop :=
  ∃ opening inner closing, ts = opening :: (inner ++ [closing]) ∧
    opening.kind = .punctuation .lparen ∧ ExprPhrase levels .comparison inner e ∧
    closing.kind = .punctuation .rparen

theorem startGroup_reads (hop : ReadsOperands depth levels operand) :
    Reads depth (startBy operand .group) (GroupPhrase levels) Anything := by
  have hinner := (hop.reads 0).bind (fun inner => Reads.markPure .rparen inner)
    fun {_ _ _ k} hclose _ => by
      obtain ⟨t, rfl, hk, -⟩ := hclose
      simp [EndsExpr, firstKind, hk, Token.Kind.exprRule]
  refine ((Reads.expectMark .lparen).tokenBind fun _ => hinner).congr fun ts e => ?_
  constructor
  · intro h
    obtain ⟨t, _, _, rfl, ho, xs, e', _, rfl, he, t', rfl, hc, rfl⟩ := h
    exact ⟨t, xs, t', rfl, ho, he, hc⟩
  · intro h
    obtain ⟨t, xs, t', rfl, ho, he, hc⟩ := h
    exact ⟨t, (), _, rfl, ho, xs, e, [t'], rfl, he, t', rfl, hc, rfl⟩

theorem startGroup_height (hop : ReadsOperands depth levels operand) (hp : p.Ready depth)
    (hok : startBy operand .group p = .ok e q) : q.height = e.height := by
  simp only [startBy, expectMark, bind_ok_iff, expect_ok_iff, pure_ok_iff] at hok
  obtain ⟨_, _, ⟨_, _, ⟨hk, -, rfl⟩, -, rfl⟩, inner, m, hinner, _, _, ⟨_, _, ⟨-, -, rfl⟩, -, rfl⟩,
    rfl, rfl⟩ := hok
  rw [next_height]
  exact hop.height ((next_crosses hp (by simp [hk])).ready hp) hinner

/-- What starts an expression is a factor. -/
theorem startBy_sound (hop : ReadsOperands depth levels operand) {rule : StartRule}
    (hp : p.Ready depth) (hrule : p.current.kind.exprRule.start? = some rule)
    (hok : startBy operand rule p = .ok e q) :
    ∃ ts, p.Crosses ts q ∧ ExprPhrase (levels + 1) .factor ts e ∧ q.height = e.height := by
  have hleaf : (1 : Nat) ≤ maxDepth := by decide
  cases rule with
  | literal =>
      obtain ⟨sort, hkind, rfl, rfl⟩ := constant_ok_iff.mp hok
      have hend : p.current.kind ≠ .endOfFile := by simp [hkind]
      exact ⟨_, (next_crosses hp hend).withHeight 1,
        ⟨⟨0, Nat.succ_pos _, .constant hkind⟩, hleaf⟩, rfl⟩
  | name =>
      obtain ⟨hkind, rfl, rfl⟩ := startName_ok_iff.mp hok
      have hend : p.current.kind ≠ .endOfFile := by simp [hkind]
      exact ⟨_, (next_crosses hp hend).withHeight 1,
        ⟨⟨0, Nat.succ_pos _, .name hkind⟩, hleaf⟩, rfl⟩
  | group =>
      obtain ⟨_, hc, ⟨t, inner, t', rfl, ho, ⟨⟨n, hn, hd⟩, hh⟩, hclose⟩, -⟩ :=
        (startGroup_reads hop).sound hp hok
      exact ⟨_, hc, ⟨⟨1 + n, by omega, .group ho hd hclose⟩, hh⟩, startGroup_height hop hp hok⟩

/-! ## Continuing an expression -/

theorem continueBy_operator {op : BinaryOp} {rule : ContinueRule}
    (hk : p.current.kind = .operator op) (hrule : p.current.kind.exprRule.continue? = some rule) :
    continueBy operand rule left p =
      (operand op.power >>= fun right => pure (.binary op left right)) p.next := by
  obtain ⟨rule', hrule', hop⟩ := exprRule_operator op
  have heq : rule = rule' := by simpa [hk, hrule'] using hrule.symm
  simp only [continueBy, advance_bind]
  rw [hk, heq, hop]

/-- The loop ends before a token that binds no tighter than `power`. -/
theorem climbFuel_end (hend : p.current.kind.exprRule.power ≤ power) :
    climbFuel operand power (fuel + 1) left h p = .ok left { p with height := h } := by
  simp only [climbFuel, peek_bind]
  rw [if_pos hend]
  rfl

/-- One turn of the loop takes in one operator and its right operand. -/
theorem climbFuel_operator {op : BinaryOp} (hk : p.current.kind = .operator op)
    (hpower : power < op.power) {right : Expr} (hright : operand op.power p.next = .ok right m) :
    climbFuel operand power (fuel + 1) left h p =
      if maxDepth < 1 + max h m.height then failTooDeep m
      else climbFuel operand power fuel (.binary op left right) (1 + max h m.height) m := by
  obtain ⟨rule, hrule, -⟩ := exprRule_operator op
  have hrule' : p.current.kind.exprRule.continue? = some rule := by rw [hk, hrule]
  have hwhole : continueBy operand rule left p = .ok (.binary op left right) m := by
    rw [continueBy_operator hk hrule', bind_of_ok hright]
    rfl
  simp only [climbFuel, peek_bind]
  rw [if_neg (by rw [power_of_operator hk]; omega), hrule']
  simp only []
  rw [bind_of_ok hwhole]
  change (if maxDepth < 1 + max h m.height then failTooDeep else _) m = _
  split <;> rfl

/-- All that a turn of the loop can do and succeed. -/
theorem climbFuel_ok_cases (hok : climbFuel operand power (fuel + 1) left h p = .ok e q) :
    (p.current.kind.exprRule.power ≤ power ∧ left = e ∧ { p with height := h } = q) ∨
    ∃ op right m, p.current.kind = .operator op ∧ power < op.power ∧
      operand op.power p.next = .ok right m ∧ 1 + max h m.height ≤ maxDepth ∧
      climbFuel operand power fuel (.binary op left right) (1 + max h m.height) m = .ok e q := by
  by_cases hend : p.current.kind.exprRule.power ≤ power
  · rw [climbFuel_end hend] at hok
    simp only [EStateM.Result.ok.injEq] at hok
    exact .inl ⟨hend, hok⟩
  · right
    cases hrule : p.current.kind.exprRule.continue? with
    | none =>
        simp only [climbFuel, peek_bind] at hok
        rw [if_neg hend, hrule] at hok
        simp [failExpected] at hok
    | some rule =>
        obtain ⟨op, hk⟩ := continue?_eq_some hrule
        have hpower : power < op.power := by rw [power_of_operator hk] at hend; omega
        cases hright : operand op.power p.next with
        | error fault m =>
            have hwhole : continueBy operand rule left p = .error fault m := by
              rw [continueBy_operator hk hrule]
              change EStateM.bind _ _ _ = _
              simp [EStateM.bind, hright]
            simp only [climbFuel, peek_bind] at hok
            rw [if_neg hend, hrule] at hok
            obtain ⟨whole, m', hcontinue, -⟩ := bind_ok_iff.mp hok
            rw [hwhole] at hcontinue
            cases hcontinue
        | ok right m =>
            rw [climbFuel_operator hk hpower hright] at hok
            split at hok
            · simp [failTooDeep] at hok
            · exact ⟨op, right, m, hk, hpower, hright, by omega, hok⟩

/-! ## Soundness of the loop -/

/-- What has been read so far stands at a level that no operator to come exceeds. -/
theorem climbFuel_sound (hop : ReadsOperands depth levels operand) {start : Parser}
    (hstart : start.Ready depth) (hc : start.Crosses xs p)
    (hleft : ExprPhrase (levels + 1) level xs left)
    (hnext : ∀ op, p.current.kind = .operator op → op.precedence.rank ≤ level.rank)
    (hlevel : (Precedence.ofPower power).rank ≤ level.rank)
    (hok : climbFuel operand power fuel left left.height p = .ok e q) :
    ∃ ts, start.Crosses ts q ∧ ExprPhrase (levels + 1) (.ofPower power) ts e ∧
      EndsExpr power q.current.kind ∧ q.height = e.height := by
  induction fuel generalizing p left xs level with
  | zero => simp [climbFuel, failTooDeep] at hok
  | succ fuel ih =>
      obtain ⟨⟨n, hn, hd⟩, hh⟩ := hleft
      rcases climbFuel_ok_cases hok with
        ⟨hend, rfl, rfl⟩ | ⟨op, right, m, hk, hpower, hright, hmax, hrest⟩
      · exact ⟨xs, hc.withHeight _, ⟨⟨n, hn, hd.loosen hlevel⟩, hh⟩, hend, rfl⟩
      · have hready := hc.ready hstart
        have hstep := next_crosses hready (by simp [hk])
        obtain ⟨ys, hcy, ⟨⟨k, hklt, hdy⟩, -⟩, hends⟩ :=
          (hop.reads op.power).sound (hstep.ready hready) hright
        rw [Precedence.ofPower_power] at hdy
        have hheight : (Expr.binary op left right).height = 1 + max left.height m.height := by
          rw [hop.height (hstep.ready hready) hright]
          rfl
        rw [← hheight] at hmax hrest
        -- the whole stands at the operator's level, and the right operand ended before
        -- every tighter operator, so what comes next fits that level
        refine ih (hc.trans (hstep.trans hcy)) ⟨⟨max n (1 + k), by omega, ?_⟩, hmax⟩ ?_
          (Precedence.rank_ofPower_le_iff.mpr hpower) hrest
        · exact .binary rfl (hd.loosen (hnext op hk)) hk hdy
        · intro op' hk'
          apply Precedence.rank_le_iff_power_le.mpr
          rw [← power_of_operator hk']
          exact hends

theorem exprAt_ok_iff : exprAt operand power p = .ok e q ↔
    ∃ rule left m, p.current.kind.exprRule.start? = some rule ∧
      startBy operand rule p = .ok left m ∧
      climbFuel operand power maxDepth left m.height m = .ok e q := by
  simp only [exprAt, peek_bind]
  cases hrule : p.current.kind.exprRule.start? with
  | none => simp [failExpected]
  | some rule =>
      refine bind_ok_iff.trans ⟨?_, ?_⟩
      · intro h
        obtain ⟨left, m, hleft, hloop⟩ := h
        exact ⟨rule, left, m, rfl, hleft, hloop⟩
      · intro h
        obtain ⟨_, left, m, heq, hleft, hloop⟩ := h
        cases heq
        exact ⟨left, m, hleft, hloop⟩

theorem exprAt_sound (hop : ReadsOperands depth levels operand) (hp : p.Ready depth)
    (hok : exprAt operand power p = .ok e q) :
    ∃ ts, p.Crosses ts q ∧ ExprPhrase (levels + 1) (.ofPower power) ts e ∧
      EndsExpr power q.current.kind ∧ q.height = e.height := by
  obtain ⟨rule, left, m, hrule, hleft, hloop⟩ := exprAt_ok_iff.mp hok
  obtain ⟨xs, hc, hphrase, hheight⟩ := startBy_sound hop hp hrule hleft
  rw [hheight] at hloop
  have hfactor (level : Precedence) : level.rank ≤ Precedence.factor.rank := level.rank_le_three
  exact climbFuel_sound hop hp hc hphrase (fun op _ => hfactor _) (hfactor _) hloop

/-! ## Completeness of the loop -/

theorem startBy_complete (hop : ReadsOperands depth levels operand) (hp : p.Ready depth)
    (hd : Precedence.Derives .factor ts e n) (hn : n < levels + 1) (hh : e.height ≤ maxDepth)
    (hc : p.Crosses ts q) :
    ∃ rule m, p.current.kind.exprRule.start? = some rule ∧ startBy operand rule p = .ok e m ∧
      p.Crosses ts m ∧ m.height = e.height := by
  -- the level is an index of the derivation, so the induction needs it as a variable
  generalize hlevel : Precedence.factor = level at hd
  induction hd with
  | @constant t sort ht =>
      obtain rfl := hc.current_eq
      have hend : p.current.kind ≠ .endOfFile := hc.inside _ (by simp)
      exact ⟨.literal, _, by simp [ht, Token.Kind.exprRule],
        constant_ok_iff.mpr ⟨sort, ht, rfl, rfl⟩, (next_crosses hp hend).withHeight 1, rfl⟩
  | @name t ht =>
      obtain rfl := hc.current_eq
      have hend : p.current.kind ≠ .endOfFile := hc.inside _ (by simp)
      exact ⟨.name, _, by simp [ht, Token.Kind.exprRule], startName_ok_iff.mpr ⟨ht, rfl, rfl⟩,
        (next_crosses hp hend).withHeight 1, rfl⟩
  | group ho inner hclose =>
      have hphrase : GroupPhrase levels _ _ :=
        ⟨_, _, _, rfl, ho, ⟨⟨_, by omega, inner⟩, hh⟩, hclose⟩
      obtain ⟨m, hok, hcm⟩ := (startGroup_reads hop).complete hp hc hphrase trivial
      refine ⟨.group, m, ?_, hok, hcm, startGroup_height hop hp hok⟩
      rw [hc.current_eq, ho]
      rfl
  | unit _ ih =>
      subst hlevel
      exact ih hn hh hc rfl
  | @binary level op t xs ys l r m n hlevel' =>
      subst hlevel
      rcases op with op | op <;> cases op <;> simp [BinaryOp.precedence] at hlevel'

/-- Reading the tokens of an expression leaves the loop at their end with the expression as its
left operand. The induction is on the derivation: a binary node is one more turn of the loop that
its left operand leaves behind. -/
theorem exprAt_reaches (hop : ReadsOperands depth levels operand) (hp : p.Ready depth)
    (hd : level.Derives ts e n) (hlevel : (Precedence.ofPower power).rank ≤ level.rank)
    (hn : n < levels + 1) (hh : e.height ≤ maxDepth) (hc : p.Crosses ts q)
    (hends : ∀ op : BinaryOp, level.rank ≤ op.precedence.rank → EndsExpr op.power q.current.kind) :
    ∃ fuel m, exprAt operand power p = climbFuel operand power fuel e e.height m ∧
      p.Crosses ts m ∧ maxDepth < fuel + e.height := by
  have hstarts {ts e n q} (hd : Precedence.Derives .factor ts e n) (hn : n < levels + 1)
      (hh : e.height ≤ maxDepth) (hc : p.Crosses ts q) :
      ∃ fuel m, exprAt operand power p = climbFuel operand power fuel e e.height m ∧
        p.Crosses ts m ∧ maxDepth < fuel + e.height := by
    obtain ⟨rule, m, hrule, hok, hcm, hheight⟩ := startBy_complete hop hp hd hn hh hc
    refine ⟨maxDepth, m, ?_, hcm, by have := e.height_pos; omega⟩
    simp only [exprAt, peek_bind]
    rw [hrule, ← hheight]
    exact bind_of_ok hok
  induction hd generalizing q with
  | constant ht => exact hstarts (.constant ht) hn hh hc
  | name ht => exact hstarts (.name ht) hn hh hc
  | group ho inner hclose => exact hstarts (.group ho inner hclose) hn hh hc
  | @unit level ts e n inner ih =>
      have hle := level.rank_le_tighter
      exact ih (Nat.le_trans hlevel hle) hn hh hc fun op hrank => hends op (Nat.le_trans hle hrank)
  | @binary level op t xs ys l r k n hlevel' left ht right ihl =>
      subst hlevel'
      have hpower : power < op.power := Precedence.rank_ofPower_le_iff.mp hlevel
      simp only [Expr.height] at hh
      obtain ⟨m₁, hcx, hcy⟩ := hc.split
      have hends₁ (op' : BinaryOp) (hrank : op.precedence.rank ≤ op'.precedence.rank) :
          EndsExpr op'.power m₁.current.kind := by
        unfold EndsExpr
        rw [hcy.current_eq, power_of_operator ht]
        exact Precedence.rank_le_iff_power_le.mp hrank
      -- the left operand leaves the loop before the operator, with fuel for this turn
      obtain ⟨fuel, m, hreach, hcm, hfuel⟩ := ihl hlevel (by omega) (by omega) hcx hends₁
      have hcr := hc.rest hcm
      obtain rfl := hcr.current_eq
      have hready := hcm.ready hp
      have hstep := next_crosses hready (by simp [ht])
      have hcr' : m.next.Crosses ys q := (show m.Crosses ([m.current] ++ ys) q from hcr).rest hstep
      have hphrase : ExprPhrase levels (.ofPower op.power) ys r := by
        rw [Precedence.ofPower_power]
        exact ⟨⟨n, by omega, right⟩, by omega⟩
      obtain ⟨m', hright, hcm'⟩ := (hop.reads op.power).complete (hstep.ready hready) hcr' hphrase
        (hends op (Nat.le_refl _))
      obtain ⟨fuel, rfl⟩ : ∃ fuel', fuel = fuel' + 1 := ⟨fuel - 1, by omega⟩
      refine ⟨fuel, m', ?_, hcm.trans (hstep.trans hcm'), by simp only [Expr.height]; omega⟩
      rw [hreach, climbFuel_operator ht hpower hright, hop.height (hstep.ready hready) hright]
      rw [if_neg (by omega)]
      rfl

theorem exprAt_complete (hop : ReadsOperands depth levels operand) (hp : p.Ready depth)
    (hphrase : ExprPhrase (levels + 1) (.ofPower power) ts e) (hc : p.Crosses ts q)
    (hends : EndsExpr power q.current.kind) :
    ∃ m, exprAt operand power p = .ok e m ∧ p.Crosses ts m := by
  obtain ⟨⟨n, hn, hd⟩, hh⟩ := hphrase
  obtain ⟨fuel, m, hreach, hcm, hfuel⟩ := exprAt_reaches hop hp hd (Nat.le_refl _) hn hh hc
    fun op hrank =>
      Nat.le_trans hends (Nat.le_of_lt (Precedence.rank_ofPower_le_iff.mp hrank))
  obtain ⟨fuel, rfl⟩ : ∃ fuel', fuel = fuel' + 1 := ⟨fuel - 1, by omega⟩
  have hlast : m.Crosses [] q := by
    apply Crosses.rest _ hcm
    simpa using hc
  refine ⟨_, hreach.trans (climbFuel_end ?_), hcm.withHeight _⟩
  rw [hlast.firstKind_eq]
  exact hends

/-! ## Expressions inside one another -/

theorem nested_ok_iff {α : Type} {rule : ParseM α} {a : α} : nested rule p = .ok a q ↔
    ∃ m, rule { p with nesting := p.nesting + 1 } = .ok a m ∧
      { m with nesting := m.nesting - 1 } = q := by
  unfold nested
  cases rule { p with nesting := p.nesting + 1 } with
  | ok a' m =>
      simp only [EStateM.Result.ok.injEq]
      constructor
      · intro h
        obtain ⟨rfl, rfl⟩ := h
        exact ⟨m, ⟨rfl, rfl⟩, rfl⟩
      · intro h
        obtain ⟨_, ⟨rfl, rfl⟩, rfl⟩ := h
        exact ⟨rfl, rfl⟩
  | error fault m => simp

theorem Ready.deeper (hp : p.Ready depth) :
    Ready (depth + 1) { p with nesting := p.nesting + 1 } := ⟨by simp [hp.nesting], hp.ends⟩

theorem nested_reads {α : Type} {rule : ParseM α} {Phrase : List Token → α → Prop}
    {Follow : Token.Kind → Prop} (hrule : Reads (depth + 1) rule Phrase Follow) :
    Reads depth (nested rule) Phrase Follow where
  sound {p q a} hp hok := by
    obtain ⟨m, hinner, rfl⟩ := nested_ok_iff.mp hok
    obtain ⟨ts, hc, hphrase, hfollow⟩ := hrule.sound hp.deeper hinner
    exact ⟨ts, ⟨hc.passed, hc.ahead, by simp [hc.nesting], hc.inside⟩, hphrase, hfollow⟩
  complete {p q ts a} hp hc hphrase hfollow := by
    have hc' : Crosses { p with nesting := p.nesting + 1 } ts { q with nesting := q.nesting + 1 } :=
      ⟨hc.passed, hc.ahead, by simp [hc.nesting], hc.inside⟩
    obtain ⟨m, hok, hcm⟩ := hrule.complete hp.deeper hc' hphrase hfollow
    exact ⟨_, nested_ok_iff.mpr ⟨m, hok, rfl⟩,
      ⟨hcm.passed, hcm.ahead, by simp [hcm.nesting], hcm.inside⟩⟩

theorem exprWithin_readsOperands (depth levels : Nat) :
    ReadsOperands depth levels (exprWithin levels) := by
  induction levels generalizing depth with
  | zero =>
      constructor
      · intro power
        constructor
        · intro p q e _ hok
          simp [exprWithin, failTooDeep] at hok
        · intro p q ts e _ _ hphrase
          obtain ⟨⟨n, hn, -⟩, -⟩ := hphrase
          omega
      · intro power p q e _ hok
        simp [exprWithin, failTooDeep] at hok
  | succ levels ih =>
      have hop := ih (depth + 1)
      constructor
      · intro power
        apply nested_reads
        constructor
        · intro p q e hp hok
          obtain ⟨ts, hc, hphrase, hends, -⟩ := exprAt_sound hop hp hok
          exact ⟨ts, hc, hphrase, hends⟩
        · intro p q ts e hp hc hphrase hends
          exact exprAt_complete hop hp hphrase hc hends
      · intro power p q e hp hok
        obtain ⟨m, hinner, rfl⟩ := nested_ok_iff.mp hok
        obtain ⟨-, -, -, -, hheight⟩ := exprAt_sound hop hp.deeper hinner
        exact hheight

theorem expr_reads (depth power : Nat) :
    Reads depth (expr power) (ExprPhrase (maxDepth - depth) (.ofPower power)) (EndsExpr power) := by
  have hreads := (exprWithin_readsOperands depth (maxDepth - depth)).reads power
  constructor
  · intro p q e hp hok
    simp only [expr, hp.nesting] at hok
    exact hreads.sound hp hok
  · intro p q ts e hp hc hphrase hends
    simp only [expr, hp.nesting]
    exact hreads.complete hp hc hphrase hends

/-! ## The whole reader, by places in the token list -/

/-- An expression is read exactly where the grammar has it: the tokens from the place of the
parser up to its last place form the tree at the level that the power selects, the token there
binds no tighter, and both limits hold. -/
theorem expr_exact {tokens : List Token} (hp : p.tokens = terminated tokens) (hn : p.nesting = 0)
    (power k : Nat) (e : Expr) :
    (∃ q, expr power p = .ok e q ∧ q.cursor = k) ↔
      (∃ n, n ≤ 255 ∧
        (Precedence.ofPower power).Derives ((p.tokens.take k).drop p.cursor) e n) ∧
      e.height ≤ 256 ∧
      ∃ t, p.tokens[k]? = some t ∧ t.kind.exprRule.power ≤ power := by
  have hready := ready_of_tokens hp hn
  have hreads := expr_reads 0 power
  constructor
  · intro h
    obtain ⟨q, hok, rfl⟩ := h
    obtain ⟨ts, hc, ⟨⟨n, hlt, hd⟩, hh⟩, hends⟩ := hreads.sound hready hok
    obtain ⟨hslice, hcurrent⟩ := hc.slice_eq
    refine ⟨⟨n, ?_, hslice ▸ hd⟩, hh, q.current, hcurrent, hends⟩
    simp only [maxDepth] at hlt
    omega
  · intro h
    obtain ⟨⟨n, hle, hd⟩, hh, t, ht, hends⟩ := h
    have hk : p.cursor ≤ k := by
      have hne := hd.ne_nil
      rw [List.drop_take, ne_eq, List.take_eq_nil_iff] at hne
      omega
    obtain ⟨q, hc, rfl⟩ := crosses_of_slice hk ht hd.inside
    have hlt : n < maxDepth - 0 := by simp only [maxDepth]; omega
    obtain ⟨q', hok, hc'⟩ := hreads.complete hready hc ⟨⟨n, hlt, hd⟩, hh⟩ hends
    refine ⟨q', hok, ?_⟩
    rw [hc'.cursor_eq, List.length_drop, List.length_take]
    have hbound := (List.getElem?_eq_some_iff.mp ht).1
    omega

/-- From its second token on, `- ( 7 ) ;` has a factor up to the semicolon. -/
theorem expr_exact_group :
    let tokens : List Token := [⟨.operator (.arith .sub), "-", 0, ⟨1, 1⟩⟩,
      ⟨.punctuation .lparen, "(", 1, ⟨1, 3⟩⟩, ⟨.literal .int, "7", 2, ⟨1, 4⟩⟩,
      ⟨.punctuation .rparen, ")", 3, ⟨1, 5⟩⟩, ⟨.punctuation .semicolon, ";", 4, ⟨1, 6⟩⟩]
    (ofTokens tokens).next.tokens = terminated tokens ∧ (ofTokens tokens).next.nesting = 0 ∧
      ∃ q, expr 60 (ofTokens tokens).next = .ok (.const .int "7") q ∧ q.cursor = 4 := by
  intro tokens
  have hp : (ofTokens tokens).next.tokens = terminated tokens := rfl
  have hn : (ofTokens tokens).next.nesting = 0 := rfl
  have hinner : Precedence.Derives .comparison [⟨.literal .int, "7", 2, ⟨1, 4⟩⟩]
      (.const .int "7") 0 := .unit (.unit (.unit (@Precedence.Derives.constant _ .int rfl)))
  exact ⟨hp, hn, (expr_exact hp hn 60 4 _).mpr
    ⟨⟨1, by decide, .group rfl hinner rfl⟩, by decide, _, rfl, by decide⟩⟩

end Parser

end StateLang
