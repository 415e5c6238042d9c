import StateLang.Proofs.Program.Earliest
import StateLang.Proofs.Runs

/-!
# Which kind of fault a rule has

A fault is about the token at which the rule stands. At an unknown character it is
a lexical fault, at any other token a grammar fault, with one exception: where an
expression has become too deep the fault is always a grammar fault, also at an
unknown character. For this the rule must have passed at least as many tokens as
expressions may stand inside one another.

The main statement is `rule_fault_kind`.
-/

namespace StateLang

/-- Every level of a tree takes a token. -/
theorem Precedence.Derives.height_le {level : Precedence} {ts : List Token} {e : Expr} {n : Nat}
    (h : level.Derives ts e n) : e.height ≤ ts.length := by
  induction h with
  | constant => exact Nat.le_refl 1
  | name => exact Nat.le_refl 1
  | group _ _ _ ih =>
      simp only [List.length_cons, List.length_append]
      omega
  | unit _ ih => exact ih
  | binary _ _ _ _ ihl ihr =>
      simp only [Expr.height, List.length_append, List.length_cons]
      omega

namespace Parser

variable {α β : Type} {depth levels levels' n power fuel h : Nat} {p q m start : Parser}

/-- What a rule may do from `p` on: go forward, or fail at a token that does not fit, or fail for
depth after at least `levels` tokens. -/
inductive Proceeds (depth levels : Nat) (p : Parser) : EStateM.Result Fault Parser α → Prop
  | ok {a : α} {q : Parser} (hq : q.Ready depth) (hcursor : p.cursor ≤ q.cursor) :
      Proceeds depth levels p (.ok a q)
  | mismatch {expected : String} {q : Parser}
      (h : expected ≠ "a less deeply nested expression") :
      Proceeds depth levels p (.error (.mismatch expected q.current) q)
  | tooDeep {q : Parser} (h : p.cursor + levels ≤ q.cursor) :
      Proceeds depth levels p (.error
        (.grammar "a less deeply nested expression" q.current.description q.current.pos) q)

namespace Proceeds

/-- Tokens passed before count as well. -/
theorem later {result : EStateM.Result Fault Parser α} (h : Proceeds depth levels m result)
    (hcursor : p.cursor + n ≤ m.cursor) (hlevels : levels' ≤ levels + n) :
    Proceeds depth levels' p result := by
  cases h with
  | ok hq hle => exact .ok hq (by omega)
  | mismatch h => exact .mismatch h
  | tooDeep h => exact .tooDeep (by omega)

/-- Where the second part needs to know what the first has passed. -/
theorem bind_from {x : ParseM α} {f : α → ParseM β} (hx : Proceeds depth levels p (x p))
    (hf : ∀ a m, x p = .ok a m → m.Ready depth → Proceeds depth levels p (f a m)) :
    Proceeds depth levels p ((x >>= f) p) := by
  generalize hresult : x p = result at hx
  cases hx with
  | ok hm hcursor =>
      rw [bind_of_ok hresult]
      exact hf _ _ hresult hm
  | mismatch h =>
      rw [bind_error_iff.mpr (.inl hresult)]
      exact .mismatch h
  | tooDeep h =>
      rw [bind_error_iff.mpr (.inl hresult)]
      exact .tooDeep h

theorem bind {x : ParseM α} {f : α → ParseM β} (hx : Proceeds depth levels p (x p))
    (hf : ∀ a m, m.Ready depth → Proceeds depth levels m (f a m)) :
    Proceeds depth levels p ((x >>= f) p) := by
  refine hx.bind_from fun a m hok hm => ?_
  rw [hok] at hx
  cases hx with
  | ok _ hcursor => exact (hf a m hm).later (n := 0) hcursor (Nat.le_refl _)

end Proceeds

theorem cursor_le_next (p : Parser) : p.cursor ≤ p.next.cursor := by
  unfold next cursor
  split
  · exact Nat.le_refl _
  · split
    · exact Nat.le_refl _
    · exact Nat.le_succ _

theorem expect_proceeds (hp : p.Ready depth) (kind : Token.Kind) :
    Proceeds depth levels p (expect kind p) := by
  simp only [expect, peek_bind]
  split
  · exact .ok hp.next p.cursor_le_next
  · exact .mismatch (Token.Kind.ne_description (by simp) kind).symm

theorem expectBind_proceeds (hp : p.Ready depth) (kind : Token.Kind) (f : Token → α) :
    Proceeds depth levels p ((expect kind >>= fun t => pure (f t)) p) :=
  (expect_proceeds hp kind).bind fun _ _ hm => .ok hm (Nat.le_refl _)

theorem expectMark_ok {mark : Punctuation} (hk : p.current.kind = .punctuation mark) :
    expectMark mark p = .ok () p.next :=
  bind_ok_iff.mpr ⟨p.current, p.next, expect_ok_iff.mpr ⟨hk, rfl, rfl⟩, rfl⟩

/-! ## Expressions -/

/-- A fault in the right operand is one of the loop. -/
theorem climbFuel_of_error {operand : Nat → ParseM Expr} {left : Expr} {op : BinaryOp}
    {fault : Fault} (hk : p.current.kind = .operator op) (hpower : power < op.power)
    (hright : operand op.power p.next = .error fault m) :
    climbFuel operand power (fuel + 1) left h p = .error fault m := by
  obtain ⟨rule, hrule, -⟩ := exprRule_operator op
  have hrule' : p.current.kind.exprRule.continue? = some rule := by rw [hk, hrule]
  have hwhole : continueBy operand rule left p = .error fault m := by
    rw [continueBy_operator hk hrule']
    exact bind_error_iff.mpr (.inl hright)
  simp only [climbFuel, peek_bind]
  rw [if_neg (by rw [power_of_operator hk]; omega), hrule']
  exact bind_error_iff.mpr (.inl hwhole)

section Operand

variable {operand : Nat → ParseM Expr} {left : Expr} (hop : ReadsOperands depth levels operand)
  (hoperand : ∀ power p, p.Ready depth → Proceeds depth levels p (operand power p))

include hoperand

theorem startBy_proceeds {rule : StartRule} (hp : p.Ready depth)
    (hrule : p.current.kind.exprRule.start? = some rule) :
    Proceeds depth (levels + 1) p (startBy operand rule p) := by
  rcases start?_eq_some hrule with ⟨rfl, sort, hk⟩ | ⟨rfl, hk⟩ | ⟨rfl, hk⟩
  · have hok : startBy operand .literal p = .ok _ _ := constant_ok_iff.mpr ⟨sort, hk, rfl, rfl⟩
    rw [hok]
    exact .ok ⟨hp.next.nesting, hp.next.ends⟩ p.cursor_le_next
  · rw [startName_ok_iff.mpr ⟨hk, rfl, rfl⟩]
    exact .ok ⟨hp.next.nesting, hp.next.ends⟩ p.cursor_le_next
  · have hnext := next_crosses hp (by simp [hk])
    have hinner : Proceeds depth levels p.next ((operand 0 >>= fun inner =>
        expectMark .rparen >>= fun _ => pure inner) p.next) :=
      (hoperand 0 _ (hnext.ready hp)).bind fun _ m hm =>
        (expectBind_proceeds hm _ _).bind fun _ _ hq => .ok hq (Nat.le_refl _)
    change Proceeds depth (levels + 1) p ((expectMark .lparen >>= fun _ => _) p)
    rw [bind_of_ok (expectMark_ok hk)]
    exact hinner.later (Nat.le_of_eq hnext.cursor_eq.symm) (Nat.le_refl _)

include hop

/-- The tree read since `start` is no higher than the tokens it took, so a tree that is too high
took enough of them. -/
theorem climbFuel_proceeds (hlevels : levels < maxDepth) (hp : p.Ready depth)
    (hheight : start.cursor + h ≤ p.cursor) (hfuel : maxDepth ≤ fuel + h) :
    Proceeds depth (levels + 1) start (climbFuel operand power fuel left h p) := by
  induction fuel generalizing p left h with
  | zero => exact .tooDeep (by omega)
  | succ fuel ih =>
      by_cases hend : p.current.kind.exprRule.power ≤ power
      · rw [climbFuel_end hend]
        exact .ok ⟨hp.nesting, hp.ends⟩ (Nat.le_of_add_right_le hheight)
      · cases hrule : p.current.kind.exprRule.continue? with
        | none =>
            simp only [climbFuel, peek_bind]
            rw [if_neg hend, hrule]
            exact .mismatch (by decide)
        | some rule =>
            obtain ⟨op, hk⟩ := continue?_eq_some hrule
            have hpower : power < op.power := by rw [power_of_operator hk] at hend; omega
            have hnext := next_crosses hp (by simp [hk])
            have hcursor : p.next.cursor = p.cursor + 1 := hnext.cursor_eq
            cases hright : operand op.power p.next with
            | error fault m =>
                have hfault := hoperand op.power p.next (hnext.ready hp)
                rw [hright] at hfault
                rw [climbFuel_of_error hk hpower hright]
                exact hfault.later (n := 1) (by omega) (Nat.le_refl _)
            | ok right m =>
                obtain ⟨ts, hc, ⟨⟨_, -, hd⟩, -⟩, -⟩ :=
                  (hop.reads op.power).sound (hnext.ready hp) hright
                have hm : m.cursor = p.next.cursor + ts.length := hc.cursor_eq
                have hr : m.height ≤ ts.length := by
                  rw [hop.height (hnext.ready hp) hright]
                  exact hd.height_le
                rw [climbFuel_operator hk hpower hright]
                split
                · exact .tooDeep (by omega)
                · exact ih (hc.ready (hnext.ready hp)) (by omega) (by omega)

theorem exprAt_proceeds (hlevels : levels < maxDepth) (hp : p.Ready depth) :
    Proceeds depth (levels + 1) p (exprAt operand power p) := by
  simp only [exprAt, peek_bind]
  cases hrule : p.current.kind.exprRule.start? with
  | none => exact .mismatch (by decide)
  | some rule =>
      refine (startBy_proceeds hoperand hp hrule).bind_from fun left m hleft hm => ?_
      obtain ⟨ts, hc, ⟨⟨_, -, hd⟩, -⟩, hheight⟩ := startBy_sound hop hp hrule hleft
      have hcursor : m.cursor = p.cursor + ts.length := hc.cursor_eq
      have hle : m.height ≤ ts.length := hheight ▸ hd.height_le
      exact climbFuel_proceeds hop hoperand hlevels hm (by omega) (Nat.le_add_right _ _)

end Operand

theorem nested_proceeds {rule : ParseM α} (hrule : Proceeds (depth + 1) levels
      { p with nesting := p.nesting + 1 } (rule { p with nesting := p.nesting + 1 })) :
    Proceeds depth levels p (nested rule p) := by
  unfold nested
  generalize rule { p with nesting := p.nesting + 1 } = result at hrule
  cases hrule with
  | ok hq hcursor => exact .ok ⟨by simp [hq.nesting], hq.ends⟩ hcursor
  | @mismatch _ q h => exact .mismatch (q := { q with nesting := q.nesting - 1 }) h
  | @tooDeep q h => exact .tooDeep (q := { q with nesting := q.nesting - 1 }) h

theorem exprWithin_proceeds (hlevels : levels ≤ maxDepth) (power : Nat) (p : Parser)
    (hp : p.Ready depth) : Proceeds depth levels p (exprWithin levels power p) := by
  induction levels generalizing depth power p with
  | zero => exact .tooDeep (Nat.le_refl _)
  | succ levels ih =>
      have hoperand := @ih (depth + 1) (Nat.le_of_succ_le hlevels)
      exact nested_proceeds
        (exprAt_proceeds (exprWithin_readsOperands _ levels) hoperand hlevels hp.deeper)

theorem expr_proceeds (hp : p.Ready 0) : Proceeds 0 maxDepth p (expr power p) := by
  simp only [expr, hp.nesting]
  exact exprWithin_proceeds (Nat.le_refl _) power p hp

/-! ## Rules -/

theorem accept_proceeds (hp : p.Ready depth) (kind : Token.Kind) :
    Proceeds depth levels p (accept kind p) := by
  simp only [accept, peek_bind]
  split
  · exact .ok hp.next p.cursor_le_next
  · exact .ok hp (Nat.le_refl _)

theorem varType_proceeds (hp : p.Ready depth) : Proceeds depth levels p (varType p) := by
  simp only [varType, peek_bind]
  cases VarType.ofKind? p.current.kind with
  | none => exact .mismatch (by decide)
  | some type => exact .ok hp.next p.cursor_le_next

theorem items_proceeds {stop : Token.Kind → Bool} {item : ParseM α}
    (hitem : ∀ p, p.Ready depth → Proceeds depth levels p (item p)) (fuel : List Token)
    (hp : p.Ready depth) : Proceeds depth levels p (itemsFuel stop item fuel p) := by
  induction fuel generalizing p with
  | nil => exact .ok hp (Nat.le_refl _)
  | cons _ fuel ih =>
      simp only [itemsFuel, peek_bind]
      split
      · exact .ok hp (Nat.le_refl _)
      · exact (hitem p hp).bind fun _ m hm => (ih hm).bind fun _ _ hq => .ok hq (Nat.le_refl _)

/-- A rule begins outside all expressions, so it fails for depth only after as many tokens as there
may be expressions inside one another. -/
theorem Assembled.proceeds {rule : ParseM α} (h : Assembled rule) (hp : p.Ready 0) :
    Proceeds 0 maxDepth p (rule p) := by
  induction h generalizing p with
  | pure a => exact .ok hp (Nat.le_refl _)
  | bind _ _ ihx ihf => exact (ihx hp).bind fun a m hm => ihf a hm
  | keyword => exact expectBind_proceeds hp _ _
  | mark => exact expectBind_proceeds hp _ _
  | identifier => exact expectBind_proceeds hp _ _
  | expectEnd => exact expectBind_proceeds hp _ _
  | accept kind => exact accept_proceeds hp kind
  | varType => exact varType_proceeds hp
  | expr power => exact expr_proceeds hp
  | items _ ih => exact items_proceeds (fun p hp => ih hp) _ hp

/-- The fault of a rule is about the token at which the rule stands: a lexical fault with its
lexeme where that is an unknown character, and a grammar fault with its description everywhere
else. Only a fault of depth is a grammar fault whatever the token, and it takes `maxDepth` tokens
to get there. -/
theorem rule_fault_kind {rule : ParseM α} {fault : Fault} {tokens : List Token}
    (hrule : IsRule rule) (hrun : Steps (ofTokens tokens) p) (hfault : rule p = .error fault q) :
    (¬ fault.IsTooDeep → ∃ expected,
      (q.current.kind = .unknown →
        fault = .lexical q.current.lexeme expected q.current.pos) ∧
      (q.current.kind ≠ .unknown →
        fault = .grammar expected q.current.description q.current.pos)) ∧
    (fault.IsTooDeep → p.cursor + maxDepth ≤ q.cursor ∧
      fault = .grammar "a less deeply nested expression" q.current.description q.current.pos) := by
  have hproceeds := hrule.assembled.proceeds hrun.ready
  rw [hfault] at hproceeds
  cases hproceeds with
  | @mismatch expected _ hne =>
      refine ⟨fun _ => ⟨expected, fun hk => ?_, fun hk => ?_⟩, fun hdeep => absurd ?_ hne⟩
      · exact if_pos hk
      · exact if_neg hk
      · rw [Fault.IsTooDeep, Fault.mismatch_expected?] at hdeep
        exact Option.some.inj hdeep
  | tooDeep hcursor => exact ⟨fun hdeep => absurd rfl hdeep, fun _ => ⟨hcursor, rfl⟩⟩

/-- A lexical fault in an assignment, after a declaration has been read. -/
theorem rule_fault_kind_after_declaration :
    let tokens : List Token := [⟨.keyword .int, "int", 0, ⟨1, 1⟩⟩, ⟨.identifier, "x", 1, ⟨1, 5⟩⟩,
      ⟨.punctuation .semicolon, ";", 2, ⟨1, 6⟩⟩, ⟨.identifier, "x", 3, ⟨2, 1⟩⟩,
      ⟨.punctuation .assign, ":=", 4, ⟨2, 3⟩⟩, ⟨.unknown, "$", 5, ⟨2, 6⟩⟩]
    let p := after declaration (ofTokens tokens)
    let fault := Fault.lexical "$" "an expression" ⟨2, 6⟩
    IsRule assignment ∧ Steps (ofTokens tokens) p ∧ ¬ fault.IsTooDeep ∧
      ∃ q, assignment p = .error fault q ∧ q.current.kind = .unknown ∧
        ∃ expected, fault = .lexical q.current.lexeme expected q.current.pos := by
  intro tokens p fault
  have hrun : Steps (ofTokens tokens) p := .step .refl (.rule .declaration)
  have hdeep : ¬ fault.IsTooDeep := by simp [fault, Fault.IsTooDeep, Fault.expected?]
  have hfault : assignment p = .error fault (after assignment p) := rfl
  obtain ⟨expected, hlexical, -⟩ := (rule_fault_kind .assignment hrun hfault).1 hdeep
  exact ⟨.assignment, hrun, hdeep, _, hfault, rfl, expected, hlexical rfl⟩

/-! ## Opening parentheses up to the limit -/

/-- Where only opening parentheses lead, expressions become too deep at whatever token follows
them. -/
theorem exprWithin_opened {opened rest : List Token} (hp : p.Ready depth)
    (hahead : p.ahead = opened ++ rest)
    (hopened : ∀ t ∈ opened, t.kind = .punctuation .lparen) (power : Nat) :
    ∃ q, exprWithin opened.length power p = failTooDeep q ∧ q.ahead = rest := by
  induction opened generalizing p depth power with
  | nil => exact ⟨p, rfl, hahead⟩
  | cons t opened ih =>
      obtain ⟨rfl, hupcoming⟩ : p.current = t ∧ p.upcoming = opened ++ rest := List.cons.inj hahead
      have hk := hopened _ List.mem_cons_self
      have hnext := next_crosses hp.deeper (by simp [hk])
      have hahead' : Parser.ahead (next { p with nesting := p.nesting + 1 }) = opened ++ rest := by
        rw [← hupcoming]
        exact (List.cons.inj hnext.ahead).2.symm
      obtain ⟨q, hq, hrest⟩ := ih (hnext.ready hp.deeper) hahead'
        (fun t ht => hopened t (List.mem_cons_of_mem _ ht)) 0
      have hgroup : startBy (exprWithin opened.length) .group { p with nesting := p.nesting + 1 } =
          failTooDeep q := by
        refine bind_error_iff.mpr (.inr ⟨(), _, expectMark_ok hk, ?_⟩)
        exact bind_error_iff.mpr (.inl hq)
      have hexpr : exprAt (exprWithin opened.length) power { p with nesting := p.nesting + 1 } =
          failTooDeep q := by
        simp only [exprAt, peek_bind, hk]
        exact bind_error_iff.mpr (.inl hgroup)
      refine ⟨{ q with nesting := q.nesting - 1 }, ?_, hrest⟩
      simp only [List.length_cons, exprWithin, nested, hexpr, failTooDeep]

/-- At the limit a stray character gives no lexical fault. -/
theorem grammar_fault_at_unknown :
    let opened := (List.range maxDepth).map fun i : Nat =>
      (⟨.punctuation .lparen, "(", i, ⟨1, i + 1⟩⟩ : Token)
    let stray : Token := ⟨.unknown, "$", maxDepth, ⟨1, maxDepth + 1⟩⟩
    IsRule (expr 0) ∧ ∃ q, q.current = stray ∧ expr 0 (ofTokens (opened ++ [stray])) =
      .error (.grammar "a less deeply nested expression" "lexical error '$'" ⟨1, 257⟩) q := by
  intro opened stray
  have hp := ofTokens_ready (opened ++ [stray])
  have hahead : (ofTokens (opened ++ [stray])).ahead =
      opened ++ [stray, .endAt (opened ++ [stray]).length stray.pos] := by
    rw [ofTokens_ahead, terminated, List.getLast?_concat]
    simp [stray]
  have hopened : ∀ t ∈ opened, t.kind = .punctuation .lparen := by simp [opened]
  obtain ⟨q, hq, hrest⟩ := exprWithin_opened hp hahead hopened 0
  have hstray : q.current = stray := (List.cons.inj hrest).1
  have hlength : opened.length = maxDepth := by simp [opened]
  rw [hlength, failTooDeep, hstray] at hq
  refine ⟨.expr 0, q, hstray, ?_⟩
  simp only [expr, hp.nesting]
  exact hq

end Parser

end StateLang
