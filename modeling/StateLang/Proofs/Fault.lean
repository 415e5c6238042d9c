import StateLang.Program.Parser
import StateLang.Proofs.Expr.Climbing

/-!
# Where rules fail

A rule of the parser that fails stands at a token that does not fit, or at one
where an expression has become too deep, and its fault is about that token. The
faults of the rules' own misuse cannot arise, since a rule is only ever started
at a token that it is for.
-/

namespace StateLang

/-- A fault about the token `t`. -/
inductive Fault.At (t : Token) : Fault → Prop
  | mismatch (expected : String) : At t (.mismatch expected t)
  | tooDeep : At t (.grammar "a less deeply nested expression" t.description t.pos)

theorem Fault.At.pos?_eq {t : Token} {fault : Fault} (h : fault.At t) : fault.pos? = some t.pos := by
  cases h with
  | mismatch expected =>
      unfold Fault.mismatch
      split <;> rfl
  | tooDeep => rfl

namespace Parser

/-- The rules that a parser offers: one for each production, and the end. -/
inductive IsRule : {α : Type} → ParseM α → Prop
  | program : IsRule program
  | platform : IsRule platform
  | declarations : IsRule declarations
  | declaration : IsRule declaration
  | states : IsRule states
  | state : IsRule state
  | transitions : IsRule transitions
  | transition : IsRule transition
  | assignments : IsRule assignments
  | assignment : IsRule assignment
  | expr (power : Nat) : IsRule (expr power)
  | expectEnd : IsRule expectEnd

/-- What rules are put together from: a property of the parts that `bind` keeps is one of every
rule. -/
inductive Assembled : {α : Type} → ParseM α → Prop
  | pure {α : Type} (a : α) : Assembled (pure a)
  | bind {α β : Type} {x : ParseM α} {f : α → ParseM β} (hx : Assembled x)
      (hf : ∀ a, Assembled (f a)) : Assembled (x >>= f)
  | keyword (word : Keyword) : Assembled (expectKeyword word)
  | mark (mark : Punctuation) : Assembled (expectMark mark)
  | identifier : Assembled identifier
  | expectEnd : Assembled expectEnd
  | accept (kind : Token.Kind) : Assembled (accept kind)
  | varType : Assembled varType
  | expr (power : Nat) : Assembled (expr power)
  | items {α : Type} {stop : Token.Kind → Bool} {item : ParseM α} (h : Assembled item) :
      Assembled (items stop item)

namespace Assembled

theorem declaration : Assembled declaration :=
  bind varType fun _ => bind identifier fun _ => bind (mark _) fun _ => pure _

theorem assignment : Assembled assignment :=
  bind identifier fun _ => bind (mark _) fun _ => bind (expr 0) fun _ => bind (mark _) fun _ =>
    pure _

theorem destination : Assembled destination := by
  refine bind (accept _) fun isGoto => ?_
  cases isGoto with
  | true => exact bind identifier fun _ => pure _
  | false => exact bind (keyword _) fun _ => pure _

theorem transition : Assembled transition :=
  bind destination fun _ => bind (keyword _) fun _ => bind (expr 0) fun _ => bind (keyword _)
    fun _ => bind (mark _) fun _ => bind (items assignment) fun _ => bind (mark _) fun _ =>
      bind (mark _) fun _ => pure _

theorem state : Assembled state :=
  bind (accept _) fun _ => bind (keyword _) fun _ => bind (mark _) fun _ => bind identifier
    fun _ => bind (mark _) fun _ => bind (items transition) fun _ => bind (mark _) fun _ => pure _

theorem platform : Assembled platform :=
  bind (keyword _) fun _ => bind (mark _) fun _ => bind identifier fun _ => bind (mark _) fun _ =>
    pure _

theorem program : Assembled program :=
  bind (keyword _) fun _ => bind (mark _) fun _ => bind identifier fun _ => bind (mark _) fun _ =>
    bind platform fun _ => bind (items declaration) fun _ => bind (items state) fun _ =>
      bind expectEnd fun _ => pure _

end Assembled

theorem IsRule.assembled {α : Type} {rule : ParseM α} (h : IsRule rule) : Assembled rule := by
  cases h with
  | program => exact .program
  | platform => exact .platform
  | declarations => exact .items .declaration
  | declaration => exact .declaration
  | states => exact .items .state
  | state => exact .state
  | transitions => exact .items .transition
  | transition => exact .transition
  | assignments => exact .items .assignment
  | assignment => exact .assignment
  | expr power => exact .expr power
  | expectEnd => exact .expectEnd

/-- A rule whose faults are about the token at which it leaves the parser. -/
def FailsInPlace {α : Type} (rule : ParseM α) : Prop :=
  ∀ p fault q, rule p = .error fault q → fault.At q.current

variable {α β : Type} {p q : Parser} {fault : Fault}

theorem bind_error_iff {x : ParseM α} {f : α → ParseM β} : (x >>= f) p = .error fault q ↔
    x p = .error fault q ∨ ∃ a m, x p = .ok a m ∧ f a m = .error fault q := by
  change EStateM.bind x f p = _ ↔ _
  unfold EStateM.bind
  cases x p with
  | ok a m => simp [and_assoc]
  | error fault m => simp

namespace FailsInPlace

theorem pure (a : α) : FailsInPlace (pure a) := by
  intro p fault q h
  cases h

theorem bind {x : ParseM α} {f : α → ParseM β} (hx : FailsInPlace x)
    (hf : ∀ a, FailsInPlace (f a)) : FailsInPlace (x >>= f) := by
  intro p fault q h
  rcases bind_error_iff.mp h with hfirst | ⟨a, m, -, hsecond⟩
  · exact hx p fault q hfirst
  · exact hf a m fault q hsecond

theorem failExpected (expected : String) :
    FailsInPlace (failExpected expected : ParseM α) := by
  intro p fault q h
  cases h
  exact .mismatch expected

theorem failTooDeep : FailsInPlace (failTooDeep : ParseM α) := by
  intro p fault q h
  cases h
  exact .tooDeep

theorem expect (kind : Token.Kind) : FailsInPlace (expect kind) := by
  intro p fault q h
  simp only [Parser.expect, peek_bind] at h
  by_cases hkind : p.current.kind = kind
  · rw [if_pos hkind] at h
    cases h
  · rw [if_neg hkind] at h
    exact failExpected _ p fault q h

theorem keyword (word : Keyword) : FailsInPlace (expectKeyword word) :=
  bind (expect _) fun _ => pure _

theorem mark (mark : Punctuation) : FailsInPlace (expectMark mark) :=
  bind (expect _) fun _ => pure _

theorem expectEnd : FailsInPlace expectEnd := bind (expect _) fun _ => pure _

theorem identifier : FailsInPlace identifier := bind (expect _) fun _ => pure _

theorem accept (kind : Token.Kind) : FailsInPlace (accept kind) := by
  intro p fault q h
  simp only [Parser.accept, peek_bind] at h
  by_cases hkind : p.current.kind = kind
  · rw [if_pos hkind] at h
    cases h
  · rw [if_neg hkind] at h
    cases h

theorem setHeight (height : Nat) : FailsInPlace (setHeight height) := by
  intro p fault q h
  cases h

theorem itemsFuel {stop : Token.Kind → Bool} {item : ParseM α} (hitem : FailsInPlace item)
    (fuel : List Token) : FailsInPlace (itemsFuel stop item fuel) := by
  induction fuel with
  | nil => exact pure _
  | cons _ fuel ih =>
      intro p fault q h
      simp only [Parser.itemsFuel, peek_bind] at h
      by_cases hstop : stop p.current.kind = true
      · rw [if_pos hstop] at h
        cases h
      · rw [if_neg hstop] at h
        exact bind hitem (fun _ => bind ih fun _ => pure _) p fault q h

theorem items {stop : Token.Kind → Bool} {item : ParseM α} (hitem : FailsInPlace item) :
    FailsInPlace (items stop item) := fun p => itemsFuel hitem _ p

theorem nested {rule : ParseM α} (hrule : FailsInPlace rule) : FailsInPlace (nested rule) := by
  intro p fault q h
  unfold Parser.nested at h
  cases hok : rule { p with nesting := p.nesting + 1 } with
  | ok a m =>
      rw [hok] at h
      cases h
  | error fault' m =>
      rw [hok] at h
      cases h
      exact hrule _ _ m hok

/-! ## Expressions -/

section Operand

variable {operand : Nat → ParseM Expr} (hoperand : ∀ power, FailsInPlace (operand power))
include hoperand

/-- A rule that starts an expression is chosen by the token it starts with. -/
theorem startBy {rule : StartRule} (hrule : p.current.kind.exprRule.start? = some rule)
    (h : startBy operand rule p = .error fault q) : fault.At q.current := by
  cases rule with
  | literal =>
      have hliteral : ∃ sort, p.current.kind = .literal sort := by
        cases hkind : p.current.kind with
        | literal sort => exact ⟨sort, rfl⟩
        | punctuation mark => cases mark <;> simp [hkind, Token.Kind.exprRule] at hrule
        | operator op => cases op <;> simp [hkind, Token.Kind.exprRule] at hrule
        | _ => simp [hkind, Token.Kind.exprRule] at hrule
      obtain ⟨sort, hkind⟩ := hliteral
      simp only [Parser.startBy, constant, advance_bind, hkind] at h
      cases sort <;> cases h
  | name => exact bind identifier (fun _ => bind (setHeight 1) fun _ => pure _) p fault q h
  | group =>
      have hgroup := bind (mark .lparen) fun _ => bind (hoperand 0) fun inner =>
        bind (mark .rparen) fun _ => pure inner
      exact hgroup p fault q h

/-- So is one that continues an expression. -/
theorem continueBy {rule : ContinueRule} {left : Expr}
    (hrule : p.current.kind.exprRule.continue? = some rule)
    (h : continueBy operand rule left p = .error fault q) : fault.At q.current := by
  obtain ⟨op, hkind⟩ := continue?_eq_some hrule
  rw [continueBy_operator hkind hrule] at h
  exact bind (hoperand op.power) (fun _ => pure _) p.next fault q h

theorem climbFuel (power fuel : Nat) (left : Expr) (height : Nat) :
    FailsInPlace (climbFuel operand power fuel left height) := by
  induction fuel generalizing left height with
  | zero => exact failTooDeep
  | succ fuel ih =>
      intro p fault q h
      simp only [Parser.climbFuel, peek_bind] at h
      by_cases hend : p.current.kind.exprRule.power ≤ power
      · rw [if_pos hend] at h
        cases h
      · rw [if_neg hend] at h
        cases hrule : p.current.kind.exprRule.continue? with
        | none =>
            rw [hrule] at h
            exact failExpected _ p fault q h
        | some rule =>
            rw [hrule] at h
            rcases bind_error_iff.mp h with hcontinue | ⟨whole, m, -, hloop⟩
            · exact continueBy hoperand hrule hcontinue
            · change (if maxDepth < 1 + max height m.height then Parser.failTooDeep
                else Parser.climbFuel operand power fuel whole (1 + max height m.height)) m = _ at hloop
              split at hloop
              · exact failTooDeep m fault q hloop
              · exact ih whole _ m fault q hloop

theorem exprAt (power : Nat) : FailsInPlace (exprAt operand power) := by
  intro p fault q h
  simp only [Parser.exprAt, peek_bind] at h
  cases hrule : p.current.kind.exprRule.start? with
  | none =>
      rw [hrule] at h
      exact failExpected _ p fault q h
  | some rule =>
      rw [hrule] at h
      rcases bind_error_iff.mp h with hstart | ⟨left, m, -, hloop⟩
      · exact startBy hoperand hrule hstart
      · exact climbFuel hoperand power maxDepth left m.height m fault q hloop

end Operand

theorem exprWithin (levels power : Nat) : FailsInPlace (exprWithin levels power) := by
  induction levels generalizing power with
  | zero => exact failTooDeep
  | succ levels ih => exact nested (exprAt ih power)

theorem expr (power : Nat) : FailsInPlace (expr power) := fun p => exprWithin _ power p

/-! ## Programs -/

theorem varType : FailsInPlace varType := by
  intro p fault q h
  simp only [Parser.varType, peek_bind] at h
  cases htype : VarType.ofKind? p.current.kind with
  | none =>
      rw [htype] at h
      exact failExpected _ p fault q h
  | some type =>
      rw [htype] at h
      cases h

end FailsInPlace

theorem Assembled.failsInPlace {rule : ParseM α} (h : Assembled rule) : FailsInPlace rule := by
  induction h with
  | pure a => exact .pure a
  | bind _ _ ihx ihf => exact .bind ihx ihf
  | keyword word => exact .keyword word
  | mark mark => exact .mark mark
  | identifier => exact .identifier
  | expectEnd => exact .expectEnd
  | accept kind => exact .accept kind
  | varType => exact .varType
  | expr power => exact .expr power
  | items _ ih => exact .items ih

theorem IsRule.failsInPlace {rule : ParseM α} (h : IsRule rule) : FailsInPlace rule :=
  h.assembled.failsInPlace

theorem FailsInPlace.program : FailsInPlace program := IsRule.program.failsInPlace

end Parser

end StateLang
