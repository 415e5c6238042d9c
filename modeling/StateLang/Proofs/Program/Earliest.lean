import StateLang.Proofs.Program.Reading
import StateLang.Proofs.Tracking

/-!
# Faults are found at the first token that fits nowhere

Every rule tracks the language of its production. A program whose reading fails,
for another reason than the depth of an expression, is therefore cut at the first
token with which no program goes on.
-/

namespace StateLang

open Computability Sentences

namespace Parser

variable {depth levels power fuel h : Nat} {read : Nat → ParseM Expr} {p : Parser} {left : Expr}
  {C M : Language Token.Kind}

/-! ## Expressions -/

/-- Inside an expression the end of an operand is the end of no more than that: operators may
follow it, whatever their power. -/
def TracksOperands (depth : Nat) (read : Nat → ParseM Expr) : Prop :=
  ∀ (power : Nat) (C : Language Token.Kind) [Productive C], StartsIn (EndsExpr 0) C →
    Tracks depth (read power) (operand * (operations * C)) (operations * C)

/-- An expression of the lowest power ends where the whole expression does. -/
theorem TracksOperands.whole (htracks : TracksOperands depth read)
    (hreads : ReadsOperands depth levels read) [Productive C] (hend : StartsIn (EndsExpr 0) C) :
    Tracks depth (read 0) (expression * C) C := by
  intro p hp
  rw [expression_eq, mul_assoc]
  refine (htracks 0 C hend p hp).narrow le_kstar_mul fun e q hok w hw hmem => ?_
  obtain ⟨-, -, -, hends⟩ := (hreads.reads 0).sound hp hok
  cases w with
  | nil => cases hw
  | cons k w =>
      rcases cons_mem_operations_mul.mp hmem with ⟨op, hk, -⟩ | hmem
      · have hpower : op.power ≤ 0 := by
          rw [← power_of_operator hk, Option.some.inj hw]
          exact hends
        have hpos := op.power_pos
        omega
      · exact hmem

theorem start?_eq_some {kind : Token.Kind} {rule : StartRule}
    (h : kind.exprRule.start? = some rule) :
    (rule = .literal ∧ ∃ sort, kind = .literal sort) ∨ (rule = .name ∧ kind = .identifier) ∨
      (rule = .group ∧ kind = .punctuation .lparen) := by
  cases kind with
  | punctuation mark => cases mark <;> simp_all [Token.Kind.exprRule]
  | operator op => cases op <;> simp [Token.Kind.exprRule] at h
  | _ => simp_all [Token.Kind.exprRule]

theorem start?_of_operand {k : Token.Kind} {w : List Token.Kind} (h : k :: w ∈ operand * M) :
    k.exprRule.start? ≠ none := by
  rcases cons_mem_operand_mul.mp h with ⟨⟨sort, rfl⟩ | rfl, -⟩ | ⟨rfl, -⟩ <;>
    simp [Token.Kind.exprRule]

theorem startBy_tracked (hreads : ReadsOperands depth levels read)
    (htracks : TracksOperands depth read) [Productive M] {rule : StartRule} (hp : p.Ready depth)
    (hrule : p.current.kind.exprRule.start? = some rule) :
    Tracked p (operand * M) M (startBy read rule p) := by
  -- a token that starts an expression is the only way to go on from where it stands
  have hwiden {k : Token.Kind} {N : Language Token.Kind} {result : EStateM.Result Fault Parser Expr}
      (hk : p.current.kind = k) (h : Tracked p (token k * N) M result)
      (hiff : ∀ w, k :: w ∈ operand * M ↔ w ∈ N) : Tracked p (operand * M) M result := by
    refine h.widen ?_ fun w hw hmem => ?_
    · rintro _ ⟨_, rfl, w, hw, rfl⟩
      exact (hiff w).mpr hw
    · cases w with
      | nil => cases hw
      | cons k' w =>
          obtain rfl : k' = k := (Option.some.inj hw).trans hk
          exact cons_mem_token_mul_self ((hiff w).mp hmem)
  rcases start?_eq_some hrule with ⟨rfl, sort, hk⟩ | ⟨rfl, hk⟩ | ⟨rfl, hk⟩
  · have hnext := (next_crosses hp (by simp [hk])).withHeight 1
    have hok : startBy read .literal p = .ok _ _ := constant_ok_iff.mpr ⟨sort, hk, rfl, rfl⟩
    rw [hok]
    exact hwiden hk (.pass hnext hk) fun w => by simp [cons_mem_operand_mul]
  · have hnext := (next_crosses hp (by simp [hk])).withHeight 1
    rw [startName_ok_iff.mpr ⟨hk, rfl, rfl⟩]
    exact hwiden hk (.pass hnext hk) fun w => by simp [cons_mem_operand_mul]
  · have hclose : StartsIn (EndsExpr 0) (mark .rparen * M) := .mul (.token (Nat.le_refl 0))
    have hgroup : Tracks depth (startBy read .group)
        (mark .lparen * (expression * (mark .rparen * M))) M :=
      .bind (.mark .lparen) fun _ => .bind (htracks.whole hreads hclose) fun inner =>
        .bind (.mark .rparen) fun _ => .pure inner
    exact hwiden hk (hgroup p hp) fun w => by simp [cons_mem_operand_mul]

/-- One operator and its right operand. -/
theorem continueBy_tracked (htracks : TracksOperands depth read) [Productive C]
    (hend : StartsIn (EndsExpr 0) C) {rule : ContinueRule} (hp : p.Ready depth)
    (hrule : p.current.kind.exprRule.continue? = some rule) :
    Tracked p (operations * C) (operations * C) (continueBy read rule left p) := by
  obtain ⟨op, hk⟩ := continue?_eq_some hrule
  have hnext := next_crosses hp (by simp [hk])
  have hadvance : Tracked p (token (.operator op) * (operand * (operations * C)))
      (operand * (operations * C)) (advance p) := .pass hnext hk
  have hturn : Tracked p (token (.operator op) * (operand * (operations * C))) (operations * C)
      ((advance >>= fun _ => read op.power >>= fun right =>
        pure (Expr.binary op left right)) p) := by
    refine hadvance.bind fun _ m hok => ?_
    cases hok
    have hright : Tracks depth (read op.power >>= fun right => pure (Expr.binary op left right))
        (operand * (operations * C)) (operations * C) :=
      .bind (htracks op.power C hend) fun _ => .pure _
    exact hright p.next (hnext.ready hp)
  rw [continueBy_operator hk hrule]
  refine hturn.widen ?_ fun w hw hmem => ?_
  · rintro _ ⟨_, rfl, w, hw, rfl⟩
    exact cons_mem_operations_mul.mpr (.inl ⟨op, rfl, hw⟩)
  · cases w with
    | nil => cases hw
    | cons k w =>
        obtain rfl : k = .operator op := (Option.some.inj hw).trans hk
        rcases cons_mem_operations_mul.mp hmem with ⟨op', hop, hw⟩ | hmem
        · exact cons_mem_token_mul_self hw
        · have hpower : op.power ≤ 0 := by
            rw [← power_of_operator rfl]
            exact hend.head hmem
          have hpos := op.power_pos
          omega

theorem climbFuel_tracked (htracks : TracksOperands depth read) [Productive C]
    (hend : StartsIn (EndsExpr 0) C) (hp : p.Ready depth) :
    Tracked p (operations * C) (operations * C) (climbFuel read power fuel left h p) := by
  induction fuel generalizing p left h with
  | zero => exact .tooDeep rfl
  | succ fuel ih =>
      by_cases hpower : p.current.kind.exprRule.power ≤ power
      · rw [climbFuel_end hpower]
        exact .ok ((Crosses.refl p).withHeight h) (fun _ hw => hw) fun _ _ hw => hw
      · simp only [climbFuel, peek_bind]
        rw [if_neg hpower]
        cases hrule : p.current.kind.exprRule.continue? with
        | none =>
            refine .mismatch (fun w hw => ?_) fun kind hkind =>
              absurd hkind (Token.Kind.ne_description (by simp) kind)
            rcases cons_mem_operations_mul.mp hw with ⟨op, hk, -⟩ | hw
            · obtain ⟨rule, hop, -⟩ := exprRule_operator op
              rw [hk, hop] at hrule
              cases hrule
            · have hends : p.current.kind.exprRule.power ≤ 0 := hend.head hw
              omega
        | some rule =>
            have hturn : Tracked p (operations * C) (operations * C)
                (continueBy read rule left p) := continueBy_tracked htracks hend hp hrule
            refine hturn.bind fun whole m hok => ?_
            have hm := hturn.ready hok hp
            change Tracked m _ _ ((if maxDepth < 1 + max h m.height then failTooDeep
              else climbFuel read power fuel whole (1 + max h m.height)) m)
            split
            · exact .tooDeep rfl
            · exact ih hm

theorem exprAt_tracked (hreads : ReadsOperands depth levels read)
    (htracks : TracksOperands depth read) : TracksOperands depth (exprAt read) := by
  intro power C _ hend p hp
  simp only [exprAt, peek_bind]
  cases hrule : p.current.kind.exprRule.start? with
  | none =>
      exact .mismatch (fun w hw => start?_of_operand hw hrule) fun kind hkind =>
        absurd hkind (Token.Kind.ne_description (by simp) kind)
  | some rule =>
      have hstart := startBy_tracked (M := operations * C) hreads htracks hp hrule
      refine hstart.bind fun left m hok => ?_
      exact climbFuel_tracked htracks hend (hstart.ready hok hp)

theorem nested_tracked {α : Type} {rule : ParseM α} (h : Tracks (depth + 1) rule C M) :
    Tracks depth (nested rule) C M := by
  intro p hp
  have hinner := h _ hp.deeper
  have houter {ts : List Token} {m : Parser}
      (hc : Crosses { p with nesting := p.nesting + 1 } ts m) :
      p.Crosses ts { m with nesting := m.nesting - 1 } :=
    ⟨hc.passed, hc.ahead, by simp [hc.nesting], hc.inside⟩
  unfold nested
  generalize rule { p with nesting := p.nesting + 1 } = result at hinner
  cases hinner with
  | ok hc hafter hbefore => exact .ok (houter hc) hafter hbefore
  | stuck hc h => exact .stuck (houter hc) h
  | tooDeep h => exact .tooDeep h

theorem exprWithin_tracks (depth levels : Nat) : TracksOperands depth (exprWithin levels) := by
  induction levels generalizing depth with
  | zero => exact fun _ _ _ _ _ _ => .tooDeep rfl
  | succ levels ih =>
      intro power C _ hend
      exact nested_tracked
        (exprAt_tracked (exprWithin_readsOperands (depth + 1) levels) (ih (depth + 1)) power C hend)

theorem expr_tracks [Productive C] (hend : StartsIn (EndsExpr 0) C) :
    Tracks depth (expr 0) (expression * C) C := by
  intro p hp
  simp only [expr, hp.nesting]
  exact (exprWithin_tracks depth _).whole (exprWithin_readsOperands depth _) hend p hp

/-! ## Programs -/

theorem varType_tracks [hC : Productive C] : Tracks depth varType (type * C) C := by
  intro p hp
  simp only [varType, peek_bind]
  cases htype : VarType.ofKind? p.current.kind with
  | none =>
      refine .mismatch (fun w hw => ?_) fun kind hkind =>
        absurd hkind (Token.Kind.ne_description (by simp) kind)
      have hsome := (cons_mem_type_mul.mp hw).1
      rw [htype] at hsome
      cases hsome
  | some type =>
      have hinside : p.current.kind ≠ .endOfFile := by
        intro hk
        rw [hk] at htype
        cases htype
      refine .ok (next_crosses hp hinside) (fun w hw => ?_) fun w _ hw => ?_
      · exact cons_mem_type_mul.mpr ⟨by rw [htype]; rfl, hw⟩
      · exact (cons_mem_type_mul.mp hw).2

theorem declaration_tracks [Productive C] :
    Tracks depth declaration (Sentences.declaration * C) C := by
  simp only [Sentences.declaration, mul_assoc]
  exact .bind varType_tracks fun _ => .bind .identifier fun _ => .bind (.mark _) fun _ => .pure _

theorem assignment_tracks [Productive C] :
    Tracks depth assignment (Sentences.assignment * C) C := by
  simp only [Sentences.assignment, mul_assoc]
  have hend : StartsIn (EndsExpr 0) (mark .semicolon * C) := .mul (.token (Nat.le_refl 0))
  exact .bind .identifier fun _ => .bind (.mark _) fun _ => .bind (expr_tracks hend) fun _ =>
    .bind (.mark _) fun _ => .pure _

theorem assignments_tracks [Productive C] (hend : StartsIn (· = .punctuation .rbrace) C) :
    Tracks depth assignments (Sentences.assignment∗ * C) C := by
  refine .items assignment_tracks (StartsIn.mono assignment_startsIn fun k hk => ?_)
    (hend.mono fun k hk => ?_)
  · rw [hk]
    rfl
  · rw [hk]
    rfl

theorem destination_tracks [Productive C] :
    Tracks depth destination (Sentences.destination * C) C := by
  simp only [Sentences.destination, add_mul, mul_assoc]
  exact .acceptBind (by simp) (.bind .identifier fun _ => .pure _)
    (.bind (.keyword .exit) fun _ => .pure _) (.mul (.token (by simp)))

theorem transition_tracks [Productive C] :
    Tracks depth transition (Sentences.transition * C) C := by
  simp only [Sentences.transition, mul_assoc]
  have hguard {L : Language Token.Kind} : StartsIn (EndsExpr 0) (keyword .performing * L) :=
    .mul (.token (Nat.le_refl 0))
  have hbody {L : Language Token.Kind} :
      StartsIn (· = .punctuation .rbrace) (mark .rbrace * L) := .mul (.token rfl)
  exact .bind destination_tracks fun _ => .bind (.keyword _) fun _ => .bind (expr_tracks hguard)
    fun _ => .bind (.keyword _) fun _ => .bind (.mark _) fun _ =>
      .bind (assignments_tracks hbody) fun _ => .bind (.mark _) fun _ => .bind (.mark _) fun _ =>
        .pure _

theorem transitions_tracks [Productive C] (hend : StartsIn (· = .punctuation .rbrace) C) :
    Tracks depth transitions (Sentences.transition∗ * C) C := by
  refine .items transition_tracks (StartsIn.mono transition_startsIn fun k hk => ?_)
    (hend.mono fun k hk => ?_)
  · rcases hk with rfl | rfl <;> rfl
  · rw [hk]
    rfl

theorem state_tracks [Productive C] : Tracks depth state (Sentences.state * C) C := by
  simp only [Sentences.state, add_mul, one_mul, mul_assoc]
  have hbody : StartsIn (· = .punctuation .rbrace) (mark .rbrace * C) := .mul (.token rfl)
  have hrest (isInitial : Bool) : Tracks depth _ _ C := .bind (.keyword .state) fun _ =>
    .bind (.mark .colon) fun _ => .bind .identifier fun name => .bind (.mark .lbrace) fun _ =>
      .bind (transitions_tracks hbody) fun transitions => .bind (.mark .rbrace) fun _ =>
        .pure (State.mk name transitions isInitial)
  exact .acceptBind (by simp) (hrest true) (hrest false) (.mul (.token (by simp)))

theorem platform_tracks [Productive C] : Tracks depth platform (Sentences.platform * C) C := by
  simp only [Sentences.platform, mul_assoc]
  exact .bind (.keyword _) fun _ => .bind (.mark _) fun _ => .bind .identifier fun _ =>
    .bind (.mark _) fun _ => .pure _

theorem states_tracks :
    Tracks depth states (Sentences.state∗ * token .endOfFile) (token .endOfFile) := by
  refine .items state_tracks (StartsIn.mono state_startsIn fun k hk => ?_) (.token rfl)
  rcases hk with rfl | rfl <;> rfl

theorem declarations_tracks : Tracks depth declarations
    (Sentences.declaration∗ * (Sentences.state∗ * token .endOfFile))
    (Sentences.state∗ * token .endOfFile) := by
  have hend : StartsIn (fun k => k = .keyword .initial ∨ k = .keyword .state ∨ k = .endOfFile)
      (Sentences.state∗ * token .endOfFile) :=
    .kstar_mul (StartsIn.mono state_startsIn fun k hk => by rcases hk with hk | hk <;> simp [hk])
      (.token (by simp))
  refine .items declaration_tracks (StartsIn.mono declaration_startsIn fun k hk => ?_)
    (hend.mono fun k hk => ?_)
  · cases k with
    | keyword word => cases word <;> first | rfl | cases hk
    | _ => cases hk
  · rcases hk with rfl | rfl | rfl <;> rfl

theorem program_tracks : Tracks depth program Sentences.program (token .endOfFile) := by
  simp only [Sentences.program, mul_assoc]
  exact .bind (.keyword _) fun _ => .bind (.mark _) fun _ => .bind .identifier fun _ =>
    .bind (.mark _) fun _ => .bind platform_tracks fun _ => .bind declarations_tracks fun _ =>
      .bind states_tracks fun _ => .bind .expectEnd fun _ => .pure _

/-! ## Whole token lists -/

/-- A rule that tracks a language and fails on a token list, for another reason than depth, is
stuck at one of its tokens. -/
theorem Tracks.stuckAt {α : Type} {rule : ParseM α} {tokens : List Token} {fault : Fault}
    (hrule : Tracks 0 rule C M) (hplace : FailsInPlace rule)
    (hread : Parser.read rule tokens = .error fault) (hdeep : ¬ fault.IsTooDeep) :
    ∃ ts t rest, terminated tokens = ts ++ t :: rest ∧ fault.At t ∧ StuckAt C ts t fault := by
  have htracked := hrule _ (ofTokens_ready tokens)
  unfold Parser.read at hread
  generalize hresult : rule (ofTokens tokens) = result at htracked hread
  cases htracked with
  | ok => cases hread
  | @stuck ts fault' q hc h =>
      cases hread
      refine ⟨ts, q.current, q.upcoming, ?_, hplace _ _ _ hresult, h⟩
      rw [← ofTokens_ahead]
      exact hc.ahead
  | tooDeep h =>
      cases hread
      exact absurd h hdeep

/-- What is read as a program is a sentence. -/
theorem kinds_mem_program {body : List Token} {last : Token} {program : Program}
    (hlast : last.kind = .endOfFile) (hbody : ∀ t ∈ body, t.kind ≠ .endOfFile)
    (hread : Parser.read Parser.program (body ++ [last]) = .ok program) :
    Token.kinds (body ++ [last]) ∈ Sentences.program := by
  obtain ⟨q, hok⟩ := read_ok_iff.mp hread
  have hready := ofTokens_ready (body ++ [last])
  obtain ⟨-, -, -, hend⟩ := Reads.sound program_reads hready hok
  have htracked := program_tracks _ hready
  rw [hok] at htracked
  cases htracked with
  | @ok ts _ _ hc hafter =>
      have hcut : ts ++ q.current :: q.upcoming = body ++ [last] := by
        rw [← terminated_of_end hlast, ← ofTokens_ahead]
        exact hc.ahead.symm
      have hmem := hafter [.endOfFile] rfl
      rw [cut_unique hcut hend hc.inside hlast hbody] at hmem
      simpa [Token.kinds, hlast] using hmem

/-- A sentence is read as a program, unless an expression in it is too deep. -/
theorem read_of_kinds_mem {body : List Token} {last : Token} (hlast : last.kind = .endOfFile)
    (hmem : Token.kinds (body ++ [last]) ∈ Sentences.program) :
    (∃ program, Parser.read Parser.program (body ++ [last]) = .ok program) ∨
      ∃ fault, Parser.read Parser.program (body ++ [last]) = .error fault ∧ fault.IsTooDeep := by
  cases hread : Parser.read Parser.program (body ++ [last]) with
  | ok program => exact .inl ⟨program, rfl⟩
  | error fault =>
      refine .inr ⟨fault, rfl, Classical.not_not.mp fun hdeep => ?_⟩
      obtain ⟨ts, t, rest, htokens, -, hstuck⟩ := Tracks.stuckAt program_tracks .program hread hdeep
      rw [terminated_of_end hlast] at htokens
      refine hstuck.refused ⟨Token.kinds rest, ?_⟩
      rw [htokens] at hmem
      simpa [Token.kinds] using hmem

end Parser

/-- A token list with an end last that is not read as a program, and for another reason than
the depth of an expression, is refused at the first token with which no program goes on: the tokens
before it start a program, with it they do not, and with a token of the kind that the fault asks
for in its place they do. -/
theorem fault_at_earliest_token {body : List Token} {last : Token} {fault : Fault}
    (hlast : last.kind = .endOfFile)
    (hread : Parser.read Parser.program (body ++ [last]) = .error fault)
    (hdeep : ¬ fault.IsTooDeep) :
    ∃ k t, (body ++ [last])[k]? = some t ∧ fault.pos? = some t.pos ∧
      Viable Sentences.program (Token.kinds ((body ++ [last]).take k)) ∧
      ¬ Viable Sentences.program (Token.kinds ((body ++ [last]).take (k + 1))) ∧
      ∀ (kind : Token.Kind) (t' : Token), fault.expected? = some kind.description →
        t'.kind = kind →
        Viable Sentences.program (Token.kinds (((body ++ [last]).set k t').take (k + 1))) := by
  obtain ⟨ts, t, rest, htokens, hat, hstuck⟩ :=
    Parser.Tracks.stuckAt Parser.program_tracks .program hread hdeep
  rw [Parser.terminated_of_end hlast] at htokens
  rw [htokens]
  have htake (t' : Token) : Token.kinds ((ts ++ t' :: rest).take (ts.length + 1)) =
      Token.kinds ts ++ [t'.kind] := by simp [Token.kinds, List.take_append]
  refine ⟨ts.length, t, by simp, hat.pos?_eq, ?_, ?_, ?_⟩
  · rw [List.take_left']
    · exact hstuck.viable
    · rfl
  · rw [htake]
    exact hstuck.refused
  · rintro kind t' hkind rfl
    rw [List.set_append_right _ _ (Nat.le_refl _), Nat.sub_self, List.set_cons_zero, htake]
    exact hstuck.expected t'.kind hkind

/-- A group that is not closed is refused at the word after it, for want of a parenthesis. -/
theorem fault_at_earliest_token_open_group :
    let kinds : List Token.Kind := [.keyword .name, .punctuation .colon, .identifier,
      .punctuation .semicolon, .keyword .platform, .punctuation .colon, .identifier,
      .punctuation .semicolon, .keyword .state, .punctuation .colon, .identifier,
      .punctuation .lbrace, .keyword .exit, .keyword .when, .punctuation .lparen, .identifier,
      .operator (.compare .lt), .literal .int, .keyword .performing]
    let body : List Token := kinds.zipIdx.map fun (kind, i) => ⟨kind, "x", i, ⟨1, i + 1⟩⟩
    let last := Token.endAt 19 ⟨1, 20⟩
    let fault := Fault.grammar "')'" "'performing'" ⟨1, 19⟩
    Parser.read Parser.program (body ++ [last]) = .error fault ∧ ¬ fault.IsTooDeep ∧
      ∃ k t, (body ++ [last])[k]? = some t ∧ fault.pos? = some t.pos ∧
        Viable Sentences.program (Token.kinds ((body ++ [last]).take k)) ∧
        ¬ Viable Sentences.program (Token.kinds ((body ++ [last]).take (k + 1))) ∧
        ∀ (kind : Token.Kind) (t' : Token), fault.expected? = some kind.description →
          t'.kind = kind →
          Viable Sentences.program (Token.kinds (((body ++ [last]).set k t').take (k + 1))) := by
  intro kinds body last fault
  have hread : Parser.read Parser.program (body ++ [last]) = .error fault := by decide
  have hdeep : ¬ fault.IsTooDeep := by simp [fault, Fault.IsTooDeep, Fault.expected?]
  exact ⟨hread, hdeep, fault_at_earliest_token rfl hread hdeep⟩

end StateLang
