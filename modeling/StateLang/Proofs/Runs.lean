import StateLang.Proofs.Locality
import StateLang.Proofs.Unplaced

/-!
# Runs of a parser

A parser may be asked for one thing after the other, and goes on from where the
last answer or fault left it. Each step moves it forward over tokens that are no
end and closes every expression it opened, so between steps the parser is never
past the first end and never inside an expression. And since a step is settled by
what it passes, neither the steps before it nor the tokens beyond have a say in
its outcome.
-/

namespace StateLang

/-- What a fault or an answer can tell of a token: all but its place in the list. -/
def Token.face (t : Token) : Token.Kind × String × Position := (t.kind, t.lexeme, t.pos)

/-- A fault is told by its place and what it is apart from that. -/
theorem Fault.eq_of_unplaced {fault fault' : Fault} (h : fault.unplaced = fault'.unplaced)
    (hpos : fault.pos? = fault'.pos?) : fault = fault' := by
  cases fault <;> cases fault' <;> simp_all [Fault.unplaced, Fault.pos?]

theorem Token.map_unplaced_of_face {xs ys : List Token} (h : xs.map face = ys.map face) :
    xs.map unplaced = ys.map unplaced := by
  have hcongr := congrArg (List.map fun f => Token.mk f.1 f.2.1 0 .start) h
  rw [List.map_map, List.map_map] at hcongr
  exact hcongr

namespace Parser

variable {α : Type} {rule : ParseM α} {p q r : Parser} {tokens ts : List Token}

/-- The answer or the fault of a rule. -/
def outcome (rule : ParseM α) (p : Parser) : Except Fault α :=
  match rule p with
  | .ok a _ => .ok a
  | .error fault _ => .error fault

/-- Where a rule leaves the parser, whether it succeeds or fails. -/
def after (rule : ParseM α) (p : Parser) : Parser :=
  match rule p with
  | .ok _ q => q
  | .error _ q => q

/-- What may be asked of a parser: a rule, or to start or continue an expression at the current
token, whatever that is. -/
inductive IsStep : {α : Type} → ParseM α → Prop
  | rule {α : Type} {rule : ParseM α} (h : IsRule rule) : IsStep rule
  | start (rule : StartRule) : IsStep (start rule)
  | extend (rule : ContinueRule) (left : Expr) : IsStep (extend rule left)

/-- `q` is `p` after any number of steps, some of which may have failed. -/
inductive Steps (p : Parser) : Parser → Prop
  | refl : Steps p p
  | step {α : Type} {rule : ParseM α} {q : Parser} (h : Steps p q) (hrule : IsStep rule) :
      Steps p (after rule q)

/-- The rules for phrases that are never empty. -/
inductive IsPhraseRule : {α : Type} → ParseM α → Prop
  | expr (power : Nat) : IsPhraseRule (expr power)
  | assignment : IsPhraseRule assignment
  | transition : IsPhraseRule transition
  | state : IsPhraseRule state
  | declaration : IsPhraseRule declaration
  | platform : IsPhraseRule platform

/-- What can be told of the tokens from the parser's place to `n` tokens further on. -/
def window (p : Parser) (n : Nat) : List (Token.Kind × String × Position) :=
  ((p.tokens.drop p.cursor).take (n + 1)).map Token.face

/-! ## One step -/

theorem after_eq {result : Except Fault α} (h : rule p = leaving result q) : after rule p = q := by
  unfold after
  rw [h]
  cases result <;> rfl

theorem outcome_eq {result : Except Fault α} (h : rule p = leaving result q) :
    outcome rule p = result := by
  unfold outcome
  rw [h]
  cases result <;> rfl

theorem IsStep.isLocal (h : IsStep rule) : Local 0 rule := by
  cases h with
  | rule h => exact h.isLocal
  | start rule => exact .startBy .expr rule
  | extend rule left => exact .continueBy .expr rule left

/-- A step passes tokens that are no end, and is in no more expressions after it than before. -/
theorem IsStep.crosses (h : IsStep rule) (hp : p.Ready 0) : ∃ ts, p.Crosses ts (after rule p) := by
  obtain ⟨ts, result, q, hq, hc⟩ := (h.isLocal p hp).exists_crosses hp
  rw [after_eq hq]
  exact ⟨ts, hc⟩

theorem IsPhraseRule.moves (h : IsPhraseRule rule) : Moves 0 rule := by
  cases h with
  | expr power => exact expr_moves power
  | assignment => exact assignment_moves
  | transition => exact transition_moves
  | state => exact state_moves
  | declaration => exact declaration_moves
  | platform => exact platform_moves

/-! ## Runs -/

theorem Steps.crosses (h : Steps p q) (hp : p.Ready 0) : ∃ ts, p.Crosses ts q := by
  induction h with
  | refl => exact ⟨[], .refl p⟩
  | step _ hrule ih =>
      obtain ⟨xs, hxs⟩ := ih
      obtain ⟨ys, hys⟩ := hrule.crosses (hxs.ready hp)
      exact ⟨xs ++ ys, hxs.trans hys⟩

theorem Steps.ready (h : Steps (ofTokens tokens) p) : p.Ready 0 := by
  obtain ⟨ts, hc⟩ := h.crosses (ofTokens_ready tokens)
  exact hc.ready (ofTokens_ready tokens)

/-- A run has passed the tokens before its place, and no end is among them. -/
theorem Steps.terminated_eq (h : Steps (ofTokens tokens) p) :
    terminated tokens = p.passed.reverse ++ p.ahead ∧
      ∀ t ∈ p.passed.reverse, t.kind ≠ .endOfFile := by
  obtain ⟨ts, hc⟩ := h.crosses (ofTokens_ready tokens)
  have hpassed : p.passed.reverse = ts := by simp [hc.passed, ofTokens_passed]
  rw [hpassed, ← ofTokens_ahead]
  exact ⟨hc.ahead, hc.inside⟩

theorem Steps.tokens_eq (h : Steps (ofTokens tokens) p) : p.tokens = terminated tokens :=
  h.terminated_eq.1.symm

theorem Steps.cursor_le_findIdx (h : Steps (ofTokens tokens) p) :
    p.cursor ≤ (terminated tokens).findIdx fun t => t.kind = .endOfFile := by
  obtain ⟨heq, hinside⟩ := h.terminated_eq
  have hnone : p.passed.reverse.findIdx (fun t => decide (t.kind = .endOfFile)) =
      p.passed.reverse.length := by
    rw [List.findIdx_eq_length]
    simpa using hinside
  rw [heq, List.findIdx_append, hnone]
  simp [cursor]

/-- Between the steps of any run the parser has all its tokens, is in no expression and stands at
most at the first end. No step takes it back, and a rule for a phrase that is never empty takes it
further whenever it succeeds. -/
theorem steps_place (h : Steps (ofTokens tokens) p) :
    p.tokens = terminated tokens ∧ p.nesting = 0 ∧
    p.cursor ≤ (terminated tokens).findIdx (fun t => t.kind = .endOfFile) ∧
    (∀ q, Steps p q → p.cursor ≤ q.cursor) ∧
    ∀ {α : Type} {rule : ParseM α}, IsPhraseRule rule →
      ∀ a q, rule p = .ok a q → p.cursor < q.cursor := by
  refine ⟨h.tokens_eq, h.ready.nesting, h.cursor_le_findIdx, ?_, ?_⟩
  · intro q hq
    obtain ⟨ts, hc⟩ := hq.crosses h.ready
    rw [hc.cursor_eq]
    omega
  · intro α rule hrule a q hok
    obtain ⟨t, ts, hc⟩ := hrule.moves h.ready hok
    rw [hc.cursor_eq, List.length_cons]
    omega

/-- A list with an end in the middle. A parenthesis is no literal, so the first step fails behind
it; the second reads a number, and the third fails at the end and stays there. -/
theorem steps_place_midway :
    let number : Token := ⟨.literal .int, "1", 1, ⟨1, 2⟩⟩
    let tokens := [⟨.punctuation .lparen, "(", 0, ⟨1, 1⟩⟩, number, Token.endAt 2 ⟨1, 3⟩, number]
    let failed := after (start .literal) (ofTokens tokens)
    let read := after (expr 0) failed
    let last := after (extend .arithmetic (.const .int "1")) read
    Steps (ofTokens tokens) last ∧ failed.cursor < read.cursor ∧ last.nesting = 0 ∧
      last.cursor ≤ 2 := by
  intro number tokens failed read last
  have hfailed : Steps (ofTokens tokens) failed := .step .refl (.start .literal)
  have hlast : Steps (ofTokens tokens) last :=
    .step (.step hfailed (.rule (.expr 0))) (.extend .arithmetic _)
  have hread : expr 0 failed = .ok (.const .int "1") read := rfl
  have hmoves := (steps_place hfailed).2.2.2.2 (.expr 0) _ _ hread
  obtain ⟨-, hnesting, hcursor, -⟩ := steps_place hlast
  exact ⟨hlast, hmoves, hnesting, hcursor⟩

/-! ## What a step can tell apart -/

theorem drop_cursor (p : Parser) : p.tokens.drop p.cursor = p.ahead := by
  change (p.passed.reverse ++ p.ahead).drop p.passed.length = p.ahead
  rw [← List.length_reverse, List.drop_left]

theorem Crosses.window_eq (h : p.Crosses ts q) :
    p.window ts.length = ts.map Token.face ++ [q.current.face] := by
  have htake : (ts ++ q.ahead).take (ts.length + 1) = ts ++ [q.current] := by
    rw [List.take_length_add_append]
    rfl
  rw [window, drop_cursor, h.ahead, htake, List.map_append]
  rfl

theorem ahead_unplaced (p : Parser) : p.unplaced.ahead = p.ahead.map Token.unplaced := rfl

theorem cursor_unplaced (p : Parser) : p.unplaced.cursor = p.cursor := List.length_map _

theorem Ready.unplaced {depth : Nat} (hp : p.Ready depth) : p.unplaced.Ready depth := by
  obtain ⟨t, ht, hk⟩ := hp.ends
  exact ⟨hp.nesting, t.unplaced, List.mem_map_of_mem ht, hk⟩

theorem Placeless.after_eq (h : Placeless rule) (p : Parser) :
    after rule p.unplaced = (after rule p).unplaced := by
  unfold after
  rw [h p]
  cases rule p <;> rfl

theorem Placeless.outcome_eq (h : Placeless rule) (p : Parser) :
    outcome rule p.unplaced = (outcome rule p).mapError Fault.unplaced := by
  unfold outcome
  rw [h p]
  cases rule p <;> rfl

theorem FailsInPlace.pos?_eq {fault : Fault} (h : FailsInPlace rule)
    (hfault : outcome rule p = .error fault) : fault.pos? = some (after rule p).current.pos := by
  unfold outcome at hfault
  unfold after
  cases hresult : rule p with
  | ok a q =>
      rw [hresult] at hfault
      cases hfault
  | error fault' q =>
      rw [hresult] at hfault
      cases hfault
      exact (h p fault q hresult).pos?_eq

/-- The last token of the window is the one at which a step stops. -/
theorem IsStep.window_getLast? (h : IsStep rule) (hp : p.Ready 0) {n : Nat}
    (hn : (after rule p).cursor = p.cursor + n) :
    (p.window n).getLast? = some (after rule p).current.face := by
  obtain ⟨ts, hc⟩ := h.crosses hp
  have hlength : ts.length = n := by
    have hcursor := hc.cursor_eq
    omega
  rw [← hlength, hc.window_eq, List.getLast?_concat]

/-- What is ahead settles the rule also where the places are forgotten, and there the same window
means the same tokens. -/
theorem IsRule.unplaced_outcome (hrule : IsRule rule) (hp : p.Ready 0) (hr : r.Ready 0) {n : Nat}
    (hn : (after rule p).cursor = p.cursor + n) (hwindow : r.window n = p.window n) :
    (outcome rule r).mapError Fault.unplaced = (outcome rule p).mapError Fault.unplaced ∧
      (after rule r).cursor = r.cursor + n := by
  have hplaceless := hrule.placeless
  obtain ⟨ts, t, rest, result, hahead, hsettles⟩ := hrule.isLocal p.unplaced hp.unplaced
  obtain ⟨q, hq, hc⟩ := hsettles p.unplaced rest hp.unplaced hahead
  have hlength : ts.length = n := by
    have hcursor := hc.cursor_eq
    rw [← after_eq hq, hplaceless.after_eq, cursor_unplaced, cursor_unplaced, hn] at hcursor
    omega
  have htake : r.unplaced.ahead.take (n + 1) = ts ++ [t] := by
    have hsame := Token.map_unplaced_of_face hwindow
    rw [drop_cursor, drop_cursor, List.map_take, List.map_take, ← ahead_unplaced, ← ahead_unplaced,
      hahead, ← hlength, List.take_length_add_append] at hsame
    exact hlength ▸ hsame
  have hahead' : r.unplaced.ahead = ts ++ t :: r.unplaced.ahead.drop (n + 1) := by
    have hsplit := List.take_append_drop (n + 1) r.unplaced.ahead
    rw [htake, List.append_assoc] at hsplit
    exact hsplit.symm
  obtain ⟨s, hs, hcs⟩ := hsettles r.unplaced _ hr.unplaced hahead'
  constructor
  · rw [← hplaceless.outcome_eq, ← hplaceless.outcome_eq, outcome_eq hs, outcome_eq hq]
  · have hcursor := hcs.cursor_eq
    rwa [← after_eq hs, hplaceless.after_eq, cursor_unplaced, cursor_unplaced, hlength] at hcursor

theorem IsRule.outcome_of_window (hrule : IsRule rule) (hp : p.Ready 0) (hr : r.Ready 0) {n : Nat}
    (hn : (after rule p).cursor = p.cursor + n) (hwindow : r.window n = p.window n) :
    outcome rule r = outcome rule p ∧ (after rule r).cursor = r.cursor + n := by
  obtain ⟨hsame, hcursor⟩ := hrule.unplaced_outcome hp hr hn hwindow
  refine ⟨?_, hcursor⟩
  have hpos : (after rule r).current.pos = (after rule p).current.pos := by
    have hlast := IsStep.window_getLast? (.rule hrule) hp hn
    rw [← hwindow, IsStep.window_getLast? (.rule hrule) hr hcursor] at hlast
    exact congrArg (fun face => face.2.2) (Option.some.inj hlast)
  cases hr' : outcome rule r with
  | ok a =>
      cases hp' : outcome rule p with
      | ok b =>
          rw [hr', hp'] at hsame
          exact hsame
      | error fault =>
          rw [hr', hp'] at hsame
          cases hsame
  | error fault =>
      cases hp' : outcome rule p with
      | ok b =>
          rw [hr', hp'] at hsame
          cases hsame
      | error fault' =>
          rw [hr', hp'] at hsame
          have hfaults : fault.pos? = fault'.pos? := by
            rw [hrule.failsInPlace.pos?_eq hr', hrule.failsInPlace.pos?_eq hp', hpos]
          rw [Fault.eq_of_unplaced (Except.error.inj hsame) hfaults]

/-! ## Lists with a common beginning -/

section Common

variable {xs ys zs : List Token} {t : Token} {n : Nat}

theorem exists_terminated_eq (xs ys : List Token) (t : Token) :
    ∃ zs, terminated (xs ++ t :: ys) = xs ++ t :: zs := by
  unfold terminated
  split
  · next hnone => simp at hnone
  · split
    · exact ⟨ys, rfl⟩
    · exact ⟨_, List.append_assoc xs (t :: ys) _⟩

theorem Steps.exists_tokens_eq (h : Steps (ofTokens (xs ++ t :: ys)) p) :
    ∃ zs, p.tokens = xs ++ t :: zs := by
  rw [h.tokens_eq]
  exact exists_terminated_eq xs ys t

theorem Steps.cursor_le_of_end (h : Steps (ofTokens (xs ++ t :: ys)) p)
    (ht : t.kind = .endOfFile) : p.cursor ≤ xs.length := by
  obtain ⟨zs, hzs⟩ := exists_terminated_eq xs ys t
  have hcursor := h.cursor_le_findIdx
  rw [hzs, List.findIdx_append] at hcursor
  split at hcursor
  · omega
  · simpa [List.findIdx_cons, ht] using hcursor

theorem window_of_common (hp : p.tokens = xs ++ t :: ys) (hr : r.tokens = xs ++ t :: zs)
    (hcursor : r.cursor = p.cursor) (hn : p.cursor + n ≤ xs.length) : r.window n = p.window n := by
  have hcut (us : List Token) : ((xs ++ t :: us).drop p.cursor).take (n + 1) =
      ((xs ++ [t]).drop p.cursor).take (n + 1) := by
    rw [List.append_cons, List.drop_append_of_le_length (by simp; omega),
      List.take_append_of_le_length (by simp; omega)]
  rw [window, window, hp, hr, hcursor, hcut zs, hcut ys]

end Common

/-- Between steps a rule has the same outcome, and moves equally far, on two parsers that show the
same from their places up to where it stops, whatever happened before. So a fault is the same
whatever comes after its token, and what comes after an end is never looked at. -/
theorem outcome_settled_by_window (hrule : IsRule rule) :
    (∀ {tokens tokens' : List Token} {p r : Parser} {n : Nat}, Steps (ofTokens tokens) p →
      Steps (ofTokens tokens') r → (after rule p).cursor = p.cursor + n →
      r.window n = p.window n →
        outcome rule r = outcome rule p ∧ (after rule r).cursor = r.cursor + n) ∧
    (∀ {xs ys : List Token} {t : Token} {fault : Fault},
      outcome rule (ofTokens (xs ++ t :: ys)) = .error fault →
      (after rule (ofTokens (xs ++ t :: ys))).cursor = xs.length →
        ∀ zs, outcome rule (ofTokens (xs ++ t :: zs)) = .error fault) ∧
    ∀ {xs ys zs : List Token} {t : Token} {p r : Parser}, t.kind = .endOfFile →
      Steps (ofTokens (xs ++ t :: ys)) p → Steps (ofTokens (xs ++ t :: zs)) r →
      r.cursor = p.cursor →
        outcome rule r = outcome rule p ∧ (after rule r).cursor = (after rule p).cursor := by
  refine ⟨?_, ?_, ?_⟩
  · intro tokens tokens' p r n hp hr hn hwindow
    exact hrule.outcome_of_window hp.ready hr.ready hn hwindow
  · intro xs ys t fault hfault hcursor zs
    have hstart (tokens : List Token) : (ofTokens tokens).cursor = 0 := by
      simp [cursor, ofTokens_passed]
    have hp : Steps (ofTokens (xs ++ t :: ys)) (ofTokens (xs ++ t :: ys)) := .refl
    have hr : Steps (ofTokens (xs ++ t :: zs)) (ofTokens (xs ++ t :: zs)) := .refl
    obtain ⟨us, hus⟩ := hp.exists_tokens_eq
    obtain ⟨vs, hvs⟩ := hr.exists_tokens_eq
    rw [← Nat.zero_add xs.length, ← hstart (xs ++ t :: ys)] at hcursor
    have hwindow := window_of_common hus hvs (by rw [hstart, hstart])
      (show _ + xs.length ≤ xs.length by rw [hstart]; omega)
    rw [← hfault]
    exact (hrule.outcome_of_window hp.ready hr.ready hcursor hwindow).1
  · intro xs ys zs t p r ht hp hr hcursor
    obtain ⟨us, hus⟩ := hp.exists_tokens_eq
    obtain ⟨vs, hvs⟩ := hr.exists_tokens_eq
    obtain ⟨ts, hc⟩ := IsStep.crosses (.rule hrule) hp.ready
    have hend := (Steps.step hp (.rule hrule)).cursor_le_of_end ht
    rw [hc.cursor_eq] at hend
    have hwindow := window_of_common hus hvs hcursor hend
    obtain ⟨houtcome, hafter⟩ := hrule.outcome_of_window hp.ready hr.ready hc.cursor_eq hwindow
    refine ⟨houtcome, ?_⟩
    rw [hafter, hc.cursor_eq, hcursor]

/-- A parser that has noted the height of a name, and one that has read nothing: both read the
number before the semicolon. A semicolon is no expression whatever follows it, and an end ends one
whatever follows that. -/
theorem outcome_settled_by_window_after_name :
    let number (index : Nat) : Token := ⟨.literal .int, "1", index, ⟨1, 3⟩⟩
    let semicolon (index : Nat) : Token := ⟨.punctuation .semicolon, ";", index, ⟨1, 4⟩⟩
    let p := ofTokens [number 0, semicolon 1]
    let r := after (start .name) (ofTokens [⟨.identifier, "x", 0, ⟨1, 1⟩⟩, number 1, semicolon 2])
    (r.height ≠ p.height ∧ outcome (expr 0) r = outcome (expr 0) p ∧
      (after (expr 0) r).cursor = r.cursor + 1) ∧
    outcome (expr 0) (ofTokens [semicolon 0, number 1]) =
      .error (.mismatch "an expression" (semicolon 0)) ∧
    outcome (expr 0) (ofTokens [number 0, Token.endAt 1 ⟨1, 4⟩, semicolon 2]) =
      outcome (expr 0) (ofTokens [number 0, Token.endAt 1 ⟨1, 4⟩]) := by
  intro number semicolon p r
  obtain ⟨hwindow, hfault, hend⟩ := outcome_settled_by_window (.expr 0)
  have hr : Steps (ofTokens [⟨.identifier, "x", 0, ⟨1, 1⟩⟩, number 1, semicolon 2]) r :=
    .step .refl (.start .name)
  have hp : Steps (ofTokens [number 0, semicolon 1]) p := .refl
  have hsame : r.window 1 = p.window 1 := rfl
  have hone : outcome (expr 0) (ofTokens [semicolon 0]) =
    .error (.mismatch "an expression" (semicolon 0)) := rfl
  refine ⟨⟨by decide, hwindow hp hr rfl hsame⟩, ?_, ?_⟩
  · exact @hfault [] [] (semicolon 0) _ hone rfl [number 1]
  · exact (@hend [number 0] [] [semicolon 2] _ _ _ rfl .refl .refl rfl).1

end Parser

end StateLang
