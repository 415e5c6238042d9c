import StateLang.Program.Parser
import StateLang.Proofs.Expr.Climbing
import StateLang.Proofs.Program.Grammar

/-!
# The program reader reads the grammar of programs

Each rule is described by composing the descriptions of its parts. What remains
to be said of a rule is what its own text does not show: where a list ends, and
that nothing in a list starts with a token at which the list ends.
-/

namespace StateLang.Parser

variable {depth : Nat} {ts : List Token} {k : Token.Kind}

/-! ## Declarations -/

theorem ofKind?_eq_some_iff {kind : Token.Kind} {type : VarType} :
    VarType.ofKind? kind = some type ↔ ∃ word, kind = .keyword word ∧ word.word = type.word := by
  constructor
  · intro h
    cases kind with
    | keyword word => exact ⟨word, rfl, by cases word <;> cases h <;> rfl⟩
    | _ => simp [VarType.ofKind?] at h
  · intro h
    obtain ⟨word, rfl, hword⟩ := h
    revert hword
    cases word <;> cases type <;> decide

theorem varType_ok_iff {p q : Parser} {type : VarType} : varType p = .ok type q ↔
    VarType.ofKind? p.current.kind = some type ∧ p.next = q := by
  simp only [varType, peek_bind]
  cases VarType.ofKind? p.current.kind with
  | none => simp [failExpected]
  | some type' => simp

theorem varType_reads : Reads depth varType
    (OneToken fun t type => ∃ word, t.kind = .keyword word ∧ word.word = type.word) Anything where
  sound hp hok := by
    obtain ⟨htype, rfl⟩ := varType_ok_iff.mp hok
    obtain ⟨word, hk, hword⟩ := ofKind?_eq_some_iff.mp htype
    exact ⟨_, next_crosses hp (by simp [hk]), ⟨_, rfl, word, hk, hword⟩, trivial⟩
  complete hp hc ht _ := by
    obtain ⟨t, rfl, word, hk, hword⟩ := ht
    obtain rfl := hc.current_eq
    exact ⟨_, varType_ok_iff.mpr ⟨ofKind?_eq_some_iff.mpr ⟨word, hk, hword⟩, rfl⟩,
      next_crosses hp (by simp [hk])⟩

theorem declaration_reads : Reads depth declaration Declaration.Phrase Anything := by
  refine (Reads.tokenBind varType_reads fun type => Reads.identifier.tokenBind fun name =>
    Reads.markPure .semicolon (Declaration.mk type name)).congr fun ts d => ?_
  constructor
  · intro h
    obtain ⟨_, _, _, rfl, ⟨_, htype, hword⟩, _, _, _, rfl, ⟨hname, rfl⟩, _, rfl, hsemicolon,
      rfl⟩ := h
    exact .mk htype hword hname hsemicolon
  · intro h
    obtain ⟨htype, hword, hname, hsemicolon⟩ := h
    exact ⟨_, _, _, rfl, ⟨_, htype, hword⟩, _, _, _, rfl, ⟨hname, rfl⟩, _, rfl, hsemicolon, rfl⟩

/-- The tokens before which declarations end. -/
abbrev endsDeclarations (kind : Token.Kind) : Bool :=
  kind = .keyword .initial || kind = .keyword .state || kind = .endOfFile

theorem declarations_reads : Reads depth declarations (Many Declaration.Phrase)
    (fun kind => endsDeclarations kind = true) := by
  apply Reads.items declaration_reads
  intro ts d h
  obtain ⟨htype, hword, -, -⟩ := h
  rename_i typeWord _ _ word type
  refine ⟨_, _, rfl, ?_⟩
  rw [htype]
  revert hword
  cases word <;> cases type <;> decide

/-! ## Assignments -/

/-- A guard or a right-hand side, in the middle of no other expression. -/
theorem guard_reads : Reads 0 (expr 0) (fun ts e => Expr.Phrase ts e) (EndsExpr 0) := expr_reads 0 0

theorem assignment_reads : Reads 0 assignment Assignment.Phrase Anything := by
  have hvalue (target : Variable) := Reads.bind guard_reads
    (fun value => Reads.markPure .semicolon (Assignment.mk target value)) fun {_ _ _ k} h _ => by
      obtain ⟨t, rfl, hk, -⟩ := h
      simp [EndsExpr, firstKind, hk, Token.Kind.exprRule]
  refine (Reads.identifier.tokenBind fun target => (Reads.expectMark .assign).tokenBind fun _ =>
    hvalue target).congr fun ts a => ?_
  constructor
  · intro h
    obtain ⟨_, _, _, rfl, ⟨htarget, rfl⟩, _, _, _, rfl, hassign, _, _, _, rfl, hvalue, _, rfl,
      hsemicolon, rfl⟩ := h
    exact .mk htarget hassign hvalue hsemicolon
  · intro h
    obtain ⟨htarget, hassign, hvalue, hsemicolon⟩ := h
    exact ⟨_, _, _, rfl, ⟨htarget, rfl⟩, _, (), _, rfl, hassign, _, _, _, rfl, hvalue, _, rfl,
      hsemicolon, rfl⟩

theorem assignments_reads : Reads 0 assignments (Many Assignment.Phrase)
    (fun kind => decide (kind = .punctuation .rbrace) = true) := by
  apply Reads.items assignment_reads
  intro ts a h
  obtain ⟨htarget, -, -, -⟩ := h
  exact ⟨_, _, rfl, by simp [htarget]⟩

/-! ## Transitions -/

/-- What follows the word `goto`, and what stands without it. -/
def DestinationRest : Bool → List Token → Destination → Prop
  | true => OneToken fun t d => t.kind = .identifier ∧ d = .goto (.ofName t.lexeme)
  | false => OneToken fun t d => t.kind = .keyword .exit ∧ d = .exit

theorem destination_reads : Reads depth destination Destination.Phrase Anything := by
  have hrest (isGoto : Bool) : Reads depth
      (if isGoto then identifier >>= fun target => pure (Destination.goto target)
        else expectKeyword .exit >>= fun _ => pure Destination.exit)
      (DestinationRest isGoto) Anything := by
    cases isGoto with
    | true => exact Reads.identifier.tokenImage Destination.goto
    | false =>
        exact ((Reads.expectKeyword .exit).tokenMap fun _ => Destination.exit).congr fun ts d => by
          simp [DestinationRest, OneToken]
  refine (Reads.acceptBind (by simp) hrest ?_).congr fun ts d => ?_
  · intro ts d k h _
    obtain ⟨t, rfl, hk, -⟩ := h
    simp [firstKind, hk]
  · constructor
    · intro h
      rcases h with ⟨t, _, rfl, hk, t', rfl, hk', rfl⟩ | ⟨t, rfl, hk, rfl⟩
      · exact .goto hk hk'
      · exact .exit hk
    · intro h
      cases h with
      | goto hword htarget => exact .inl ⟨_, _, rfl, hword, _, rfl, htarget, rfl⟩
      | exit hword => exact .inr ⟨_, rfl, hword, rfl⟩

theorem transition_reads : Reads 0 transition Transition.Phrase Anything := by
  have hbody (d : Destination) (guard : Expr) := Reads.bind assignments_reads
    (fun body => (Reads.expectMark .rbrace).tokenBind fun _ =>
      Reads.markPure .semicolon (Transition.mk guard body d))
    fun {_ _ _ k} h _ => by
      obtain ⟨t, _, _, rfl, hk, -⟩ := h
      simp [firstKind, hk]
  have hperforming (d : Destination) (guard : Expr) :=
    (Reads.expectKeyword .performing).tokenBind fun _ =>
      (Reads.expectMark .lbrace).tokenBind fun _ => hbody d guard
  have hguard (d : Destination) := Reads.bind guard_reads (hperforming d) fun {_ _ _ k} h _ => by
    obtain ⟨t, _, _, rfl, hk, -⟩ := h
    simp [EndsExpr, firstKind, hk, Token.Kind.exprRule]
  have hwhen (d : Destination) := (Reads.expectKeyword .when).tokenBind fun _ => hguard d
  refine (Reads.bind destination_reads hwhen fun _ _ => trivial).congr fun ts t => ?_
  constructor
  · intro h
    obtain ⟨_, _, _, rfl, hdestination, _, _, _, rfl, hwhen, _, _, _, rfl, hguard, _, _, _, rfl,
      hperforming, _, _, _, rfl, hopening, _, _, _, rfl, hbody, _, _, _, rfl, hclosing, _, rfl,
      hsemicolon, rfl⟩ := h
    exact .mk hdestination hwhen hguard hperforming hopening hbody hclosing hsemicolon
  · intro h
    obtain ⟨hdestination, hwhen, hguard, hperforming, hopening, hbody, hclosing, hsemicolon⟩ := h
    exact ⟨_, _, _, rfl, hdestination, _, (), _, rfl, hwhen, _, _, _, rfl, hguard, _, (), _, rfl,
      hperforming, _, (), _, rfl, hopening, _, _, _, rfl, hbody, _, (), _, rfl, hclosing, _, rfl,
      hsemicolon, rfl⟩

theorem transitions_reads : Reads 0 transitions (Many Transition.Phrase)
    (fun kind => decide (kind = .punctuation .rbrace) = true) := by
  apply Reads.items transition_reads
  intro ts t h
  obtain ⟨hdestination, -⟩ := h
  cases hdestination with
  | goto hword _ => exact ⟨_, _, rfl, by simp [hword]⟩
  | exit hword => exact ⟨_, _, rfl, by simp [hword]⟩

/-! ## States -/

theorem state_reads : Reads 0 state State.Phrase Anything := by
  have hend (name : Variable) (isInitial : Bool) := Reads.bind transitions_reads
    (fun transitions => Reads.markPure .rbrace (State.mk name transitions isInitial))
    fun {_ _ _ k} h _ => by
      obtain ⟨t, rfl, hk, -⟩ := h
      simp [firstKind, hk]
  have hrest (isInitial : Bool) := (Reads.expectKeyword .state).tokenBind fun _ =>
    (Reads.expectMark .colon).tokenBind fun _ => Reads.identifier.tokenBind fun name =>
      (Reads.expectMark .lbrace).tokenBind fun _ => hend name isInitial
  refine (Reads.acceptBind (by simp) hrest ?_).congr fun ts s => ?_
  · intro ts s k h _
    obtain ⟨t, _, _, rfl, hk, -⟩ := h
    simp [firstKind, hk]
  · constructor
    · intro h
      rcases h with ⟨_, _, rfl, hinitial, _, _, _, rfl, hword, _, _, _, rfl, hcolon, _, _, _, rfl,
          ⟨hname, rfl⟩, _, _, _, rfl, hopening, _, _, _, rfl, htransitions, _, rfl, hclosing, rfl⟩ |
        ⟨_, _, _, rfl, hword, _, _, _, rfl, hcolon, _, _, _, rfl, ⟨hname, rfl⟩, _, _, _, rfl,
          hopening, _, _, _, rfl, htransitions, _, rfl, hclosing, rfl⟩
      · exact .mk (.written hinitial) hword hcolon hname hopening htransitions hclosing
      · exact .mk .absent hword hcolon hname hopening htransitions hclosing
    · intro h
      obtain ⟨hmark, hword, hcolon, hname, hopening, htransitions, hclosing⟩ := h
      cases hmark with
      | written hinitial =>
          exact .inl ⟨_, _, rfl, hinitial, _, (), _, rfl, hword, _, (), _, rfl, hcolon, _, _, _, rfl,
            ⟨hname, rfl⟩, _, (), _, rfl, hopening, _, _, _, rfl, htransitions, _, rfl, hclosing, rfl⟩
      | absent =>
          exact .inr ⟨_, (), _, rfl, hword, _, (), _, rfl, hcolon, _, _, _, rfl, ⟨hname, rfl⟩, _, (),
            _, rfl, hopening, _, _, _, rfl, htransitions, _, rfl, hclosing, rfl⟩

/-- A state starts with one of its own two words. -/
theorem state_starts {s : State} (h : s.Phrase ts) :
    ∃ t rest, ts = t :: rest ∧ (t.kind = .keyword .initial ∨ t.kind = .keyword .state) := by
  obtain ⟨hmark, hword, -⟩ := h
  cases hmark with
  | written hinitial => exact ⟨_, _, rfl, .inl hinitial⟩
  | absent => exact ⟨_, _, rfl, .inr hword⟩

theorem states_reads : Reads 0 states (Many State.Phrase)
    (fun kind => decide (kind = .endOfFile) = true) := by
  apply Reads.items state_reads
  intro ts s h
  obtain ⟨t, rest, rfl, hk⟩ := state_starts h
  refine ⟨t, rest, rfl, ?_⟩
  rcases hk with hk | hk <;> simp [hk]

/-! ## Programs -/

theorem platform_reads : Reads depth platform PlatformPhrase Anything := by
  refine ((Reads.expectKeyword .platform).tokenBind fun _ => (Reads.expectMark .colon).tokenBind
    fun _ => Reads.identifier.tokenBind fun name => Reads.markPure .semicolon name).congr
      fun ts v => ?_
  constructor
  · intro h
    obtain ⟨_, _, _, rfl, hword, _, _, _, rfl, hcolon, _, _, _, rfl, ⟨hname, rfl⟩, _, rfl,
      hsemicolon, rfl⟩ := h
    exact .mk hword hcolon hname hsemicolon
  · intro h
    obtain ⟨hword, hcolon, hname, hsemicolon⟩ := h
    exact ⟨_, (), _, rfl, hword, _, (), _, rfl, hcolon, _, _, _, rfl, ⟨hname, rfl⟩, _, rfl,
      hsemicolon, rfl⟩

theorem program_reads : Reads 0 program Program.Body (· = .endOfFile) := by
  have hend (name platform : Variable) (ds : List Declaration) := Reads.bind states_reads
    (fun ss => Reads.expectEnd.map fun _ => Program.mk name platform ds ss) fun {_ _ _ k} h hk => by
      obtain ⟨_, rfl, -⟩ := h
      simp [firstKind, hk]
  have hdeclarations (name platform : Variable) := Reads.bind declarations_reads
    (hend name platform) fun {_ _ _ k} h hk => by
      obtain ⟨xs, ss, _, rfl, hstates, _, rfl, -⟩ := h
      rw [List.append_nil]
      cases hstates with
      | nil => simp [firstKind, hk]
      | cons first _ =>
          obtain ⟨t, _, rfl, ht⟩ := state_starts first
          rcases ht with ht | ht <;> simp [firstKind, ht]
  refine ((Reads.expectKeyword .name).tokenBind fun _ => (Reads.expectMark .colon).tokenBind
    fun _ => Reads.identifier.tokenBind fun name => (Reads.expectMark .semicolon).tokenBind
      fun _ => Reads.bind platform_reads (hdeclarations name) fun _ _ => trivial).congr
        fun ts p => ?_
  constructor
  · intro h
    obtain ⟨_, _, _, rfl, hword, _, _, _, rfl, hcolon, _, _, _, rfl, ⟨hname, rfl⟩, _, _, _, rfl,
      hsemicolon, _, _, _, rfl, hplatform, _, _, _, rfl, hdeclarations, _, _, _, rfl, hstates, _,
      rfl, rfl⟩ := h
    rw [List.append_nil]
    exact .mk hword hcolon hname hsemicolon hplatform hdeclarations hstates
  · intro h
    obtain ⟨hword, hcolon, hname, hsemicolon, hplatform, hdeclarations, hstates⟩ := h
    exact ⟨_, (), _, rfl, hword, _, (), _, rfl, hcolon, _, _, _, rfl, ⟨hname, rfl⟩, _, (), _, rfl,
      hsemicolon, _, _, _, rfl, hplatform, _, _, _, rfl, hdeclarations, _, _, [], by simp, hstates,
      (), rfl, rfl⟩

end StateLang.Parser

namespace StateLang

open StateLang.Parser

/-- A token list with its only end last is read as a program exactly if it is one, and the answer
is the tree that its derivation gives. -/
theorem program_exact {body : List Token} {last : Token} (hlast : last.kind = .endOfFile)
    (hbody : ∀ t ∈ body, t.kind ≠ .endOfFile) (program : Program) :
    Parser.read Parser.program (body ++ [last]) = .ok program ↔
      program.Phrase (body ++ [last]) := by
  rw [program_reads.read_iff hlast hbody]
  constructor
  · intro h
    exact .mk h hlast
  · intro h
    generalize htokens : body ++ [last] = tokens at h
    obtain ⟨h, hlast'⟩ := h
    obtain ⟨rfl, -⟩ := List.append_inj' htokens rfl
    exact h

/-- A machine of one state that counts to three, with a literal of each kind. -/
theorem program_exact_counter :
    let body := (Token.scan ("name: M; platform: P; int i; " ++
      "initial state: S \x7b goto S when i < 3 performing \x7b i := i + 1; " ++
      "f := 1.5; s := \"i\"; c := 'c'; b := true != false; \x7d; \x7d")).dropLast
    let last := Token.endAt 51 ⟨1, 146⟩
    (∀ t ∈ body, t.kind ≠ .endOfFile) ∧ Program.Phrase (body ++ [last])
      ⟨.ofName "M", .ofName "P", [⟨.int, .ofName "i"⟩],
        [⟨.ofName "S", [⟨.binary (.compare .lt) (.var (.ofName "i")) (.const .int "3"),
          [⟨.ofName "i", .binary (.arith .add) (.var (.ofName "i")) (.const .int "1")⟩,
            ⟨.ofName "f", .const .float "1.5"⟩, ⟨.ofName "s", .const .string "\"i\""⟩,
            ⟨.ofName "c", .const .char "'c'"⟩,
            ⟨.ofName "b", .binary (.compare .ne) (.const .bool "true") (.const .bool "false")⟩],
          .goto (.ofName "S")⟩], true⟩]⟩ := by
  intro body last
  have hbody : ∀ t ∈ body, t.kind ≠ .endOfFile := by decide +kernel
  refine ⟨hbody, (program_exact rfl hbody _).mp (ok_of_toOption ?_)⟩
  decide +kernel

end StateLang
