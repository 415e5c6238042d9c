import StateLang.Proofs.Compilation
import StateLang.Proofs.Token.Spacing

/-!
# Compiling does not look at places

A rule may ask a token for its kind and its lexeme, never for its place. So it
does the same on tokens whose places are forgotten, and forgetting places before
a rule is forgetting them in its answer. Layout therefore has no say in what a
source compiles to, only in where its faults are.
-/

namespace StateLang

/-- A token at no particular place. -/
def Token.unplaced (t : Token) : Token := ⟨t.kind, t.lexeme, 0, .start⟩

/-- A fault at no particular place. -/
def Fault.unplaced : Fault → Fault
  | lexical lexeme expected _ => lexical lexeme expected .start
  | grammar expected found _ => grammar expected found .start
  | internal detail => internal detail

theorem Fault.mismatch_unplaced (expected : String) (t : Token) :
    mismatch expected t.unplaced = (mismatch expected t).unplaced := by
  unfold mismatch
  by_cases h : t.kind = .unknown
  · rw [if_pos h, if_pos (show t.unplaced.kind = .unknown from h)]
    rfl
  · rw [if_neg h, if_neg (show ¬ t.unplaced.kind = .unknown from h)]
    rfl

namespace Parser

def unplaced (p : Parser) : Parser :=
  { p with
    passed := p.passed.map Token.unplaced
    current := p.current.unplaced
    upcoming := p.upcoming.map Token.unplaced }

def unplacedResult {α : Type} :
    EStateM.Result Fault Parser α → EStateM.Result Fault Parser α
  | .ok a q => .ok a q.unplaced
  | .error fault q => .error fault.unplaced q.unplaced

/-- A rule that does the same wherever its tokens stand. -/
def Placeless {α : Type} (rule : ParseM α) : Prop := ∀ p, rule p.unplaced = unplacedResult (rule p)

theorem next_unplaced (p : Parser) : p.unplaced.next = p.next.unplaced := by
  unfold next
  by_cases h : p.current.kind = .endOfFile
  · rw [if_pos h, if_pos (show p.unplaced.current.kind = .endOfFile from h)]
  · rw [if_neg h, if_neg (show ¬ p.unplaced.current.kind = .endOfFile from h)]
    cases hu : p.upcoming <;> simp [unplaced, hu]

namespace Placeless

variable {α β : Type}

theorem pure (a : α) : Placeless (pure a) := fun _ => rfl

theorem bind {x : ParseM α} {f : α → ParseM β} (hx : Placeless x) (hf : ∀ a, Placeless (f a)) :
    Placeless (x >>= f) := by
  intro p
  change EStateM.bind x f p.unplaced = unplacedResult (EStateM.bind x f p)
  unfold EStateM.bind
  rw [hx p]
  cases x p with
  | ok a q => exact hf a q
  | error fault q => rfl

/-- A rule that goes on by what a token is. -/
theorem peekBind {f : Token → ParseM β} (hf : ∀ t, Placeless (f t))
    (hsame : ∀ t, f t.unplaced = f t) : Placeless (peek >>= f) := by
  intro p
  change f p.current.unplaced p.unplaced = unplacedResult (f p.current p)
  rw [hsame, hf]

theorem advanceBind {f : Token → ParseM β} (hf : ∀ t, Placeless (f t))
    (hsame : ∀ t, f t.unplaced = f t) : Placeless (advance >>= f) := by
  intro p
  change f p.current.unplaced p.unplaced.next = unplacedResult (f p.current p.next)
  rw [hsame, next_unplaced, hf]

/-- A rule that goes on by the height noted last. -/
theorem getBind {f : Parser → ParseM β} (hf : ∀ p, Placeless (f p))
    (hsame : ∀ p, f p.unplaced = f p) : Placeless (get >>= f) := by
  intro p
  change f p.unplaced p.unplaced = unplacedResult (f p p)
  rw [hsame, hf]

theorem failExpected (expected : String) : Placeless (failExpected expected : ParseM α) := by
  intro p
  change EStateM.Result.error (Fault.mismatch expected p.current.unplaced) p.unplaced = _
  rw [Fault.mismatch_unplaced]
  rfl

theorem failTooDeep : Placeless (failTooDeep : ParseM α) := fun _ => rfl

theorem throwInternal (detail : String) : Placeless (throw (.internal detail) : ParseM α) :=
  fun _ => rfl

theorem setHeight (height : Nat) : Placeless (setHeight height) := fun _ => rfl

theorem expectBind {kind : Token.Kind} {f : Token → ParseM β} (hf : ∀ t, Placeless (f t))
    (hsame : ∀ t, f t.unplaced = f t) : Placeless (expect kind >>= f) := by
  intro p
  by_cases h : p.current.kind = kind
  · have hok (q : Parser) (hq : q.current.kind = kind) :
        (expect kind >>= f) q = f q.current q.next := bind_of_ok (expect_ok_iff.mpr ⟨hq, rfl, rfl⟩)
    rw [hok p h, hok p.unplaced h, next_unplaced, ← hf]
    exact congrFun (hsame p.current) _
  · have herror (q : Parser) (hq : ¬ q.current.kind = kind) : (expect kind >>= f) q =
        .error (.mismatch kind.description q.current) q := by
      change EStateM.bind (Parser.expect kind) f q = _
      simp only [EStateM.bind, Parser.expect, peek_bind, if_neg hq, Parser.failExpected]
    rw [herror p h, herror p.unplaced h]
    exact @failExpected β kind.description p

theorem keyword (word : Keyword) : Placeless (expectKeyword word) :=
  expectBind (fun _ => pure _) fun _ => rfl

theorem mark (mark : Punctuation) : Placeless (expectMark mark) :=
  expectBind (fun _ => pure _) fun _ => rfl

theorem expectEnd : Placeless expectEnd := expectBind (fun _ => pure _) fun _ => rfl

theorem identifier : Placeless identifier := expectBind (fun _ => pure _) fun _ => rfl

theorem accept (kind : Token.Kind) : Placeless (accept kind) := by
  refine peekBind (fun t => ?_) fun _ => rfl
  split
  · exact advanceBind (fun _ => pure _) fun _ => rfl
  · exact pure _

theorem itemsFuel {stop : Token.Kind → Bool} {item : ParseM α} (hitem : Placeless item)
    (fuel : List Token) : Placeless (itemsFuel stop item fuel) := by
  induction fuel with
  | nil => exact pure _
  | cons _ fuel ih =>
      refine peekBind (fun t => ?_) fun _ => rfl
      split
      · exact pure _
      · exact bind hitem fun _ => bind ih fun _ => pure _

/-- Only the length of the fuel counts. -/
theorem itemsFuel_map (stop : Token.Kind → Bool) (item : ParseM α) (fuel : List Token) :
    Parser.itemsFuel stop item (fuel.map Token.unplaced) = Parser.itemsFuel stop item fuel := by
  induction fuel with
  | nil => rfl
  | cons _ fuel ih => simp only [List.map_cons, Parser.itemsFuel, ih]

theorem items {stop : Token.Kind → Bool} {item : ParseM α} (hitem : Placeless item) :
    Placeless (items stop item) := by
  intro p
  change Parser.itemsFuel stop item ((p.current :: p.upcoming).map Token.unplaced) p.unplaced = _
  rw [itemsFuel_map]
  exact itemsFuel hitem _ p

theorem nested {rule : ParseM α} (hrule : Placeless rule) : Placeless (nested rule) := by
  intro p
  unfold Parser.nested
  rw [show { p.unplaced with nesting := p.unplaced.nesting + 1 } =
    ({ p with nesting := p.nesting + 1 } : Parser).unplaced from rfl, hrule]
  cases rule { p with nesting := p.nesting + 1 } <;> rfl

/-! ## Expressions -/

theorem constant : Placeless constant := by
  refine advanceBind (fun t => ?_) fun _ => rfl
  cases t.kind.constKind? with
  | none => exact throwInternal _
  | some kind => exact bind (setHeight 1) fun _ => pure _

section Operand

variable {operand : Nat → ParseM Expr} (hoperand : ∀ power, Placeless (operand power))
include hoperand

theorem startBy (rule : StartRule) : Placeless (startBy operand rule) := by
  cases rule with
  | literal => exact constant
  | name => exact bind identifier fun _ => bind (setHeight 1) fun _ => pure _
  | group => exact bind (mark _) fun _ => bind (hoperand 0) fun _ => bind (mark _) fun _ => pure _

theorem continueBy (rule : ContinueRule) (left : Expr) :
    Placeless (continueBy operand rule left) := by
  refine advanceBind (fun t => ?_) fun _ => rfl
  cases rule.operator? t.kind with
  | none => exact throwInternal _
  | some op => exact bind (hoperand op.power) fun _ => pure _

theorem climbFuel (power fuel : Nat) (left : Expr) (height : Nat) :
    Placeless (climbFuel operand power fuel left height) := by
  induction fuel generalizing left height with
  | zero => exact failTooDeep
  | succ fuel ih =>
      refine peekBind (fun t => ?_) fun _ => rfl
      simp only
      split
      · exact bind (setHeight height) fun _ => pure _
      · cases t.kind.exprRule.continue? with
        | none => exact failExpected _
        | some rule =>
            refine bind (continueBy hoperand rule left) fun whole =>
              getBind (fun q => ?_) fun _ => rfl
            split
            · exact failTooDeep
            · exact ih whole _

theorem exprAt (power : Nat) : Placeless (exprAt operand power) := by
  refine peekBind (fun t => ?_) fun _ => rfl
  cases t.kind.exprRule.start? with
  | none => exact failExpected _
  | some rule =>
      exact bind (startBy hoperand rule) fun left =>
        getBind (fun q => climbFuel hoperand power maxDepth left q.height) fun _ => rfl

end Operand

theorem exprWithin (levels power : Nat) : Placeless (exprWithin levels power) := by
  induction levels generalizing power with
  | zero => exact failTooDeep
  | succ levels ih => exact nested (exprAt ih power)

theorem expr (power : Nat) : Placeless (expr power) := fun p => exprWithin _ power p

/-! ## Programs -/

theorem varType : Placeless varType := by
  refine peekBind (fun t => ?_) fun _ => rfl
  cases VarType.ofKind? t.kind with
  | none => exact failExpected _
  | some type => exact advanceBind (fun _ => pure _) fun _ => rfl

end Placeless

theorem Assembled.placeless {α : Type} {rule : ParseM α} (h : Assembled rule) :
    Placeless rule := by
  induction h with
  | pure a => exact .pure a
  | bind _ _ ihx ihf => exact .bind ihx ihf
  | keyword word => exact .keyword word
  | mark mark => exact .mark mark
  | identifier => exact .identifier
  | expectEnd => exact .expectEnd
  | accept kind => exact .accept kind
  | varType => exact .varType
  | expr power => exact .expr power
  | items _ ih => exact .items ih

theorem IsRule.placeless {α : Type} {rule : ParseM α} (h : IsRule rule) : Placeless rule :=
  h.assembled.placeless

theorem ofTokens_unplaced {tokens : List Token} (h : terminated tokens = tokens)
    (h' : terminated (tokens.map Token.unplaced) = tokens.map Token.unplaced) :
    ofTokens (tokens.map Token.unplaced) = (ofTokens tokens).unplaced := by
  unfold ofTokens
  rw [h, h']
  cases tokens <;> rfl

theorem read_unplaced {α : Type} {rule : ParseM α} (hrule : Placeless rule) {body : List Token}
    {last : Token} (hlast : last.kind = .endOfFile) :
    read rule ((body ++ [last]).map Token.unplaced) =
      (read rule (body ++ [last])).mapError Fault.unplaced := by
  have hends := @terminated_of_end body last hlast
  have hends' := @terminated_of_end (body.map Token.unplaced) last.unplaced hlast
  unfold read
  rw [ofTokens_unplaced hends (by simpa using hends'), hrule]
  cases rule (ofTokens (body ++ [last])) <;> rfl

end Parser

theorem Token.map_unplaced_of_spelling {xs ys : List Token}
    (h : xs.map spelling = ys.map spelling) : xs.map unplaced = ys.map unplaced := by
  have hcongr := congrArg (List.map fun s => Token.mk s.1 s.2 0 .start) h
  rw [List.map_map, List.map_map] at hcongr
  exact hcongr

/-- Sources with the same lexemes are read alike. -/
theorem Program.parse_unplaced {source text : String}
    (h : (Token.scan text).map Token.spelling = (Token.scan source).map Token.spelling) :
    (Program.parse text).mapError Fault.unplaced =
      (Program.parse source).mapError Fault.unplaced := by
  obtain ⟨body, last, hscan, hlast, -⟩ := Token.scan_ends source
  obtain ⟨body', last', hscan', hlast', -⟩ := Token.scan_ends text
  have hsame := Token.map_unplaced_of_spelling h
  unfold Program.parse
  rw [hscan, hscan'] at hsame ⊢
  rw [← Parser.read_unplaced Parser.IsRule.program.placeless hlast,
    ← Parser.read_unplaced Parser.IsRule.program.placeless hlast', hsame]

theorem Compiled.ofSource_unplaced {source text : String} (naming : Naming)
    (h : (Program.parse text).mapError Fault.unplaced =
      (Program.parse source).mapError Fault.unplaced) :
    (Compiled.ofSource text naming).mapError Fault.unplaced =
      (Compiled.ofSource source naming).mapError Fault.unplaced := by
  cases htext : Program.parse text with
  | ok p =>
      cases hsource : Program.parse source with
      | ok q =>
          rw [htext, hsource] at h
          cases h
          rw [ofSource_of_parse htext, ofSource_of_parse hsource]
      | error fault =>
          rw [htext, hsource] at h
          cases h
  | error fault =>
      cases hsource : Program.parse source with
      | ok q =>
          rw [htext, hsource] at h
          cases h
      | error fault' =>
          rw [htext, hsource] at h
          have hfault : fault.unplaced = fault'.unplaced := Except.error.inj h
          rw [ofSource_of_fault htext, ofSource_of_fault hsource]
          exact congrArg Except.error hfault

/-- Laying a source out anew keeps its kinds and lexemes, and it compiles to the same documents or
fails with the same fault, apart from the fault's place. -/
theorem layout_irrelevant {source text : String} (h : Token.Respaced source text)
    (naming : Naming) :
    (Token.scan text).map Token.spelling = (Token.scan source).map Token.spelling ∧
      (Compiled.ofSource text naming).mapError Fault.unplaced =
        (Compiled.ofSource source naming).mapError Fault.unplaced := by
  have hspellings := h.spellings_eq
  exact ⟨hspellings, Compiled.ofSource_unplaced naming (Program.parse_unplaced hspellings)⟩

/-- A program with a comment in front that has a quote mark in it and a comment inside, and an
unknown character that moves to another line. -/
theorem layout_irrelevant_comments :
    let source := "name:M;platform:P;"
    let text := "/*\"*/name : M ; platform : P\n//;\n; "
    let naming : Naming := ⟨"M.h", "R.h"⟩
    (Token.Respaced source text ∧ (Compiled.ofSource text naming).mapError Fault.unplaced =
      (Compiled.ofSource source naming).mapError Fault.unplaced) ∧
    Token.Respaced "name'" " name\n' " ∧
      (Token.scan " name\n' ").map Token.spelling = (Token.scan "name'").map Token.spelling := by
  intro source text naming
  have hblank : Token.Gap.Separator [' '] := ⟨' ', [], rfl, rfl, .nil⟩
  have hfront : Token.Gap.Layout ['/', '*', '"', '*', '/'] :=
    @Token.Gap.Layout.block ['"'] [] (by decide) .nil
  have hline : Token.Gap.Separator ['\n', '/', '/', ';', '\n'] :=
    ⟨'\n', _, rfl, rfl,
      @Token.Gap.Layout.line [';'] [] '\n' (by simp [Token.Gap.isLineEnd]) rfl .nil⟩
  have hlexemes : ["name", ":", "M", ";", "platform", ":", "P", ";"] = Token.lexemes source := by
    decide +kernel
  have hbody : Token.Spaced _ ["name", ":", "M", ";", "platform", ":", "P", ";"] _ :=
    .cons hblank <| .cons hblank <| .cons hblank <| .cons hblank <| .cons hblank <| .cons hblank <|
      .cons hline <| .cons hblank .nil
  have hprogram : Token.Respaced source text :=
    .comments (by decide +kernel) hfront (hlexemes ▸ hbody) (by decide +kernel)
  have hrun (c : Char) (hc : Token.Gap.isBlank c = true) : Token.Gap.BlankSeparator [c] :=
    ⟨by simp, by simpa [Token.Gap.Blanks] using hc⟩
  have hlexemes' : ["name", "'"] = Token.lexemes "name'" := by decide +kernel
  have hbody' : Token.Spaced _ ["name", "'"] _ := .cons (hrun '\n' rfl) (.cons (hrun ' ' rfl) .nil)
  have hunknown : Token.Respaced "name'" " name\n' " :=
    .blanks (hrun ' ' rfl).2 (hlexemes' ▸ hbody') (by decide +kernel)
  exact ⟨⟨hprogram, (layout_irrelevant hprogram naming).2⟩, hunknown,
    (layout_irrelevant hunknown naming).1⟩

end StateLang
