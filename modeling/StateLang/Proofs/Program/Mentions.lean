import StateLang.Proofs.Compilation
import StateLang.Proofs.Program.Reading
import StateLang.Proofs.Token.Scan

/-!
# What a program mentions

The names and constants of a program, in the order in which they are written.
Reading loses none of them, adds none and keeps their order, and resolving
changes only their origins. So the names of a source can be counted in the tree.
-/

namespace StateLang

/-- A name or a constant that is written in a program. -/
inductive Mention
  | name (v : Variable)
  | constant (kind : ConstKind) (text : String)
  deriving DecidableEq, Repr

namespace Mention

def name? : Mention → Option String
  | name v => some v.name
  | constant _ _ => none

def constant? : Mention → Option (ConstKind × String)
  | name _ => none
  | constant kind text => some (kind, text)

end Mention

/-! ## Mentions of a tree, as they are written -/

def Expr.mentions : Expr → List Mention
  | const kind text => [.constant kind text]
  | var v => [.name v]
  | binary _ left right => left.mentions ++ right.mentions

def Assignment.mentions (a : Assignment) : List Mention := .name a.target :: a.value.mentions

def Destination.mentions : Destination → List Mention
  | goto target => [.name target]
  | exit => []

/-- The destination comes before the guard, and the guard before the assignments. -/
def Transition.mentions (t : Transition) : List Mention :=
  t.destination.mentions ++ (t.guard.mentions ++ t.body.flatMap (·.mentions))

def State.mentions (s : State) : List Mention :=
  .name s.name :: s.transitions.flatMap (·.mentions)

namespace Program

def mentions (p : Program) : List Mention :=
  .name p.name :: .name p.platform ::
    (p.declarations.map (fun d => Mention.name d.name) ++ p.states.flatMap (·.mentions))

theorem mem_mentions_of_state {p : Program} {s : State} (hs : s ∈ p.states) {m : Mention}
    (hm : m ∈ s.mentions) : m ∈ p.mentions := by
  refine List.mem_cons_of_mem _ (List.mem_cons_of_mem _ (List.mem_append_right _ ?_))
  exact List.mem_flatMap.mpr ⟨s, hs, hm⟩

def names (p : Program) : List String := p.mentions.filterMap Mention.name?

def constants (p : Program) : List (ConstKind × String) := p.mentions.filterMap Mention.constant?

/-- The states that transitions lead to, as they are written. -/
def targets (p : Program) : List Variable :=
  p.states.flatMap fun s => s.transitions.filterMap (·.target?)

end Program

/-! ## Mentions of a token list -/

namespace Token

/-- What a token mentions. -/
def mention? (t : Token) : Option Mention :=
  match t.kind with
  | .identifier => some (.name (.ofName t.lexeme))
  | .literal sort => some (.constant sort.constClass t.lexeme)
  | _ => none

/-- The constant that a token is. -/
def constant? (t : Token) : Option (ConstKind × String) :=
  match t.kind with
  | .literal sort => some (sort.constClass, t.lexeme)
  | _ => none

variable {t : Token}

theorem mention?_of_name (h : t.kind = .identifier) :
    t.mention? = some (.name (.ofName t.lexeme)) := by
  rw [mention?, h]

theorem mention?_of_literal {sort : Literal} (h : t.kind = .literal sort) :
    t.mention? = some (.constant sort.constClass t.lexeme) := by
  rw [mention?, h]

theorem mention?_of_keyword {word : Keyword} (h : t.kind = .keyword word) : t.mention? = none := by
  rw [mention?, h]

theorem mention?_of_mark {mark : Punctuation} (h : t.kind = .punctuation mark) :
    t.mention? = none := by
  rw [mention?, h]

theorem mention?_of_operator {op : BinaryOp} (h : t.kind = .operator op) : t.mention? = none := by
  rw [mention?, h]

theorem mention?_of_end (h : t.kind = .endOfFile) : t.mention? = none := by
  rw [mention?, h]

/-- A mention is a name or a literal. -/
theorem mention?_cases {m : Mention} (h : t.mention? = some m) :
    (t.kind = .identifier ∧ m = .name (.ofName t.lexeme)) ∨
      ∃ sort, t.kind = .literal sort ∧ m = .constant sort.constClass t.lexeme := by
  unfold mention? at h
  split at h
  · next hkind => exact .inl ⟨hkind, (Option.some.inj h).symm⟩
  · next sort hkind => exact .inr ⟨sort, hkind, (Option.some.inj h).symm⟩
  · cases h

theorem mention?_name? (t : Token) :
    t.mention?.bind Mention.name? = if t.kind = .identifier then some t.lexeme else none := by
  unfold mention?
  cases t.kind <;> rfl

theorem mention?_constant? (t : Token) : t.mention?.bind Mention.constant? = t.constant? := by
  unfold mention? constant?
  cases t.kind <;> rfl

end Token

variable {ts : List Token}

theorem Precedence.Derives.mentions {level : Precedence} {e : Expr} {n : Nat}
    (h : level.Derives ts e n) : ts.filterMap Token.mention? = e.mentions := by
  induction h with
  | constant ht =>
      rw [List.filterMap_cons_some (Token.mention?_of_literal ht)]
      rfl
  | name ht =>
      rw [List.filterMap_cons_some (Token.mention?_of_name ht)]
      rfl
  | group ho _ hc ih =>
      rw [List.filterMap_cons_none (Token.mention?_of_mark ho), List.filterMap_append, ih,
        List.filterMap_cons_none (Token.mention?_of_mark hc), List.filterMap_nil, List.append_nil]
  | unit _ ih => exact ih
  | binary _ _ ht _ ihl ihr =>
      rw [List.filterMap_append, ihl, List.filterMap_cons_none (Token.mention?_of_operator ht), ihr]
      rfl

theorem Expr.Phrase.mentions {e : Expr} (h : e.Phrase ts) :
    ts.filterMap Token.mention? = e.mentions := by
  obtain ⟨⟨n, -, hd⟩, -⟩ := h
  exact hd.mentions

theorem Parser.Many.mentions {α : Type} {Phrase : List Token → α → Prop}
    {written : α → List Mention} {as : List α} (h : Many Phrase ts as)
    (hphrase : ∀ ts a, Phrase ts a → ts.filterMap Token.mention? = written a) :
    ts.filterMap Token.mention? = as.flatMap written := by
  induction h with
  | nil => rfl
  | cons first rest ih => rw [List.filterMap_append, hphrase _ _ first, ih, List.flatMap_cons]

theorem Declaration.Phrase.mentions {d : Declaration} (h : d.Phrase ts) :
    ts.filterMap Token.mention? = [.name d.name] := by
  obtain ⟨htype, -, hname, hsemicolon⟩ := h
  simp [Token.mention?_of_keyword htype, Token.mention?_of_name hname,
    Token.mention?_of_mark hsemicolon]

theorem Assignment.Phrase.mentions {a : Assignment} (h : a.Phrase ts) :
    ts.filterMap Token.mention? = a.mentions := by
  obtain ⟨htarget, hassign, hvalue, hsemicolon⟩ := h
  simp [Assignment.mentions, Token.mention?_of_name htarget, Token.mention?_of_mark hassign,
    hvalue.mentions, Token.mention?_of_mark hsemicolon]

theorem Destination.Phrase.mentions {d : Destination} (h : d.Phrase ts) :
    ts.filterMap Token.mention? = d.mentions := by
  cases h with
  | goto hword htarget =>
      simp [Destination.mentions, Token.mention?_of_keyword hword, Token.mention?_of_name htarget]
  | exit hword => simp [Destination.mentions, Token.mention?_of_keyword hword]

theorem Transition.Phrase.mentions {t : Transition} (h : t.Phrase ts) :
    ts.filterMap Token.mention? = t.mentions := by
  obtain ⟨hdestination, hwhen, hguard, hperforming, hopening, hbody, hclosing, hsemicolon⟩ := h
  simp [Transition.mentions, hdestination.mentions, Token.mention?_of_keyword hwhen,
    hguard.mentions, Token.mention?_of_keyword hperforming, Token.mention?_of_mark hopening,
    hbody.mentions fun _ _ => Assignment.Phrase.mentions, Token.mention?_of_mark hclosing,
    Token.mention?_of_mark hsemicolon]

theorem InitialMark.mentions {isInitial : Bool} (h : InitialMark ts isInitial) :
    ts.filterMap Token.mention? = [] := by
  cases h with
  | written hword => simp [Token.mention?_of_keyword hword]
  | absent => rfl

theorem State.Phrase.mentions {s : State} (h : s.Phrase ts) :
    ts.filterMap Token.mention? = s.mentions := by
  obtain ⟨hinitial, hword, hcolon, hname, hopening, htransitions, hclosing⟩ := h
  simp [State.mentions, hinitial.mentions, Token.mention?_of_keyword hword,
    Token.mention?_of_mark hcolon, Token.mention?_of_name hname, Token.mention?_of_mark hopening,
    htransitions.mentions fun _ _ => Transition.Phrase.mentions, Token.mention?_of_mark hclosing]

theorem PlatformPhrase.mentions {v : Variable} (h : PlatformPhrase ts v) :
    ts.filterMap Token.mention? = [.name v] := by
  obtain ⟨hword, hcolon, hname, hsemicolon⟩ := h
  simp [Token.mention?_of_keyword hword, Token.mention?_of_mark hcolon,
    Token.mention?_of_name hname, Token.mention?_of_mark hsemicolon]

theorem Program.Body.mentions {p : Program} (h : p.Body ts) :
    ts.filterMap Token.mention? = p.mentions := by
  obtain ⟨hword, hcolon, hname, hsemicolon, hplatform, hdeclarations, hstates⟩ := h
  simp [Program.mentions, Token.mention?_of_keyword hword, Token.mention?_of_mark hcolon,
    Token.mention?_of_name hname, Token.mention?_of_mark hsemicolon, hplatform.mentions,
    hdeclarations.mentions fun _ _ => Declaration.Phrase.mentions,
    hstates.mentions fun _ _ => State.Phrase.mentions, List.map_eq_flatMap]

/-- A source is read as a program exactly if its tokens before the end form it. -/
theorem Program.parse_iff (source : String) :
    ∃ body last, Token.scan source = body ++ [last] ∧ last.kind = .endOfFile ∧
      ∀ p, Program.parse source = .ok p ↔ p.Body body := by
  obtain ⟨body, last, hscan, hlast, hbody⟩ := Token.scan_ends source
  refine ⟨body, last, hscan, hlast, fun p => ?_⟩
  rw [Program.parse, hscan]
  exact Parser.program_reads.read_iff hlast hbody

/-- The mentions of a source are those of its program. -/
theorem Program.parse_mentions {source : String} {p : Program} (h : Program.parse source = .ok p) :
    (Token.scan source).filterMap Token.mention? = p.mentions := by
  obtain ⟨body, last, hscan, hlast, hparse⟩ := Program.parse_iff source
  rw [hscan, List.filterMap_append, ((hparse p).mp h).mentions,
    List.filterMap_cons_none (Token.mention?_of_end hlast), List.filterMap_nil, List.append_nil]

/-! ## Mentions of a resolved program -/

section Resolve

variable {β : Type} {f : Mention → Option β} (names : List String)
  (hf : ∀ v : Variable, f (.name (v.locate names)) = f (.name v))
include hf

/-- What does not depend on origins is the same before and after resolving. -/
theorem Expr.filterMap_locate (e : Expr) :
    (e.locate names).mentions.filterMap f = e.mentions.filterMap f := by
  induction e with
  | const kind text => rfl
  | var v => simp [Expr.locate, Expr.mentions, List.filterMap_cons, hf]
  | binary op left right ihl ihr =>
      simp only [Expr.locate, Expr.mentions, List.filterMap_append, ihl, ihr]

theorem Assignment.filterMap_locate (a : Assignment) :
    (a.locate names).mentions.filterMap f = a.mentions.filterMap f := by
  simp only [Assignment.locate, Assignment.mentions, List.filterMap_cons, hf,
    a.value.filterMap_locate names hf]

theorem Transition.filterMap_locate (t : Transition) :
    (t.locate names).mentions.filterMap f = t.mentions.filterMap f := by
  simp only [Transition.mentions, Transition.locate, List.filterMap_append,
    t.guard.filterMap_locate names hf, List.flatMap_map, List.filterMap_flatMap,
    Assignment.filterMap_locate names hf]

theorem State.filterMap_locate (s : State) :
    (s.locate names).mentions.filterMap f = s.mentions.filterMap f := by
  simp only [State.locate, State.mentions, List.filterMap_cons, List.flatMap_map,
    List.filterMap_flatMap, Transition.filterMap_locate names hf]

end Resolve

namespace Program

variable (p : Program)

theorem filterMap_resolve {β : Type} {f : Mention → Option β}
    (hf : ∀ v : Variable, f (.name (v.locate p.symbols)) = f (.name v)) :
    p.resolve.mentions.filterMap f = p.mentions.filterMap f := by
  simp only [mentions, resolve_name, resolve_platform, resolve_declarations, resolve_states,
    List.filterMap_cons, List.filterMap_append, List.flatMap_map, List.filterMap_flatMap,
    State.filterMap_locate p.symbols hf]

theorem resolve_names : p.resolve.names = p.names := p.filterMap_resolve fun _ => rfl

theorem resolve_constants : p.resolve.constants = p.constants := p.filterMap_resolve fun _ => rfl

theorem resolve_targets : p.resolve.targets = p.targets := by
  simp only [targets, resolve_states, List.flatMap_map, State.locate, List.filterMap_map]
  rfl

end Program

/-! ## Counting names -/

theorem Expr.names_eq (e : Expr) : e.mentions.filterMap Mention.name? = e.vars.map (·.name) := by
  induction e with
  | const kind text => rfl
  | var v => rfl
  | binary op left right ihl ihr =>
      simp only [Expr.mentions, Expr.vars, List.filterMap_append, List.map_append, ihl, ihr]

theorem Assignment.names_eq (a : Assignment) :
    a.mentions.filterMap Mention.name? = a.uses.map (·.name) := by
  simp [Assignment.mentions, Assignment.uses, Mention.name?, a.value.names_eq]

/-- Resolving visits the guard last, but it is written before the assignments. -/
theorem Transition.names_length (t : Transition) :
    (t.mentions.filterMap Mention.name?).length = t.target?.toList.length + t.uses.length := by
  have htarget : (t.destination.mentions.filterMap Mention.name?).length =
      t.target?.toList.length := by
    unfold Transition.target?
    cases t.destination <;> rfl
  simp only [Transition.mentions, Transition.uses, List.filterMap_append, List.length_append,
    htarget, t.guard.names_eq, List.filterMap_flatMap, Assignment.names_eq, List.length_map,
    List.length_flatMap]
  omega

theorem State.names_length (s : State) : (s.mentions.filterMap Mention.name?).length =
    1 + (s.transitions.filterMap (·.target?)).length + s.uses.length := by
  have hlist (ts : List Transition) :
      ((ts.flatMap (·.mentions)).filterMap Mention.name?).length =
        (ts.filterMap (·.target?)).length + (ts.flatMap (·.uses)).length := by
    induction ts with
    | nil => rfl
    | cons t ts ih =>
        have htarget : ((t :: ts).filterMap (·.target?)).length =
            t.target?.toList.length + (ts.filterMap (·.target?)).length := by
          cases h : t.target? <;> simp [h, Nat.add_comm]
        simp only [List.flatMap_cons, List.filterMap_append, List.length_append, t.names_length, ih,
          htarget]
        omega
  simp only [State.mentions, State.uses, List.filterMap_cons, Mention.name?, List.length_cons,
    hlist]
  omega

theorem Program.names_length (p : Program) : p.names.length =
    2 + p.declarations.length + p.states.length + p.targets.length +
      (p.states.flatMap (·.uses)).length := by
  have hdeclarations (ds : List Declaration) :
      ((ds.map fun d => Mention.name d.name).filterMap Mention.name?).length = ds.length := by
    rw [List.filterMap_map]
    induction ds with
    | nil => rfl
    | cons d ds ih => simp [Mention.name?, ih]
  have hstates (ss : List State) :
      ((ss.flatMap (·.mentions)).filterMap Mention.name?).length =
        ss.length + (ss.flatMap fun s => s.transitions.filterMap (·.target?)).length +
          (ss.flatMap (·.uses)).length := by
    induction ss with
    | nil => rfl
    | cons s ss ih =>
        simp only [List.flatMap_cons, List.filterMap_append, List.length_append, List.length_cons,
          s.names_length, ih]
        omega
  simp only [names, mentions, List.filterMap_cons, Mention.name?, List.filterMap_append,
    List.length_cons, List.length_append, hdeclarations, hstates, targets]
  omega

/-! ## Mentions of a source -/

theorem Token.filterMap_names (ts : List Token) :
    (ts.filterMap Token.mention?).filterMap Mention.name? =
      (ts.filter (·.kind = .identifier)).map (·.lexeme) := by
  rw [List.filterMap_filterMap]
  induction ts with
  | nil => rfl
  | cons t ts ih =>
      by_cases hname : t.kind = .identifier
      · rw [List.filterMap_cons_some (Token.mention?_name? t ▸ if_pos hname), ih,
          List.filter_cons_of_pos (by simpa using hname), List.map_cons]
      · rw [List.filterMap_cons_none (Token.mention?_name? t ▸ if_neg hname), ih,
          List.filter_cons_of_neg (by simpa using hname)]

theorem Token.filterMap_constants (ts : List Token) :
    (ts.filterMap Token.mention?).filterMap Mention.constant? = ts.filterMap Token.constant? := by
  rw [List.filterMap_filterMap]
  exact congrArg (ts.filterMap ·) (funext Token.mention?_constant?)

/-- The names and the constants of a source that compiles are those of its program, in order. So
the names are as many as the tree has places for them. -/
theorem mentions_conserved {source : String} {naming : Naming} {c : Compiled}
    (h : Compiled.ofSource source naming = .ok c) :
    ((Token.scan source).filter (·.kind = .identifier)).map (·.lexeme) = c.program.names ∧
    (Token.scan source).filterMap Token.constant? = c.program.constants ∧
    (Token.scan source).countP (·.kind = .identifier) =
      2 + c.program.counts.declarations + c.program.counts.states + c.program.targets.length +
        c.program.counts.variableUses := by
  obtain ⟨p, hparse, rfl⟩ := Compiled.exists_parse h
  have hmentions := Program.parse_mentions hparse
  have hnames : ((Token.scan source).filter (·.kind = .identifier)).map (·.lexeme) = p.names := by
    rw [← Token.filterMap_names, hmentions]
    rfl
  have hconstants : (Token.scan source).filterMap Token.constant? = p.constants := by
    rw [← Token.filterMap_constants, hmentions]
    rfl
  refine ⟨hnames.trans p.resolve_names.symm, hconstants.trans p.resolve_constants.symm, ?_⟩
  have hlength := congrArg List.length hnames
  rw [List.length_map, ← List.countP_eq_length_filter, p.names_length] at hlength
  rw [hlength, p.resolve_targets, p.resolve_variableUses]
  rfl

/-- The target comes before the guard, the value `"i"` is no name, and there is a literal of each
kind. -/
theorem mentions_conserved_counter :
    let source := "name: M; platform: P; int i; " ++
      "state: S \x7b goto T when i < 3 performing \x7b i := i + k; " ++
      "s := \"i\"; f := 1.5; c := 'c'; b := true != false; \x7d; \x7d"
    ∃ c, Compiled.ofSource source ⟨"M.h", "R.h"⟩ = .ok c ∧
      ["M", "P", "i", "S", "T", "i", "i", "i", "k", "s", "f", "c", "b"] = c.program.names ∧
      [(.int, "3"), (.string, "\"i\""), (.float, "1.5"), (.char, "'c'"), (.bool, "true"),
        (.bool, "false")] = c.program.constants ∧
      13 = 2 + c.program.counts.declarations + c.program.counts.states +
        c.program.targets.length + c.program.counts.variableUses := by
  intro source
  have hparse : Program.parse source = .ok ⟨.ofName "M", .ofName "P", [⟨.int, .ofName "i"⟩],
      [⟨.ofName "S", [⟨.binary (.compare .lt) (.var (.ofName "i")) (.const .int "3"),
        [⟨.ofName "i", .binary (.arith .add) (.var (.ofName "i")) (.var (.ofName "k"))⟩,
          ⟨.ofName "s", .const .string "\"i\""⟩, ⟨.ofName "f", .const .float "1.5"⟩,
          ⟨.ofName "c", .const .char "'c'"⟩,
          ⟨.ofName "b", .binary (.compare .ne) (.const .bool "true") (.const .bool "false")⟩],
        .goto (.ofName "T")⟩], false⟩]⟩ :=
    Parser.ok_of_toOption (by decide +kernel)
  have hcompiles := Compiled.ofSource_of_parse hparse ⟨"M.h", "R.h"⟩
  obtain ⟨hnames, hconstants, hcount⟩ := mentions_conserved hcompiles
  refine ⟨_, hcompiles, ?_, ?_, ?_⟩
  · rw [← hnames]
    decide +kernel
  · rw [← hconstants]
    decide +kernel
  · rw [← hcount]
    decide +kernel

end StateLang
