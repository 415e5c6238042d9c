import StateLang.Proofs.Program.Mentions
import StateLang.Proofs.Token.Lexeme

/-!
# Trees whose leaves are lexemes

In the program of a source every name is an identifier and every constant a
literal, since reading takes them from the tokens as they are. Resolving keeps
this, and leaves exactly the names that are no variable uses without an origin.
-/

namespace StateLang

open Token (IsLexeme)

/-- A name that is no variable use. -/
structure Variable.IsName (v : Variable) : Prop where
  word : IsLexeme .identifier v.name.toList
  origin : v.origin = .unresolved

/-- A variable use with its origin. -/
structure Variable.IsUse (v : Variable) : Prop where
  word : IsLexeme .identifier v.name.toList
  origin : v.origin ≠ .unresolved

/-- The text of a literal of this kind. -/
def IsConstant (kind : ConstKind) (text : String) : Prop :=
  ∃ sort, IsLexeme (.literal sort) text.toList ∧ sort.constClass = kind

def Expr.Proper : Expr → Prop
  | const kind text => IsConstant kind text
  | var v => v.IsUse
  | binary _ left right => left.Proper ∧ right.Proper

structure Assignment.Proper (a : Assignment) : Prop where
  target : a.target.IsUse
  value : a.value.Proper

def Destination.Proper : Destination → Prop
  | goto target => target.IsName
  | exit => True

structure Transition.Proper (t : Transition) : Prop where
  guard : t.guard.Proper
  body : ∀ a ∈ t.body, a.Proper
  destination : t.destination.Proper

structure State.Proper (s : State) : Prop where
  name : s.name.IsName
  transitions : ∀ t ∈ s.transitions, t.Proper

structure Program.Proper (p : Program) : Prop where
  name : p.name.IsName
  platform : p.platform.IsName
  declarations : ∀ d ∈ p.declarations, d.name.IsName
  states : ∀ s ∈ p.states, s.Proper

/-- What is mentioned is a lexeme, and its origin is not yet known. -/
def Mention.Scanned : Mention → Prop
  | name v => v.IsName
  | constant kind text => IsConstant kind text

theorem Token.mention?_scanned {source : String} {t : Token} {m : Mention}
    (ht : t ∈ Token.scan source) (hm : t.mention? = some m) : m.Scanned := by
  have hlexeme := Token.scan_isLexeme source t ht
  rcases Token.mention?_cases hm with ⟨hkind, rfl⟩ | ⟨sort, hkind, rfl⟩ <;>
    simp only [hkind, reduceCtorEq, false_or] at hlexeme
  · exact ⟨hlexeme, rfl⟩
  · exact ⟨sort, hlexeme, rfl⟩

theorem Program.parse_scanned {source : String} {p : Program} (h : Program.parse source = .ok p) :
    ∀ m ∈ p.mentions, m.Scanned := by
  intro m hm
  rw [← Program.parse_mentions h] at hm
  obtain ⟨t, ht, hmention⟩ := List.mem_filterMap.mp hm
  exact Token.mention?_scanned ht hmention

section Locate

variable (names : List String)

theorem Variable.IsName.locate {v : Variable} (h : v.IsName) : (v.locate names).IsUse :=
  ⟨h.word, v.locate_origin names⟩

theorem Expr.proper_locate {e : Expr} (h : ∀ m ∈ e.mentions, m.Scanned) :
    (e.locate names).Proper := by
  induction e with
  | const kind text => exact h _ List.mem_cons_self
  | var v => exact Variable.IsName.locate names (h _ List.mem_cons_self)
  | binary op left right ihl ihr =>
      simp only [Expr.mentions, List.mem_append] at h
      exact ⟨ihl fun m hm => h m (.inl hm), ihr fun m hm => h m (.inr hm)⟩

theorem Assignment.proper_locate {a : Assignment} (h : ∀ m ∈ a.mentions, m.Scanned) :
    (a.locate names).Proper := by
  obtain ⟨htarget, hvalue⟩ := List.forall_mem_cons.mp h
  exact ⟨Variable.IsName.locate names htarget, Expr.proper_locate names hvalue⟩

theorem Transition.proper_locate {t : Transition} (h : ∀ m ∈ t.mentions, m.Scanned) :
    (t.locate names).Proper := by
  simp only [Transition.mentions, List.mem_append] at h
  refine ⟨Expr.proper_locate names fun m hm => h m (.inr (.inl hm)), ?_, ?_⟩
  · intro a ha
    obtain ⟨original, horiginal, rfl⟩ := List.mem_map.mp ha
    apply Assignment.proper_locate names
    intro m hm
    exact h m (.inr (.inr (List.mem_flatMap.mpr ⟨original, horiginal, hm⟩)))
  · change t.destination.Proper
    cases hdestination : t.destination with
    | goto target => exact h (.name target) (.inl (by simp [hdestination, Destination.mentions]))
    | exit => trivial

theorem State.proper_locate {s : State} (h : ∀ m ∈ s.mentions, m.Scanned) :
    (s.locate names).Proper := by
  obtain ⟨hname, htransitions⟩ := List.forall_mem_cons.mp h
  refine ⟨hname, ?_⟩
  intro t ht
  obtain ⟨original, horiginal, rfl⟩ := List.mem_map.mp ht
  apply Transition.proper_locate names
  intro m hm
  exact htransitions m (List.mem_flatMap.mpr ⟨original, horiginal, hm⟩)

end Locate

theorem Program.resolve_proper {p : Program} (h : ∀ m ∈ p.mentions, m.Scanned) :
    p.resolve.Proper := by
  simp only [Program.mentions, List.mem_cons, List.mem_append] at h
  refine ⟨h (.name p.name) (.inl rfl), h (.name p.platform) (.inr (.inl rfl)), ?_, ?_⟩
  · intro d hd
    exact h (.name d.name) (.inr (.inr (.inl (List.mem_map.mpr ⟨d, hd, rfl⟩))))
  · intro s hs
    rw [p.resolve_states] at hs
    obtain ⟨original, horiginal, rfl⟩ := List.mem_map.mp hs
    apply State.proper_locate
    intro m hm
    exact h m (.inr (.inr (.inr (List.mem_flatMap.mpr ⟨original, horiginal, hm⟩))))

end StateLang
