import Mathlib.Order.Bounds.Basic
import StateLang.Proofs.Positions

/-!
# Skipping by patterns

A gap can also be skipped by patterns: a regular expression for each kind of
piece, tried one after the other in rounds, until a round passes nothing. The
expression for block comments has no word for "the first closing"; it says what
may stand between stars instead, and comes to the same. Whichever matches are
taken, the rounds end where crossing ends, and what they have passed is the one
gap that cannot be made longer.

The main statement is `crossing_exact`.
-/

namespace StateLang

/-- Regular expressions over characters. -/
inductive Regex
  /-- One character of a class. -/
  | one (accepts : Char → Bool)
  /-- The end of the text; no character is taken. -/
  | atEnd
  | seq (first second : Regex)
  | alt (first second : Regex)
  /-- Any number of times, also none. -/
  | many (body : Regex)

namespace Regex

/-- Texts one after the other in front of `rest`, each as `Matches` says of what follows it. -/
inductive Repeated (Matches : List Char → List Char → Prop) (rest : List Char) : List Char → Prop
  | nil : Repeated Matches rest []
  | cons {m more : List Char} (first : Matches (more ++ rest) m)
      (hmore : Repeated Matches rest more) : Repeated Matches rest (m ++ more)

/-- The text `m` in front of `rest` is a match. -/
def Matches : Regex → (rest m : List Char) → Prop
  | one accepts, _, m => ∃ c, accepts c = true ∧ m = [c]
  | atEnd, rest, m => m = [] ∧ rest = []
  | seq first second, rest, m =>
      ∃ x y, m = x ++ y ∧ first.Matches (y ++ rest) x ∧ second.Matches rest y
  | alt first second, rest, m => first.Matches rest m ∨ second.Matches rest m
  | many body, rest, m => Repeated body.Matches rest m

/-- At least once. -/
def plus (body : Regex) : Regex := seq body (many body)

variable {accepts : Char → Bool} {second : Regex} {rest m : List Char}

theorem matches_one_seq : (seq (one accepts) second).Matches rest m ↔
    ∃ c y, m = c :: y ∧ accepts c = true ∧ second.Matches rest y := by
  constructor
  · rintro ⟨x, y, rfl, ⟨c, hc, rfl⟩, hy⟩
    exact ⟨c, y, rfl, hc, hy⟩
  · rintro ⟨c, y, rfl, hc, hy⟩
    exact ⟨[c], y, rfl, ⟨c, hc, rfl⟩, hy⟩

theorem matches_char_seq {c : Char} : (seq (one (· = c)) second).Matches rest m ↔
    ∃ y, m = c :: y ∧ second.Matches rest y := by
  rw [matches_one_seq]
  constructor
  · rintro ⟨d, y, rfl, hd, hy⟩
    exact ⟨y, by rw [of_decide_eq_true hd], hy⟩
  · rintro ⟨y, rfl, hy⟩
    exact ⟨c, y, rfl, decide_eq_true rfl, hy⟩

theorem matches_many_one : (many (one accepts)).Matches rest m ↔ ∀ c ∈ m, accepts c = true := by
  constructor
  · intro h
    induction h with
    | nil => simp
    | cons first _ ih =>
        obtain ⟨c, hc, rfl⟩ := first
        exact List.forall_mem_cons.mpr ⟨hc, ih⟩
  · intro h
    induction m with
    | nil => exact .nil
    | cons c m ih =>
        obtain ⟨hc, hm⟩ := List.forall_mem_cons.mp h
        exact Repeated.cons ⟨c, hc, rfl⟩ (ih hm)

theorem matches_plus_one : (plus (one accepts)).Matches rest m ↔
    m ≠ [] ∧ ∀ c ∈ m, accepts c = true := by
  rw [plus, matches_one_seq]
  constructor
  · rintro ⟨c, y, rfl, hc, hy⟩
    exact ⟨by simp, List.forall_mem_cons.mpr ⟨hc, matches_many_one.mp hy⟩⟩
  · rintro ⟨hne, hall⟩
    obtain ⟨c, y, rfl⟩ := List.exists_cons_of_ne_nil hne
    obtain ⟨hc, hy⟩ := List.forall_mem_cons.mp hall
    exact ⟨c, y, rfl, hc, matches_many_one.mpr hy⟩

end Regex

namespace Token.Gap

open Regex

/-- A run of blanks, `[\n\t\r ]+`. -/
def blanks : Regex := plus (one isBlank)

/-- What stands inside a block comment, `[^*]|\*+[^*/]`. -/
def commentUnit : Regex :=
  alt (one (· ≠ '*')) (seq (plus (one (· = '*'))) (one fun c => c ≠ '*' && c ≠ '/'))

/-- A block comment, `/\*([^*]|\*+[^*/])*\*+/`. -/
def blockComment : Regex :=
  seq (one (· = '/')) (seq (one (· = '*'))
    (seq (many commentUnit) (seq (plus (one (· = '*'))) (one (· = '/')))))

/-- A line comment, `//[^\n\r]*([\n\r]|$)`. -/
def lineComment : Regex :=
  seq (one (· = '/')) (seq (one (· = '/'))
    (seq (many (one fun c => !isLineEnd c)) (alt (one isLineEnd) atEnd)))

/-- One pattern for each kind of piece, in the order in which they are tried. -/
def skipPatterns : List Regex := [blanks, blockComment, lineComment]

/-- The text that opens a block comment. -/
def opening : List Char := ['/', '*']

variable {s m rest run body : List Char}

/-! ## Block comments -/

theorem commentUnit_iff : commentUnit.Matches rest m ↔
    (∃ c, c ≠ '*' ∧ m = [c]) ∨
      ∃ run c, run ≠ [] ∧ (∀ d ∈ run, d = '*') ∧ c ≠ '*' ∧ c ≠ '/' ∧ m = run ++ [c] := by
  refine or_congr (by simp [Matches]) ?_
  constructor
  · rintro ⟨run, y, rfl, hrun, c, hc, rfl⟩
    obtain ⟨hne, hstars⟩ := matches_plus_one.mp hrun
    simp only [Bool.and_eq_true, decide_eq_true_eq] at hc hstars
    exact ⟨run, c, hne, hstars, hc.1, hc.2, rfl⟩
  · rintro ⟨run, c, hne, hstars, hstar, hslash, rfl⟩
    refine ⟨run, [c], rfl, matches_plus_one.mpr ⟨hne, ?_⟩, c, by simp [hstar, hslash], rfl⟩
    simpa using hstars

/-- Units look at no more than their own text. -/
theorem units_anywhere (h : (many commentUnit).Matches rest m) (rest' : List Char) :
    (many commentUnit).Matches rest' m := by
  induction h with
  | nil => exact .nil
  | cons first _ ih => exact Repeated.cons (commentUnit_iff.mpr (commentUnit_iff.mp first)) ih

theorem not_closing_cons {c : Char} (hc : c ≠ '*') (h : ¬ closing <:+: s) :
    ¬ closing <:+: c :: s := by
  intro hclosed
  rcases closing_infix_cons hclosed with ⟨tail, htail⟩ | hclosed
  · exact hc (List.cons.inj htail).1
  · exact h hclosed

/-- Stars before anything but a slash close nothing. -/
theorem not_closing_stars {c : Char} (hrun : ∀ d ∈ run, d = '*') (hstar : c ≠ '*')
    (hslash : c ≠ '/') (h : ¬ closing <:+: s) : ¬ closing <:+: run ++ c :: s := by
  induction run with
  | nil => exact not_closing_cons hstar h
  | cons d run ih =>
      obtain ⟨-, hrun⟩ := List.forall_mem_cons.mp hrun
      intro hclosed
      rcases closing_infix_cons hclosed with ⟨tail, htail⟩ | hclosed
      · cases run with
        | nil => exact hslash (List.cons.inj (List.cons.inj htail).2).1
        | cons e run =>
            have he : e = '/' := (List.cons.inj (List.cons.inj htail).2).1
            have hstar : e = '*' := hrun e List.mem_cons_self
            rw [he] at hstar
            exact absurd hstar (by decide)
      · exact ih hrun hclosed

/-- Units and stars after them do not close a comment. -/
theorem units_open (h : (many commentUnit).Matches rest m) (hrun : ∀ d ∈ run, d = '*') :
    ¬ closing <:+: m ++ run := by
  induction h with
  | nil =>
      intro hclosed
      have hslash : '/' = '*' := hrun '/' (hclosed.subset (by simp [closing]))
      exact absurd hslash (by decide)
  | cons first _ ih =>
      rcases commentUnit_iff.mp first with ⟨c, hc, rfl⟩ | ⟨stars, c, -, hstars, hc, hc', rfl⟩
      · exact not_closing_cons hc ih
      · simpa using not_closing_stars hstars hc hc' ih

/-- A text in which nothing closes is cut into units, with stars left over. The induction puts one
character in front at a time: a star makes the first unit longer, or is left over too. -/
theorem exists_units (h : ¬ closing <:+: body) : ∃ m run, body = m ++ run ∧
    (many commentUnit).Matches [] m ∧ ∀ d ∈ run, d = '*' := by
  induction body with
  | nil => exact ⟨[], [], rfl, .nil, by simp⟩
  | cons c body ih =>
      obtain ⟨m, run, rfl, hunits, hrun⟩ := ih fun hclosed => h (List.infix_cons hclosed)
      by_cases hc : c = '*'
      · subst hc
        cases hunits with
        | nil => exact ⟨[], '*' :: run, rfl, .nil, List.forall_mem_cons.mpr ⟨rfl, hrun⟩⟩
        | @cons first more hfirst hmore =>
            have hlonger : commentUnit.Matches (more ++ []) ('*' :: first) := by
              refine commentUnit_iff.mpr (.inr ?_)
              rcases commentUnit_iff.mp hfirst with
                ⟨d, hd, rfl⟩ | ⟨stars, d, -, hstars, hd, hd', rfl⟩
              · refine ⟨['*'], d, by simp, by simp, hd, ?_, rfl⟩
                rintro rfl
                exact h ⟨[], more ++ run, rfl⟩
              · refine ⟨'*' :: stars, d, by simp, ?_, hd, hd', rfl⟩
                exact List.forall_mem_cons.mpr ⟨rfl, hstars⟩
            exact ⟨'*' :: first ++ more, run, by simp, .cons hlonger hmore, hrun⟩
      · have hunit : commentUnit.Matches (m ++ []) [c] := commentUnit_iff.mpr (.inl ⟨c, hc, rfl⟩)
        exact ⟨[c] ++ m, run, by simp, .cons hunit hunits, hrun⟩

/-- The pattern of what closes a comment takes the stars in front of it too. -/
theorem stars_closing_iff : (seq (plus (one (· = '*'))) (one (· = '/'))).Matches rest m ↔
    ∃ run, (∀ d ∈ run, d = '*') ∧ m = run ++ closing := by
  constructor
  · rintro ⟨stars, _, rfl, hstars, c, hc, rfl⟩
    obtain ⟨hne, hall⟩ := matches_plus_one.mp hstars
    obtain ⟨run, last, rfl⟩ := (List.eq_nil_or_concat stars).resolve_left hne
    obtain ⟨hrun, hlast⟩ : (∀ d ∈ run, d = '*') ∧ last = '*' := by
      simpa [or_imp, forall_and] using hall
    exact ⟨run, hrun, by simp [hlast, of_decide_eq_true hc, closing]⟩
  · rintro ⟨run, hrun, rfl⟩
    have hstars : ∀ d ∈ run ++ ['*'], decide (d = '*') = true := by
      simpa [or_imp, forall_and] using hrun
    refine ⟨run ++ ['*'], ['/'], by simp [closing], ?_, '/', rfl, rfl⟩
    exact matches_plus_one.mpr ⟨by simp, hstars⟩

/-- A block comment runs to the first place where something closes it. -/
theorem blockComment_iff : blockComment.Matches rest m ↔
    ∃ body, ¬ closing <:+: body ∧ m = '/' :: '*' :: (body ++ closing) := by
  rw [blockComment]
  simp only [matches_char_seq]
  constructor
  · rintro ⟨_, rfl, _, rfl, units, _, rfl, hunits, hclosing⟩
    obtain ⟨run, hrun, rfl⟩ := stars_closing_iff.mp hclosing
    exact ⟨units ++ run, units_open hunits hrun, by simp⟩
  · rintro ⟨body, hbody, rfl⟩
    obtain ⟨units, run, rfl, hunits, hrun⟩ := exists_units hbody
    refine ⟨_, rfl, _, rfl, units, run ++ closing, by simp, units_anywhere hunits _, ?_⟩
    exact stars_closing_iff.mpr ⟨run, hrun, rfl⟩

/-- The offsets at which a comment that opens the text may be closed. -/
def closings (s : List Char) : Set Nat := {n | 2 ≤ n ∧ closing <+: s.drop n}

theorem exists_blockComment_iff (h : opening <+: s) :
    (∃ m rest, s = m ++ rest ∧ blockComment.Matches rest m) ↔ (closings s).Nonempty := by
  obtain ⟨t, rfl⟩ := h
  constructor
  · rintro ⟨m, rest, hsplit, hm⟩
    obtain ⟨body, -, rfl⟩ := blockComment_iff.mp hm
    obtain rfl : t = body ++ closing ++ rest := by simpa [opening] using hsplit
    exact ⟨body.length + 2, by omega, rest, by simp [opening]⟩
  · rintro ⟨n, hn, hclosing⟩
    obtain ⟨k, rfl⟩ := Nat.exists_eq_add_of_le' hn
    have hclosed : closing <:+: t := hclosing.isInfix.trans (List.drop_suffix k t).isInfix
    obtain ⟨body, rest, rfl, hbody⟩ := exists_first_closing hclosed
    exact ⟨_, rest, by simp [opening], blockComment_iff.mpr ⟨body, hbody, rfl⟩⟩

/-- A block comment ends with the first closing. -/
theorem isLeast_closings (h : blockComment.Matches rest m) :
    ∃ n, m.length = n + 2 ∧ IsLeast (closings (m ++ rest)) n := by
  obtain ⟨body, hbody, rfl⟩ := blockComment_iff.mp h
  refine ⟨body.length + 2, by simp [closing], ⟨by omega, rest, by simp⟩, ?_⟩
  rintro n ⟨hn, hclosing⟩
  by_contra hlt
  obtain ⟨k, rfl⟩ := Nat.exists_eq_add_of_le' hn
  have hk : k < body.length := by omega
  have hdrop := List.drop_eq_getElem_cons hk
  have hinside : ¬ closing <:+: body[k] :: body.drop (k + 1) := by
    rw [← hdrop]
    exact fun hclosed => hbody (hclosed.trans (List.drop_suffix k body).isInfix)
  obtain ⟨tail, htail⟩ := hclosing
  have hbefore : body[k] :: (body.drop (k + 1) ++ closing ++ rest) = closing ++ tail := by
    rw [htail, ← List.cons_append, ← List.cons_append, ← hdrop]
    simp [List.drop_append_of_le_length hk.le]
  exact not_closing_before hinside tail hbefore

theorem blockComment_iff_length {n : Nat} (hopening : opening <+: m ++ rest)
    (hn : IsLeast (closings (m ++ rest)) n) :
    blockComment.Matches rest m ↔ m.length = n + 2 := by
  constructor
  · intro h
    obtain ⟨k, hlength, hk⟩ := isLeast_closings h
    rw [hlength, hk.unique hn]
  · intro hlength
    obtain ⟨m', rest', hsplit, hm'⟩ := (exists_blockComment_iff hopening).mpr ⟨n, hn.1⟩
    obtain ⟨k, hlength', hk⟩ := isLeast_closings hm'
    rw [← hsplit] at hk
    obtain ⟨rfl, rfl⟩ := List.append_inj hsplit (by rw [hlength, hlength', hn.unique hk])
    exact hm'

/-! ## Patterns and pieces -/

theorem lineComment_iff : lineComment.Matches rest m ↔
    ∃ body, (∀ d ∈ body, isLineEnd d = false) ∧
      ((∃ c, isLineEnd c = true ∧ m = '/' :: '/' :: (body ++ [c])) ∨
        m = '/' :: '/' :: body ∧ rest = []) := by
  rw [lineComment]
  simp only [matches_char_seq]
  constructor
  · rintro ⟨_, rfl, _, rfl, body, _, rfl, hbody, hend⟩
    refine ⟨body, by simpa using matches_many_one.mp hbody, ?_⟩
    rcases hend with ⟨c, hc, rfl⟩ | ⟨rfl, hrest⟩
    · exact .inl ⟨c, hc, rfl⟩
    · exact .inr ⟨by simp, hrest⟩
  · rintro ⟨body, hbody, hend⟩
    have hmany (rest : List Char) : (many (one fun c => !isLineEnd c)).Matches rest body :=
      matches_many_one.mpr (by simpa using hbody)
    rcases hend with ⟨c, hc, rfl⟩ | ⟨rfl, hrest⟩
    · exact ⟨_, rfl, _, rfl, body, [c], rfl, hmany _, .inl ⟨c, hc, rfl⟩⟩
    · exact ⟨_, rfl, _, rfl, body, [], by simp, hmany _, .inr ⟨rfl, hrest⟩⟩

/-- The pieces of a gap are the matches of the patterns. -/
theorem piece_iff : Piece rest m ↔ ∃ pattern ∈ skipPatterns, pattern.Matches rest m := by
  simp only [skipPatterns, List.mem_cons, List.not_mem_nil, or_false, exists_eq_or_imp,
    exists_eq_left, blockComment_iff, lineComment_iff, blanks, matches_plus_one]
  constructor
  · intro h
    cases h with
    | blanks hne hrun => exact .inl ⟨hne, hrun⟩
    | block hbody => exact .inr (.inl ⟨_, hbody, rfl⟩)
    | line hbody hend => exact .inr (.inr ⟨_, hbody, .inl ⟨_, hend, rfl⟩⟩)
    | lastLine hbody hrest => exact .inr (.inr ⟨_, hbody, .inr ⟨rfl, hrest⟩⟩)
  · rintro (⟨hne, hrun⟩ | ⟨body, hbody, rfl⟩ | ⟨body, hbody, ⟨c, hend, rfl⟩ | ⟨rfl, hrest⟩⟩)
    · exact .blanks hne hrun
    · exact .block hbody
    · exact .line hbody hend
    · exact .lastLine hbody hrest

/-! ## Rounds -/

/-- Try a pattern: the text in front that it matches is passed, if there is one. A pattern may match
in several ways, and any of them may be taken. -/
def Tries (pattern : Regex) (s t : List Char) : Prop :=
  (∃ m, s = m ++ t ∧ pattern.Matches t m) ∨
    t = s ∧ ∀ m rest, s = m ++ rest → ¬ pattern.Matches rest m

/-- Try patterns in order, each where the one before has ended. -/
inductive Round : List Regex → List Char → List Char → Prop
  | done {s : List Char} : Round [] s s
  | next {pattern : Regex} {patterns : List Regex} {s t u : List Char}
      (first : Tries pattern s t) (others : Round patterns t u) : Round (pattern :: patterns) s u

/-- Rounds of all patterns, up to the first that passes nothing. -/
inductive Rounds : List Char → List Char → Prop
  | last {s : List Char} (h : Round skipPatterns s s) : Rounds s s
  | more {s t u : List Char} (h : Round skipPatterns s t) (hne : t ≠ s) (others : Rounds t u) :
      Rounds s u

variable {t : List Char} {pattern : Regex} {patterns : List Regex}

theorem Tries.suffix (h : Tries pattern s t) : t <:+ s := by
  rcases h with ⟨m, rfl, -⟩ | ⟨rfl, -⟩
  · exact List.suffix_append m t
  · exact List.suffix_refl t

theorem Tries.after_eq (h : Tries pattern s t) (hpattern : pattern ∈ skipPatterns) :
    after s = after t := by
  rcases h with ⟨m, rfl, hm⟩ | ⟨rfl, -⟩
  · exact after_piece (piece_iff.mpr ⟨pattern, hpattern, hm⟩)
  · rfl

/-- No match is empty, so a place that stays has none. -/
theorem Tries.not_matches (h : Tries pattern s s) (hpattern : pattern ∈ skipPatterns) :
    ∀ m rest, s = m ++ rest → ¬ pattern.Matches rest m := by
  rcases h with ⟨m, hsplit, hm⟩ | ⟨-, hnone⟩
  · have hnil : m = [] := List.self_eq_append_left.mp hsplit
    exact absurd hnil (piece_iff.mpr ⟨pattern, hpattern, hm⟩).ne_nil
  · exact hnone

theorem exists_tries (pattern : Regex) (s : List Char) : ∃ t, Tries pattern s t := by
  by_cases h : ∃ m rest, s = m ++ rest ∧ pattern.Matches rest m
  · obtain ⟨m, rest, hsplit, hm⟩ := h
    exact ⟨rest, .inl ⟨m, hsplit, hm⟩⟩
  · exact ⟨s, .inr ⟨rfl, fun m rest hsplit hm => h ⟨m, rest, hsplit, hm⟩⟩⟩

theorem Round.suffix (h : Round patterns s t) : t <:+ s := by
  induction h with
  | done => exact List.suffix_refl _
  | next first _ ih => exact ih.trans first.suffix

theorem Round.after_eq (h : Round patterns s t) (hpatterns : patterns ⊆ skipPatterns) :
    after s = after t := by
  induction h with
  | done => rfl
  | next first _ ih =>
      obtain ⟨hpattern, hothers⟩ := List.cons_subset.mp hpatterns
      rw [first.after_eq hpattern, ih hothers]

/-- A round that passes nothing has found no match. -/
theorem Round.not_matches (h : Round patterns s t) (hstays : t = s)
    (hpatterns : patterns ⊆ skipPatterns) :
    ∀ pattern ∈ patterns, ∀ m rest, s = m ++ rest → ¬ pattern.Matches rest m := by
  induction h with
  | done => simp
  | @next pattern patterns s t u first others ih =>
      obtain ⟨hpattern, hothers⟩ := List.cons_subset.mp hpatterns
      subst hstays
      -- places only move forward, so this one has not moved on the way
      obtain rfl : t = u := first.suffix.eq_of_length_le others.suffix.length_le
      exact List.forall_mem_cons.mpr ⟨first.not_matches hpattern, ih rfl hothers⟩

theorem exists_round (patterns : List Regex) (s : List Char) : ∃ t, Round patterns s t := by
  induction patterns generalizing s with
  | nil => exact ⟨s, .done⟩
  | cons pattern patterns ih =>
      obtain ⟨t, ht⟩ := exists_tries pattern s
      obtain ⟨u, hu⟩ := ih t
      exact ⟨u, .next ht hu⟩

theorem Rounds.eq_after (h : Rounds s t) : t = after s := by
  induction h with
  | last h =>
      refine (after_of_not_starts ?_).symm
      rintro ⟨piece, rest, hsplit, hpiece⟩
      obtain ⟨pattern, hpattern, hmatches⟩ := piece_iff.mp hpiece
      exact h.not_matches rfl (List.Subset.refl _) pattern hpattern piece rest hsplit hmatches
  | more h _ _ ih => rw [ih, h.after_eq (List.Subset.refl _)]

/-- The rounds come to an end: each but the last shortens the text. -/
theorem exists_rounds (s : List Char) : ∃ t, Rounds s t := by
  induction hlen : s.length using Nat.strongRecOn generalizing s with
  | ind n ih =>
      obtain ⟨t, ht⟩ := exists_round skipPatterns s
      by_cases hstays : t = s
      · subst hstays
        exact ⟨t, .last ht⟩
      · have hlt : t.length < n := by
          refine hlen ▸ Nat.lt_of_le_of_ne ht.suffix.length_le ?_
          exact fun heq => hstays (ht.suffix.eq_of_length heq)
        obtain ⟨u, hu⟩ := ih t.length hlt t rfl
        exact ⟨u, .more ht hstays hu⟩

/-- Rounds of patterns end where crossing ends. -/
theorem rounds_iff : Rounds s t ↔ t = after s := by
  refine ⟨Rounds.eq_after, ?_⟩
  rintro rfl
  obtain ⟨t, ht⟩ := exists_rounds s
  rwa [← ht.eq_after]

/-! ## The longest gap -/

/-- The text starts with this gap, which need not be the whole gap. -/
def IsGap (s gap : List Char) : Prop := ∃ rest, s = gap ++ rest ∧ Pieces rest gap

/-- A gap with which the text starts and that no longer one goes on from. -/
structure IsMaximalGap (s gap : List Char) : Prop where
  isGap : IsGap s gap
  maximal : ∀ other, IsGap s other → gap <+: other → other = gap

variable {gap other : List Char}

/-- Whatever gap a text starts with, the longest one goes on from it. -/
theorem IsGap.isPrefix (h : IsGap (gap ++ rest) other) (hlongest : Longest gap rest) :
    other <+: gap := by
  obtain ⟨rest', hsplit, hpieces⟩ := h
  obtain ⟨more, hmore, -⟩ := exists_longest rest'
  have hafter : after rest' = rest := by
    rw [← after_pieces hpieces, ← hsplit, hlongest.after_eq]
  refine ⟨more, List.append_cancel_right (?_ : _ ++ rest = _)⟩
  rw [hsplit, List.append_assoc, ← hafter, ← hmore]

theorem isMaximalGap_iff : IsMaximalGap s gap ↔ ∃ rest, s = gap ++ rest ∧ Longest gap rest := by
  constructor
  · intro h
    obtain ⟨longest, hsplit, hlongest⟩ := exists_longest s
    have hprefix : gap <+: longest := (hsplit ▸ h.isGap).isPrefix hlongest
    obtain rfl : longest = gap := h.maximal longest ⟨_, hsplit, hlongest.pieces⟩ hprefix
    exact ⟨after s, hsplit, hlongest⟩
  · rintro ⟨rest, rfl, hlongest⟩
    refine ⟨⟨rest, rfl, hlongest.pieces⟩, fun other hother hprefix => ?_⟩
    exact (hother.isPrefix hlongest).eq_of_length_le hprefix.length_le

theorem IsMaximalGap.unique (h : IsMaximalGap s gap) (h' : IsMaximalGap s other) : other = gap := by
  obtain ⟨rest, rfl, hlongest⟩ := isMaximalGap_iff.mp h
  exact (h'.maximal gap h.isGap (h'.isGap.isPrefix hlongest)).symm

theorem exists_isMaximalGap (s : List Char) : ∃ gap, IsMaximalGap s gap := by
  obtain ⟨gap, hgap, hlongest⟩ := exists_longest s
  exact ⟨gap, isMaximalGap_iff.mpr ⟨_, hgap, hlongest⟩⟩

theorem cross_eq_self_iff (s : List Char) (p : Position) :
    cross ⟨p, s⟩ = ⟨p, s⟩ ↔ ¬ Starts s := by
  constructor
  · intro hstays
    obtain ⟨gap, -, hlongest⟩ := exists_longest s
    have hafter : after s = s := (cross_rest ⟨p, s⟩).symm.trans (congrArg TextCursor.rest hstays)
    exact hafter ▸ hlongest.ended
  · intro hended
    exact cross_longest ⟨.nil, hended⟩ p

/-- Skipping stops at the right place. In a text that opens a block comment the pattern has a match
exactly if something closes the comment after its opening, and the match ends with the first such
closing. The pieces of gaps are the matches of the three patterns. There is one gap at the start of
a text that cannot be made longer. Every other gap there is the start of it, and crossing passes it
and nothing else, so it stays where no piece starts. Rounds of the patterns end where it ends. -/
theorem crossing_exact (s : List Char) (p : Position) :
    (opening <+: s →
      ((∃ m rest, s = m ++ rest ∧ blockComment.Matches rest m) ↔ (closings s).Nonempty) ∧
      ∀ n, IsLeast (closings s) n → ∀ m rest, s = m ++ rest →
        (blockComment.Matches rest m ↔ m.length = n + 2)) ∧
    (∀ piece rest, Piece rest piece ↔ ∃ pattern ∈ skipPatterns, pattern.Matches rest piece) ∧
    (∃! gap, IsMaximalGap s gap) ∧
    (∀ gap, IsMaximalGap s gap → (∀ other, IsGap s other → other <+: gap) ∧
      cross ⟨p, s⟩ = ⟨p.after gap, s.drop gap.length⟩) ∧
    (cross ⟨p, s⟩ = ⟨p, s⟩ ↔ ¬ Starts s) ∧
    ∀ rest, Rounds s rest ↔ rest = (cross ⟨p, s⟩).rest := by
  obtain ⟨longest, hmaximal⟩ := exists_isMaximalGap s
  refine ⟨fun hopening => ⟨exists_blockComment_iff hopening, ?_⟩, fun _ _ => piece_iff,
    ⟨longest, hmaximal, fun other hother => hmaximal.unique hother⟩, ?_, cross_eq_self_iff s p, ?_⟩
  · rintro n hn m rest rfl
    exact blockComment_iff_length hopening hn
  · intro gap hgap
    obtain ⟨rest, rfl, hlongest⟩ := isMaximalGap_iff.mp hgap
    refine ⟨fun other hother => hother.isPrefix hlongest, ?_⟩
    rw [cross_longest hlongest, List.drop_left]
  · intro rest
    rw [rounds_iff, cross_rest]

/-- Comments with runs of stars, a comment that a carriage return ends, and one that nothing closes:
no star belongs to both the opening and the closing of a comment. -/
theorem crossing_exact_stars :
    let s := "/***/ /* **x**/ //c\r/*/x".toList
    opening <+: s ∧ IsLeast (closings s) 3 ∧ blockComment.Matches (s.drop 5) (s.take 5) ∧
      IsMaximalGap s (s.take 20) ∧ cross ⟨.start, s⟩ = ⟨⟨1, 21⟩, "/*/x".toList⟩ ∧
      Rounds s "/*/x".toList ∧ ¬ Starts "/*/x".toList := by
  intro s
  have hcross : cross ⟨.start, s⟩ = ⟨⟨1, 21⟩, "/*/x".toList⟩ := by decide
  have hopening : opening <+: s := by decide
  have hleast : IsLeast (closings s) 3 := by
    refine ⟨⟨by decide, by decide⟩, ?_⟩
    rintro n ⟨hn, hclosing⟩
    by_contra hlt
    obtain rfl : n = 2 := by omega
    exact absurd hclosing (by decide)
  obtain ⟨hblock, -, ⟨gap, hgap, -⟩, hmaximal, -, hrounds⟩ := crossing_exact s .start
  have htail : s.drop gap.length = "/*/x".toList :=
    congrArg TextCursor.rest ((hmaximal gap hgap).2.symm.trans hcross)
  have htake : gap = s.take 20 := by
    obtain ⟨rest, hsplit, -⟩ := hgap.isGap
    have hrest : rest = "/*/x".toList := by rw [← htail, hsplit, List.drop_left]
    rw [hrest] at hsplit
    exact List.append_cancel_right (hsplit.symm.trans (List.take_append_drop 20 s).symm)
  refine ⟨hopening, hleast, ?_, htake ▸ hgap, hcross, ?_, ?_⟩
  · exact ((hblock hopening).2 3 hleast _ _ (List.take_append_drop 5 s).symm).mpr rfl
  · rw [hrounds, hcross]
  · exact (crossing_exact "/*/x".toList .start).2.2.2.2.1.mp (by decide)

end Token.Gap

end StateLang
