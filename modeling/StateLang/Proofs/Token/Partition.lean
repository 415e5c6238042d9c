import StateLang.Proofs.Token.Gap
import StateLang.Proofs.Token.Lexeme

/-!
# Scanning cuts a text into gaps and lexemes

Nothing of a text is lost between its tokens but gaps, and both are as long as
they can be: no piece of a gap starts after a gap, and no pattern accepts a
longer prefix where a lexeme starts. A text can be cut so in one way only.
-/

namespace StateLang.Token

/-- What the table says of the start of `s`: the longest prefix that a pattern accepts, with the
kind of the first pattern that accepts it, or one unknown character if no pattern accepts any. -/
inductive FirstLongest (s : List Char) : Kind → List Char → Prop
  | accepted {kind : Kind} {pattern : Pattern} {before after : List (Kind × Pattern)}
      {lexeme : List Char} (htable : patterns = before ++ (kind, pattern) :: after)
      (hstart : lexeme <+: s) (haccepts : pattern.Accepts lexeme)
      (hlongest : ∀ entry ∈ patterns, ∀ u, u <+: s → entry.2.Accepts u → u.length ≤ lexeme.length)
      (hfirst : ∀ entry ∈ before, ¬ entry.2.Accepts lexeme) : FirstLongest s kind lexeme
  | unknown {c : Char} (hstart : [c] <+: s)
      (hnone : ∀ entry ∈ patterns, ∀ u, u <+: s → ¬ entry.2.Accepts u) :
      FirstLongest s .unknown [c]

/-- The tokens are the lexemes of the text in order, numbered from `index`, with a gap before each
of them and one before the end. -/
inductive Partition : Nat → List Char → List Token → Prop
  | last {index : Nat} {gap : List Char} {token : Token} (hgap : Gap.Longest gap [])
      (hkind : token.kind = .endOfFile) (hlexeme : token.lexeme = "")
      (hindex : token.index = index) : Partition index gap [token]
  | cons {index : Nat} {gap lexeme rest : List Char} {token : Token} {tokens : List Token}
      (hgap : Gap.Longest gap (lexeme ++ rest)) (hne : lexeme ≠ [])
      (hfound : FirstLongest (lexeme ++ rest) token.kind lexeme) (hkind : token.kind ≠ .endOfFile)
      (hlexeme : token.lexeme = String.ofList lexeme) (hindex : token.index = index)
      (hrest : Partition (index + 1) rest tokens) :
      Partition index (gap ++ (lexeme ++ rest)) (token :: tokens)

variable {s lexeme rest : List Char} {kind : Kind} {n : Nat} {best : Option (Kind × Nat)}
  {entries : List (Kind × Pattern)}

/-! ## The lexeme that the table finds -/

theorem foldl_longer_eq_none (h : entries.foldl (longer s) best = none) :
    best = none ∧ ∀ entry ∈ entries, entry.2.matchLength s = 0 := by
  induction entries generalizing best with
  | nil => exact ⟨h, by simp⟩
  | cons entry entries ih =>
      obtain ⟨hnone, hrest⟩ := ih h
      rcases longer_cases entry with ⟨hkeep, hreach⟩ | ⟨htake, -⟩
      · have hbest : best = none := hkeep.symm.trans hnone
        rw [hbest] at hreach
        have hzero : entry.2.matchLength s = 0 := Nat.le_zero.mp hreach
        exact ⟨hbest, List.forall_mem_cons.mpr ⟨hzero, hrest⟩⟩
      · rw [hnone] at htake
        cases htake

theorem longestMatch_none (h : longestMatch s = none) :
    ∀ entry ∈ patterns, entry.2.matchLength s = 0 := (foldl_longer_eq_none h).2

theorem patterns_nonempty : ∀ entry ∈ patterns, entry.2 ≠ .exactly [] := by decide

theorem not_accepts_nil {entry : Kind × Pattern} (hmem : entry ∈ patterns) :
    ¬ entry.2.Accepts [] := by
  have hne := patterns_nonempty entry hmem
  obtain ⟨kind, pattern⟩ := entry
  intro h
  cases pattern with
  | exactly text =>
      have htext : [] = text := h
      exact hne (by rw [← htext])
  | digits => exact h.1 rfl
  | decimal =>
      obtain ⟨whole, fraction, hsplit, -⟩ := h
      simp at hsplit
  | quoted mark =>
      obtain ⟨body, hbody, -⟩ := h
      cases hbody
  | identifier =>
      obtain ⟨first, word, hword, -⟩ := h
      cases hword

theorem length_le_matchLength {pattern : Pattern} {u : List Char} (hstart : u <+: s)
    (h : pattern.Accepts u) : u.length ≤ pattern.matchLength s := by
  obtain ⟨tail, rfl⟩ := hstart
  exact le_matchLength h tail

theorem nextLexeme_firstLongest (hne : s ≠ []) :
    FirstLongest s (nextLexeme s).1 (s.take (nextLexeme s).2) := by
  unfold nextLexeme
  cases hmatch : longestMatch s with
  | none =>
      obtain ⟨c, tail, rfl⟩ := List.exists_cons_of_ne_nil hne
      refine .unknown ⟨tail, rfl⟩ ?_
      intro entry hmem u hstart haccepts
      have hle := length_le_matchLength hstart haccepts
      rw [longestMatch_none hmatch entry hmem] at hle
      have hnil : u = [] := List.eq_nil_of_length_eq_zero (by omega)
      exact not_accepts_nil hmem (hnil ▸ haccepts)
  | some found =>
      obtain ⟨kind, n⟩ := found
      obtain ⟨before, pattern, after, htable, hlen, hpos, hbefore, hafter⟩ :=
        longestMatch_cases hmatch
      obtain ⟨lexeme, rest, rfl, rfl, haccepts⟩ := exists_accepted hlen hpos
      have htake : (lexeme ++ rest).take lexeme.length = lexeme := List.take_left
      simp only [Option.getD_some, htake]
      refine .accepted htable (List.prefix_append _ _) haccepts ?_ ?_
      · intro entry hmem u hstart hu
        have hle := length_le_matchLength hstart hu
        have hbound : entry.2.matchLength (lexeme ++ rest) ≤ lexeme.length := by
          rw [htable, List.mem_append, List.mem_cons] at hmem
          rcases hmem with hmem | rfl | hmem
          · exact Nat.le_of_lt (hbefore entry hmem)
          · exact Nat.le_of_eq hlen
          · exact hafter entry hmem
        omega
      · intro entry hmem hu
        have hle := le_matchLength hu rest
        have hlt := hbefore entry hmem
        omega

theorem FirstLongest.nextLexeme_eq (h : FirstLongest s kind lexeme) :
    nextLexeme s = (kind, lexeme.length) := by
  cases h with
  | accepted htable hstart haccepts hlongest hfirst =>
      rename_i pattern before after
      have hmem : (kind, pattern) ∈ patterns := by simp [htable]
      have hpos : 0 < lexeme.length := by
        apply List.length_pos_iff.mpr
        rintro rfl
        exact not_accepts_nil hmem haccepts
      have hbound : ∀ entry ∈ patterns, entry.2.matchLength s ≤ lexeme.length := by
        intro entry hentry
        by_cases hzero : entry.2.matchLength s = 0
        · omega
        · obtain ⟨u, tail, rfl, hu, hu'⟩ := @exists_accepted entry.2 s _ rfl (by omega)
          rw [← hu]
          exact hlongest entry hentry u (List.prefix_append _ _) hu'
      have hmatch : longestMatch s = some (kind, lexeme.length) := by
        apply longestMatch_eq htable _ hpos
        · intro entry hentry
          have hle := hbound entry (by simp [htable, hentry])
          apply Nat.lt_of_le_of_ne hle
          intro heq
          obtain ⟨tail, rfl⟩ := hstart
          exact hfirst entry hentry (accepts_of_matchLength heq hpos)
        · intro entry hentry
          exact hbound entry (by simp [htable, hentry])
        · exact Nat.le_antisymm (hbound _ hmem) (length_le_matchLength hstart haccepts)
      rw [nextLexeme, hmatch]
      rfl
  | unknown hstart hnone =>
      have hmatch : longestMatch s = none := by
        cases hfound : longestMatch s with
        | none => rfl
        | some found =>
            obtain ⟨pattern, hmem, hlen, hpos⟩ := longestMatch_mem hfound
            obtain ⟨u, tail, rfl, -, hu⟩ := exists_accepted hlen hpos
            exact absurd hu (hnone _ hmem u (List.prefix_append _ _))
      rw [nextLexeme, hmatch]
      rfl

/-! ## The whole text -/

theorem scanFuel_partition {fuel index : Nat} {pos : Position} (hfuel : s.length < fuel) :
    Partition index s (scanFuel fuel index ⟨pos, s⟩) := by
  induction fuel generalizing index pos s with
  | zero => omega
  | succ fuel ih =>
      obtain ⟨gap, hgap, hlongest⟩ := Gap.exists_longest s
      cases hafter : Gap.after (TextCursor.mk pos s).rest with
      | nil =>
          rw [scanFuel_end hafter]
          rw [hafter] at hgap hlongest
          rw [hgap, List.append_nil]
          exact .last hlongest rfl rfl rfl
      | cons c t =>
          have hlt := drop_length_lt hafter
          have hpos := nextLexeme_pos (c :: t)
          have hfound := @nextLexeme_firstLongest (c :: t) (by simp)
          have hsplit := List.take_append_drop (nextLexeme (c :: t)).2 (c :: t)
          have hne : (c :: t).take (nextLexeme (c :: t)).2 ≠ [] := by
            rw [ne_eq, List.take_eq_nil_iff]
            simp only [reduceCtorEq, or_false]
            omega
          rw [scanFuel_lexeme hafter]
          rw [hafter, ← hsplit] at hgap hlongest
          rw [hgap]
          refine .cons hlongest hne ?_ (nextLexeme_kind (c :: t)) rfl rfl (ih ?_)
          · rw [hsplit]
            exact hfound
          · simp only at hlt
            omega

theorem Partition.spellings_eq {index : Nat} {tokens : List Token} (h : Partition index s tokens) :
    tokens.map spelling = spellings s := by
  induction h with
  | last hgap hkind hlexeme =>
      have hafter := hgap.after_eq
      rw [List.append_nil] at hafter
      rw [spellings_end hafter, List.map_singleton, spelling, hkind, hlexeme]
  | @cons index gap lexeme rest token tokens hgap hne hfound hkind hlexeme hindex hrest ih =>
      obtain ⟨c, word, rfl⟩ := List.exists_cons_of_ne_nil hne
      have hafter : Gap.after (gap ++ (c :: word ++ rest)) = c :: (word ++ rest) := hgap.after_eq
      have hnext : nextLexeme (c :: (word ++ rest)) = (token.kind, (c :: word).length) :=
        hfound.nextLexeme_eq
      have htake : (c :: (word ++ rest)).take (c :: word).length = c :: word := List.take_left
      have hdrop : (c :: (word ++ rest)).drop (c :: word).length = rest := List.drop_left
      rw [spellings_lexeme hafter, hnext, htake, hdrop, List.map_cons, ih, spelling, hlexeme]

/-- Scanning cuts every text into longest gaps and longest lexemes and adds one end, and no other
tokens do so, apart from positions. -/
theorem scan_partition (source : String) :
    Partition 0 source.toList (scan source) ∧
      ∀ tokens, Partition 0 source.toList tokens →
        tokens.map spelling = (scan source).map spelling := by
  constructor
  · exact scanFuel_partition (Nat.lt_succ_self _)
  · intro tokens h
    rw [h.spellings_eq, scan_spellings]

/-- A closed comment is a gap; one that nothing closes is a quotient and a product. -/
theorem scan_partition_comments :
    let source := "i:=.5/*\n*//* /"
    scan source = [⟨.identifier, "i", 0, ⟨1, 1⟩⟩, ⟨.punctuation .assign, ":=", 1, ⟨1, 2⟩⟩,
      ⟨.literal .float, ".5", 2, ⟨1, 4⟩⟩, ⟨.operator (.arith .div), "/", 3, ⟨2, 3⟩⟩,
      ⟨.operator (.arith .mul), "*", 4, ⟨2, 4⟩⟩, ⟨.operator (.arith .div), "/", 5, ⟨2, 6⟩⟩,
      ⟨.endOfFile, "", 6, ⟨2, 7⟩⟩] ∧ Partition 0 source.toList (scan source) := by
  intro source
  exact ⟨by decide +kernel, (scan_partition source).1⟩

end StateLang.Token
