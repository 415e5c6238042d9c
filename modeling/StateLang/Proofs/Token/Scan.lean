import StateLang.Token.Scan

/-!
# What scanning gives

The lexemes of a text do not depend on where the text stands: a gap ends at the
same character from every position, and so do the lexemes. `spellings` is the
view without places. It unfolds one lexeme at a time, and a token list has its
only end last.
-/

namespace StateLang.Token

/-! ## The longest match -/

/-- How far the best match so far reaches. -/
def reach (best : Option (Kind × Nat)) : Nat := best.elim 0 Prod.snd

variable {s : List Char} {best : Option (Kind × Nat)} {entries : List (Kind × Pattern)} {n : Nat}

theorem longer_cases (entry : Kind × Pattern) :
    (longer s best entry = best ∧ entry.2.matchLength s ≤ reach best) ∨
    (longer s best entry = some (entry.1, entry.2.matchLength s) ∧
      reach best < entry.2.matchLength s) := by
  by_cases h : reach best < entry.2.matchLength s
  · exact .inr ⟨if_pos h, h⟩
  · exact .inl ⟨if_neg h, Nat.not_lt.mp h⟩

/-- A match is that of the first entry of greatest reach. -/
theorem foldl_longer_cases {kind : Kind} (h : entries.foldl (longer s) best = some (kind, n)) :
    best = some (kind, n) ∧ (∀ entry ∈ entries, entry.2.matchLength s ≤ n) ∨
      ∃ before pattern after, entries = before ++ (kind, pattern) :: after ∧
        pattern.matchLength s = n ∧ reach best < n ∧
        (∀ entry ∈ before, entry.2.matchLength s < n) ∧
        ∀ entry ∈ after, entry.2.matchLength s ≤ n := by
  induction entries generalizing best with
  | nil => exact .inl ⟨h, by simp⟩
  | cons entry entries ih =>
      rcases ih h with ⟨hbest, hle⟩ | ⟨before, pattern, after, hsplit, hlen, hlt, hbefore, hafter⟩
      · rcases longer_cases entry with ⟨heq, hreach⟩ | ⟨heq, hreach⟩
        · rw [heq] at hbest
          rw [hbest] at hreach
          exact .inl ⟨hbest, List.forall_mem_cons.mpr ⟨hreach, hle⟩⟩
        · rw [heq] at hbest
          cases hbest
          exact .inr ⟨[], entry.2, entries, rfl, rfl, hreach, by simp, hle⟩
      · have hboth : entry.2.matchLength s < n ∧ reach best < n := by
          rcases longer_cases entry with ⟨heq, hreach⟩ | ⟨heq, hreach⟩ <;> rw [heq] at hlt
          · omega
          · exact ⟨hlt, Nat.lt_trans hreach hlt⟩
        exact .inr ⟨entry :: before, pattern, after, by rw [hsplit]; rfl, hlen, hboth.2,
          List.forall_mem_cons.mpr ⟨hboth.1, hbefore⟩, hafter⟩

theorem longestMatch_cases {kind : Kind} (h : longestMatch s = some (kind, n)) :
    ∃ before pattern after, patterns = before ++ (kind, pattern) :: after ∧
      pattern.matchLength s = n ∧ 0 < n ∧ (∀ entry ∈ before, entry.2.matchLength s < n) ∧
      ∀ entry ∈ after, entry.2.matchLength s ≤ n :=
  (foldl_longer_cases h).resolve_left (by simp)

theorem longestMatch_mem {kind : Kind} (h : longestMatch s = some (kind, n)) :
    ∃ pattern, (kind, pattern) ∈ patterns ∧ pattern.matchLength s = n ∧ 0 < n := by
  obtain ⟨before, pattern, after, hsplit, hlen, hpos, -⟩ := longestMatch_cases h
  exact ⟨pattern, by simp [hsplit], hlen, hpos⟩

/-- Entries that reach no further change nothing. -/
theorem foldl_longer_of_le (h : ∀ entry ∈ entries, entry.2.matchLength s ≤ reach best) :
    entries.foldl (longer s) best = best := by
  induction entries with
  | nil => rfl
  | cons entry entries ih =>
      have hlt : ¬ reach best < entry.2.matchLength s := Nat.not_lt.mpr (h entry List.mem_cons_self)
      have hkeep : longer s best entry = best := if_neg hlt
      rw [List.foldl_cons, hkeep]
      exact ih fun entry' hmem => h entry' (List.mem_cons_of_mem _ hmem)

theorem reach_foldl_lt (hbest : reach best < n)
    (h : ∀ entry ∈ entries, entry.2.matchLength s < n) :
    reach (entries.foldl (longer s) best) < n := by
  induction entries generalizing best with
  | nil => exact hbest
  | cons entry entries ih =>
      apply ih
      · rcases longer_cases entry with ⟨heq, -⟩ | ⟨heq, -⟩ <;> rw [heq]
        · exact hbest
        · exact h entry List.mem_cons_self
      · exact fun entry' hmem => h entry' (List.mem_cons_of_mem _ hmem)

/-- The first entry of greatest reach gives the match. -/
theorem longestMatch_eq {kind : Kind} {pattern : Pattern} {before after : List (Kind × Pattern)}
    (htable : patterns = before ++ (kind, pattern) :: after) (hlen : pattern.matchLength s = n)
    (hpos : 0 < n) (hbefore : ∀ entry ∈ before, entry.2.matchLength s < n)
    (hafter : ∀ entry ∈ after, entry.2.matchLength s ≤ n) :
    longestMatch s = some (kind, n) := by
  have hlt : reach (before.foldl (longer s) none) < n := reach_foldl_lt hpos hbefore
  have htake : longer s (before.foldl (longer s) none) (kind, pattern) = some (kind, n) := by
    rw [← hlen] at hlt ⊢
    exact if_pos hlt
  rw [longestMatch, htable, List.foldl_append, List.foldl_cons, htake]
  exact foldl_longer_of_le hafter

/-! ## Gaps -/

namespace Gap

/-- Two parts that differ in places only. -/
inductive Part.Alike : Part → Part → Prop
  | blank : Alike .blank .blank
  | line : Alike .line .line
  | block {opening opening' : TextCursor} (h : opening.rest = opening'.rest) :
      Alike (.block opening) (.block opening')

variable {part part' : Part} {p p' : Position}

theorem crossFrom_rest (h : part.Alike part') :
    (crossFrom part p s).rest = (crossFrom part' p' s).rest := by
  fun_induction crossFrom part p s generalizing part' p' with
  | case1 p =>
      cases h
      rfl
  | case2 p s ih =>
      cases h
      rw [crossFrom]
      exact ih (.block rfl)
  | case3 p s ih =>
      cases h
      rw [crossFrom]
      exact ih .line
  | case4 p c s hblock hline hblank ih =>
      cases h
      rw [crossFrom, if_pos hblank]
      · exact ih .blank
      · exact hblock
      · exact hline
  | case5 p c s hblock hline hblank =>
      cases h
      rw [crossFrom, if_neg hblank]
      · exact hblock
      · exact hline
  | case6 p =>
      cases h
      rfl
  | case7 p c s ih =>
      cases h
      rw [crossFrom]
      apply ih
      split
      · exact .blank
      · exact .line
  | case8 opening p =>
      cases h with
      | block h => exact h
  | case9 opening p s ih =>
      cases h
      rw [crossFrom]
      exact ih .blank
  | case10 opening p c s hclose ih =>
      cases h with
      | block h =>
          rw [crossFrom]
          · exact ih (.block h)
          · exact hclose

/-- A gap never ends before the text it starts with; a block comment that nothing closes ends
where it opened. -/
theorem crossFrom_length {m : Nat} (hs : s.length ≤ m)
    (hpart : ∀ opening, part = .block opening → opening.rest.length ≤ m) :
    (crossFrom part p s).rest.length ≤ m := by
  fun_induction crossFrom part p s with
  | case1 p => exact hs
  | case2 p s ih =>
      simp only [List.length_cons] at hs
      apply ih (by omega)
      intro opening h
      cases h
      simpa using hs
  | case3 p s ih =>
      simp only [List.length_cons] at hs
      exact ih (by omega) (by simp)
  | case4 p c s _ _ _ ih =>
      simp only [List.length_cons] at hs
      exact ih (by omega) (by simp)
  | case5 p c s => exact hs
  | case6 p => exact hs
  | case7 p c s ih =>
      simp only [List.length_cons] at hs
      apply ih (by omega)
      intro opening h
      split at h <;> cases h
  | case8 opening p => exact hpart opening rfl
  | case9 opening p s ih =>
      simp only [List.length_cons] at hs
      exact ih (by omega) (by simp)
  | case10 opening p c s _ ih =>
      simp only [List.length_cons] at hs
      exact ih (by omega) hpart

/-- The text after the gap at its start. -/
def after (s : List Char) : List Char := (cross ⟨.start, s⟩).rest

theorem cross_rest (cursor : TextCursor) : (cross cursor).rest = after cursor.rest :=
  crossFrom_rest .blank

theorem after_length_le (s : List Char) : (after s).length ≤ s.length :=
  crossFrom_length (Nat.le_refl _) (by simp)

@[simp] theorem after_nil : after [] = [] := rfl

theorem after_blank {c : Char} (h : isBlank c = true) (s : List Char) :
    after (c :: s) = after s := by
  have hslash : c ≠ '/' := by
    intro heq
    simp [heq, isBlank] at h
  have hcross : cross ⟨.start, c :: s⟩ = crossFrom .blank (Position.start.step c) s := by
    unfold cross
    rw [crossFrom, if_pos h]
    · exact fun _ heq _ => hslash heq
    · exact fun _ heq _ => hslash heq
  unfold after
  rw [hcross]
  exact crossFrom_rest .blank

/-- A text that starts with neither a blank nor a comment has no gap at its start. -/
theorem after_lexeme {c : Char} (h : isBlank c = false) (hblock : ∀ t, c = '/' → s ≠ '*' :: t)
    (hline : ∀ t, c = '/' → s ≠ '/' :: t) : after (c :: s) = c :: s := by
  unfold after cross
  rw [crossFrom, if_neg (by simp [h])]
  · exact hblock
  · exact hline

end Gap

/-! ## One lexeme after the other -/

theorem patterns_inside : ∀ entry ∈ patterns, entry.1 ≠ .endOfFile := by decide

theorem nextLexeme_kind (s : List Char) : (nextLexeme s).1 ≠ .endOfFile := by
  unfold nextLexeme
  cases h : longestMatch s with
  | none => simp
  | some found =>
      obtain ⟨pattern, hmem, -⟩ := longestMatch_mem h
      exact patterns_inside _ hmem

theorem nextLexeme_pos (s : List Char) : 0 < (nextLexeme s).2 := by
  unfold nextLexeme
  cases h : longestMatch s with
  | none => simp
  | some found =>
      obtain ⟨-, -, -, hpos⟩ := longestMatch_mem h
      exact hpos

variable {fuel index : Nat} {cursor : TextCursor} {c : Char}

theorem scanFuel_end (h : Gap.after cursor.rest = []) :
    scanFuel (fuel + 1) index cursor = [endAt index (Gap.cross cursor).pos] := by
  rw [← Gap.cross_rest] at h
  simp only [scanFuel]
  split
  · rfl
  · contradiction

theorem scanFuel_lexeme (h : Gap.after cursor.rest = c :: s) :
    scanFuel (fuel + 1) index cursor =
      ⟨(nextLexeme (c :: s)).1, String.ofList ((c :: s).take (nextLexeme (c :: s)).2), index,
        (Gap.cross cursor).pos⟩ ::
      scanFuel fuel (index + 1)
        ⟨(Gap.cross cursor).pos.after ((c :: s).take (nextLexeme (c :: s)).2),
          (c :: s).drop (nextLexeme (c :: s)).2⟩ := by
  rw [← Gap.cross_rest] at h
  simp only [scanFuel]
  split
  · next hnil => simp [h] at hnil
  · rw [h]

theorem drop_length_lt {rest : List Char} (h : Gap.after rest = c :: s) :
    ((c :: s).drop (nextLexeme (c :: s)).2).length < rest.length := by
  have hle := Gap.after_length_le rest
  have hpos := nextLexeme_pos (c :: s)
  rw [h] at hle
  rw [List.length_drop]
  simp only [List.length_cons] at hle ⊢
  omega

/-- A token list has an end as its last token and nowhere else. -/
theorem scanFuel_ends (hfuel : cursor.rest.length < fuel) :
    ∃ body last, scanFuel fuel index cursor = body ++ [last] ∧ last.kind = .endOfFile ∧
      ∀ t ∈ body, t.kind ≠ .endOfFile := by
  induction fuel generalizing index cursor with
  | zero => omega
  | succ fuel ih =>
      cases h : Gap.after cursor.rest with
      | nil =>
          rw [scanFuel_end h]
          exact ⟨[], _, rfl, rfl, by simp⟩
      | cons c s =>
          have hlt := drop_length_lt h
          rw [scanFuel_lexeme h]
          obtain ⟨body, last, heq, hlast, hbody⟩ :=
            @ih (index + 1) ⟨_, _⟩ (Nat.lt_of_lt_of_le hlt (Nat.lt_succ_iff.mp hfuel))
          refine ⟨_ :: body, last, by rw [heq]; rfl, hlast, ?_⟩
          intro t ht
          rcases List.mem_cons.mp ht with rfl | ht
          · exact nextLexeme_kind (c :: s)
          · exact hbody t ht

theorem scan_ends (source : String) :
    ∃ body last, scan source = body ++ [last] ∧ last.kind = .endOfFile ∧
      ∀ t ∈ body, t.kind ≠ .endOfFile := scanFuel_ends (Nat.lt_succ_self _)

/-! ## Tokens without their places -/

/-- What a token is, wherever it stands. -/
def spelling (t : Token) : Kind × String := (t.kind, t.lexeme)

/-- The tokens of a text without their places. -/
def spellings (s : List Char) : List (Kind × String) :=
  (scanFuel (s.length + 1) 0 ⟨.start, s⟩).map spelling

theorem scan_spellings (source : String) :
    (scan source).map spelling = spellings source.toList := rfl

theorem scanFuel_alike {fuel' index' : Nat} {cursor' : TextCursor}
    (hrest : cursor.rest = cursor'.rest) (hfuel : cursor.rest.length < fuel)
    (hfuel' : cursor.rest.length < fuel') :
    (scanFuel fuel index cursor).map spelling = (scanFuel fuel' index' cursor').map spelling := by
  induction fuel generalizing fuel' index index' cursor cursor' with
  | zero => omega
  | succ fuel ih =>
      obtain ⟨fuel', rfl⟩ : ∃ k, fuel' = k + 1 := ⟨fuel' - 1, by omega⟩
      cases h : Gap.after cursor.rest with
      | nil =>
          rw [scanFuel_end h, scanFuel_end (hrest ▸ h)]
          rfl
      | cons c s =>
          have hlt := drop_length_lt h
          rw [scanFuel_lexeme h, scanFuel_lexeme (hrest ▸ h)]
          simp only [List.map_cons]
          congr 1
          exact ih rfl (by simp only; omega) (by simp only; omega)

theorem spellings_end (h : Gap.after s = []) : spellings s = [(.endOfFile, "")] := by
  unfold spellings
  rw [scanFuel_end h]
  rfl

/-- The first lexeme, and the tokens of what follows it. -/
theorem spellings_lexeme {rest : List Char} (h : Gap.after rest = c :: s) :
    spellings rest =
      ((nextLexeme (c :: s)).1, String.ofList ((c :: s).take (nextLexeme (c :: s)).2)) ::
        spellings ((c :: s).drop (nextLexeme (c :: s)).2) := by
  have hlt := drop_length_lt h
  unfold spellings
  rw [scanFuel_lexeme h, List.map_cons]
  congr 1
  exact scanFuel_alike rfl hlt (Nat.lt_succ_self _)

/-- What a text is scanned as depends on where its first gap ends only. -/
theorem spellings_of_after_eq {t : List Char} (h : Gap.after s = Gap.after t) :
    spellings s = spellings t := by
  cases ht : Gap.after t with
  | nil => rw [spellings_end (h.trans ht), spellings_end ht]
  | cons c rest => rw [spellings_lexeme (h.trans ht), spellings_lexeme ht]

theorem spellings_blank (h : Gap.isBlank c = true) (s : List Char) :
    spellings (c :: s) = spellings s := spellings_of_after_eq (Gap.after_blank h s)

/-- A text that is a lexeme and something else, if the lexeme is the longest match there. -/
theorem spellings_append {lexeme rest : List Char} {kind : Kind} (hne : lexeme ≠ [])
    (hafter : Gap.after (lexeme ++ rest) = lexeme ++ rest)
    (hnext : nextLexeme (lexeme ++ rest) = (kind, lexeme.length)) :
    spellings (lexeme ++ rest) = (kind, String.ofList lexeme) :: spellings rest := by
  cases lexeme with
  | nil => contradiction
  | cons c s =>
      rw [List.cons_append] at hafter hnext ⊢
      rw [spellings_lexeme hafter, hnext]
      simp

end StateLang.Token
