import StateLang.Proofs.Token.Scan

/-!
# Lexemes that stand apart

A pattern accepts some texts as a whole, and its match is the longest prefix it
accepts. Only a quoted text has a blank or a quote mark in it. So a lexeme that
is written again, with a blank or nothing after it, is the same lexeme there.
-/

namespace StateLang.Token

/-- The texts that are a whole match of a pattern. -/
def Pattern.Accepts : Pattern → List Char → Prop
  | exactly text, s => s = text
  | digits, s => s ≠ [] ∧ ∀ c ∈ s, c.isDigit = true
  | decimal, s => ∃ whole fraction, s = whole ++ '.' :: fraction ∧
      (∀ c ∈ whole, c.isDigit = true) ∧ fraction ≠ [] ∧ ∀ c ∈ fraction, c.isDigit = true
  | quoted mark, s => ∃ body, s = mark :: (body ++ [mark]) ∧ mark ∉ body
  | identifier, s => ∃ first word, s = first :: word ∧ isLetter first = true ∧
      ∀ c ∈ word, isWordChar c = true

def isBreak (c : Char) : Bool := Gap.isBlank c || c = '"' || c = '\''

/-- A pattern without breaks, or a quoted text between two of the quote marks. -/
def Pattern.plain : Pattern → Bool
  | exactly text => text.all fun c => !isBreak c
  | quoted mark => mark = '"' || mark = '\''
  | _ => true

/-- No text but a slash alone starts with a slash. -/
def Pattern.slashAlone : Pattern → Bool
  | exactly text => text.head? ≠ some '/' || text = ['/']
  | quoted mark => mark ≠ '/'
  | _ => true

def Separated (rest : List Char) : Prop := ∀ c s, rest = c :: s → Gap.isBlank c = true

/-- A text that is found as a lexeme of this kind in front of some text. -/
def IsLexeme (kind : Kind) (lexeme : List Char) : Prop :=
  ∃ rest, longestMatch (lexeme ++ rest) = some (kind, lexeme.length)

variable {pattern : Pattern} {s lexeme rest : List Char} {n : Nat} {c mark : Char} {kind : Kind}

/-! ## A match is the longest prefix that is accepted -/

theorem mem_takeWhile {p : Char → Bool} (h : c ∈ s.takeWhile p) : p c = true :=
  List.all_eq_true.mp List.all_takeWhile c h

theorem decimal_accepted (h : Pattern.decimal.matchLength s = n) (hpos : 0 < n) :
    ∃ lexeme rest, s = lexeme ++ rest ∧ lexeme.length = n ∧ Pattern.decimal.Accepts lexeme := by
  simp only [Pattern.matchLength] at h
  split at h
  · next tail hdrop =>
      split at h
      · omega
      · next fraction hne =>
          refine ⟨s.takeWhile Char.isDigit ++ '.' :: tail.takeWhile Char.isDigit,
            tail.dropWhile Char.isDigit, ?_, ?_, _, _, rfl, fun _ => mem_takeWhile, hne,
            fun _ => mem_takeWhile⟩
          · rw [List.append_assoc, List.cons_append, List.takeWhile_append_dropWhile, ← hdrop,
              List.takeWhile_append_dropWhile]
          · simp only [List.length_append, List.length_cons]
            omega
  · omega

theorem quoted_accepted (h : (Pattern.quoted mark).matchLength s = n) (hpos : 0 < n) :
    ∃ lexeme rest, s = lexeme ++ rest ∧ lexeme.length = n ∧
      (Pattern.quoted mark).Accepts lexeme := by
  cases s with
  | nil =>
      simp only [Pattern.matchLength] at h
      omega
  | cons c tail =>
      simp only [Pattern.matchLength] at h
      split at h
      · next hmark =>
          split at h
          · next hlt =>
              -- the body is shorter than what follows the opening, so a mark comes after it
              have hsplit : tail.takeWhile (· ≠ mark) ++ tail.dropWhile (· ≠ mark) = tail :=
                List.takeWhile_append_dropWhile
              have hhead := List.head?_dropWhile_not (· ≠ mark) tail
              cases hdrop : tail.dropWhile (· ≠ mark) with
              | nil =>
                  rw [hdrop, List.append_nil] at hsplit
                  rw [hsplit] at hlt
                  omega
              | cons d rest =>
                  rw [hdrop] at hsplit hhead
                  have hd : d = mark := by simpa using hhead
                  refine ⟨mark :: (tail.takeWhile (· ≠ mark) ++ [mark]), rest, ?_, ?_, _, rfl, ?_⟩
                  · rw [hd] at hsplit
                    rw [hmark, List.cons_append, List.append_assoc, List.singleton_append, hsplit]
                  · simp only [List.length_cons, List.length_append, List.length_nil]
                    omega
                  · intro hmem
                    simpa using mem_takeWhile hmem
          · omega
      · omega

theorem exists_accepted (h : pattern.matchLength s = n) (hpos : 0 < n) :
    ∃ lexeme rest, s = lexeme ++ rest ∧ lexeme.length = n ∧ pattern.Accepts lexeme := by
  cases pattern with
  | exactly text =>
      simp only [Pattern.matchLength] at h
      split at h
      · next hpre =>
          obtain ⟨rest, hrest⟩ := List.isPrefixOf_iff_prefix.mp hpre
          exact ⟨text, rest, hrest.symm, h, rfl⟩
      · omega
  | digits =>
      simp only [Pattern.matchLength] at h
      refine ⟨s.takeWhile Char.isDigit, s.dropWhile Char.isDigit,
        List.takeWhile_append_dropWhile.symm, h, ?_, fun _ => mem_takeWhile⟩
      intro hnil
      rw [hnil, List.length_nil] at h
      omega
  | decimal => exact decimal_accepted h hpos
  | quoted mark => exact quoted_accepted h hpos
  | identifier =>
      cases s with
      | nil =>
          simp only [Pattern.matchLength] at h
          omega
      | cons c tail =>
          simp only [Pattern.matchLength] at h
          split at h
          · next hc =>
              exact ⟨c :: tail.takeWhile isWordChar, tail.dropWhile isWordChar, by simp, h,
                _, _, rfl, hc, fun _ => mem_takeWhile⟩
          · omega

theorem accepts_of_matchLength (h : pattern.matchLength (lexeme ++ rest) = lexeme.length)
    (hpos : 0 < lexeme.length) : pattern.Accepts lexeme := by
  obtain ⟨found, tail, hsplit, hfound, haccepts⟩ := exists_accepted h hpos
  obtain ⟨rfl, -⟩ := List.append_inj hsplit hfound.symm
  exact haccepts

theorem quoted_matchLength (h : (Pattern.quoted mark).Accepts lexeme) (rest : List Char) :
    (Pattern.quoted mark).matchLength (lexeme ++ rest) = lexeme.length := by
  obtain ⟨body, rfl, hbody⟩ := h
  have hpos : ∀ c ∈ body, decide (c ≠ mark) = true := by
    intro c hc
    have hne : c ≠ mark := fun heq => hbody (heq ▸ hc)
    simpa using hne
  have htake : (body ++ mark :: rest).takeWhile (· ≠ mark) = body := by
    rw [List.takeWhile_append_of_pos hpos, List.takeWhile_cons_of_neg (by simp), List.append_nil]
  simp only [List.cons_append, List.append_assoc, List.nil_append, Pattern.matchLength, if_true,
    htake, List.length_append, List.length_cons, List.length_nil]
  rw [if_pos (by omega)]

/-- A text that is accepted is matched, whatever follows it; the match may go on. -/
theorem le_matchLength (h : pattern.Accepts lexeme) (rest : List Char) :
    lexeme.length ≤ pattern.matchLength (lexeme ++ rest) := by
  cases pattern with
  | exactly text =>
      have hpre : text.isPrefixOf (text ++ rest) = true :=
        List.isPrefixOf_iff_prefix.mpr (List.prefix_append _ _)
      have hlen : (Pattern.exactly text).matchLength (text ++ rest) = text.length := if_pos hpre
      rw [show lexeme = text from h]
      exact Nat.le_of_eq hlen.symm
  | digits =>
      rw [Pattern.matchLength, List.takeWhile_append_of_pos h.2, List.length_append]
      omega
  | decimal =>
      obtain ⟨whole, fraction, rfl, hwhole, hne, hfraction⟩ := h
      have hdrop : (whole ++ '.' :: fraction ++ rest).dropWhile Char.isDigit =
          '.' :: (fraction ++ rest) := by
        rw [List.append_assoc, List.dropWhile_append_of_pos hwhole]
        rfl
      have htake : (whole ++ '.' :: fraction ++ rest).takeWhile Char.isDigit = whole := by
        rw [List.append_assoc, List.takeWhile_append_of_pos hwhole]
        exact List.append_nil _
      rw [Pattern.matchLength, hdrop, htake]
      simp only [List.takeWhile_append_of_pos hfraction]
      split
      · next hnil => exact absurd (List.append_eq_nil_iff.mp hnil).1 hne
      · simp only [List.length_append, List.length_cons]
        omega
  | quoted mark => exact Nat.le_of_eq (quoted_matchLength h rest).symm
  | identifier =>
      obtain ⟨first, word, rfl, hfirst, hword⟩ := h
      rw [List.cons_append, Pattern.matchLength]
      simp only [hfirst, if_true, List.takeWhile_append_of_pos hword, List.length_append,
        List.length_cons]
      omega

/-! ## Breaks end a match -/

theorem patterns_plain : ∀ entry ∈ patterns, entry.2.plain = true := by decide

theorem isBreak_of_wordChar (h : isWordChar c = true) : isBreak c = false := by
  by_cases hbreak : isBreak c = true
  · simp only [isBreak, Gap.isBlank, Bool.or_eq_true, decide_eq_true_eq] at hbreak
    rcases hbreak with ((((rfl | rfl) | rfl) | rfl) | rfl) | rfl <;> contradiction
  · simpa using hbreak

theorem isBreak_of_digit (h : c.isDigit = true) : isBreak c = false :=
  isBreak_of_wordChar (by simp [isWordChar, Char.isAlphanum, h])

/-- Only a quoted text has breaks in it. -/
theorem isBreak_of_accepts (hplain : pattern.plain = true) (h : pattern.Accepts s)
    (hquoted : ∀ mark, pattern ≠ .quoted mark) : ∀ c ∈ s, isBreak c = false := by
  intro c hc
  cases pattern with
  | exactly text =>
      have htext : s = text := h
      have hall := List.all_eq_true.mp hplain c (htext ▸ hc)
      simpa using hall
  | digits => exact isBreak_of_digit (h.2 c hc)
  | decimal =>
      obtain ⟨whole, fraction, rfl, hwhole, -, hfraction⟩ := h
      rcases List.mem_append.mp hc with hc | hc
      · exact isBreak_of_digit (hwhole c hc)
      · rcases List.mem_cons.mp hc with rfl | hc
        · rfl
        · exact isBreak_of_digit (hfraction c hc)
  | quoted mark => exact absurd rfl (hquoted mark)
  | identifier =>
      obtain ⟨first, word, rfl, hfirst, hword⟩ := h
      rcases List.mem_cons.mp hc with rfl | hc
      · apply isBreak_of_wordChar
        simp only [isLetter, Bool.or_eq_true] at hfirst
        rcases hfirst with hfirst | hfirst <;> simp [isWordChar, Char.isAlphanum, hfirst]
      · exact isBreak_of_wordChar (hword c hc)

theorem quoted_of_break {entry : Kind × Pattern} (hmem : entry ∈ patterns)
    (h : entry.2.Accepts (c :: s)) (hc : isBreak c = true) : entry.2 = .quoted c := by
  by_cases hquoted : ∃ mark, entry.2 = .quoted mark
  · obtain ⟨mark, heq⟩ := hquoted
    rw [heq] at h
    obtain ⟨body, hbody, -⟩ := h
    rw [heq, (List.cons.inj hbody).1]
  · have hno := isBreak_of_accepts (patterns_plain entry hmem) h
      (fun mark heq => hquoted ⟨mark, heq⟩) c List.mem_cons_self
    rw [hc] at hno
    contradiction

theorem quoted_not_blank {entry : Kind × Pattern} (hmem : entry ∈ patterns)
    (h : entry.2 = .quoted mark) : isBreak mark = true ∧ Gap.isBlank mark = false := by
  have hplain := patterns_plain entry hmem
  rw [h] at hplain
  simp only [Pattern.plain, Bool.or_eq_true, decide_eq_true_eq] at hplain
  rcases hplain with rfl | rfl <;> exact ⟨rfl, rfl⟩

theorem patterns_slashAlone : ∀ entry ∈ patterns, entry.2.slashAlone = true := by decide

theorem accepts_slash {entry : Kind × Pattern} (hmem : entry ∈ patterns)
    (h : entry.2.Accepts ('/' :: s)) : s = [] := by
  have halone := patterns_slashAlone entry hmem
  obtain ⟨kind, pattern⟩ := entry
  cases pattern with
  | exactly text =>
      have htext : '/' :: s = text := h
      simp only [Pattern.slashAlone, ← htext] at halone
      simpa using halone
  | digits => exact absurd (h.2 '/' List.mem_cons_self) (by decide)
  | decimal =>
      obtain ⟨whole, fraction, heq, hwhole, -⟩ := h
      cases whole with
      | nil => exact absurd (List.cons.inj heq).1 (by decide)
      | cons d whole =>
          have hd := hwhole d List.mem_cons_self
          rw [← (List.cons.inj heq).1] at hd
          exact absurd hd (by decide)
  | quoted mark =>
      obtain ⟨body, heq, -⟩ := h
      rw [← (List.cons.inj heq).1] at halone
      exact absurd halone (by simp [Pattern.slashAlone])
  | identifier =>
      obtain ⟨first, word, heq, hfirst, -⟩ := h
      rw [← (List.cons.inj heq).1] at hfirst
      exact absurd hfirst (by decide)

/-! ## Lexemes -/

namespace IsLexeme

theorem exists_pattern (h : IsLexeme kind lexeme) :
    lexeme ≠ [] ∧ ∃ pattern, (kind, pattern) ∈ patterns ∧ pattern.Accepts lexeme := by
  obtain ⟨rest, hmatch⟩ := h
  obtain ⟨pattern, hmem, hlen, hpos⟩ := longestMatch_mem hmatch
  exact ⟨List.ne_nil_of_length_pos hpos, pattern, hmem, accepts_of_matchLength hlen hpos⟩

/-- No pattern goes on past a lexeme into a blank. -/
theorem matchLength_le {entry : Kind × Pattern} (h : IsLexeme kind lexeme)
    (hmem : entry ∈ patterns) (hrest : Separated rest) :
    entry.2.matchLength (lexeme ++ rest) ≤ lexeme.length := by
  apply Nat.le_of_not_lt
  intro hlt
  obtain ⟨found, tail, hsplit, hfound, haccepts⟩ :=
    @exists_accepted entry.2 (lexeme ++ rest) _ rfl (by omega)
  by_cases hquoted : ∃ mark, entry.2 = .quoted mark
  · -- the lexeme starts with the mark too, so it is the quoted text that the pattern finds
    obtain ⟨mark, hmark⟩ := hquoted
    rw [hmark] at haccepts
    obtain ⟨body, rfl, -⟩ := haccepts
    obtain ⟨hne, pattern, hpattern, hlexeme⟩ := h.exists_pattern
    obtain ⟨c, s, rfl⟩ := List.exists_cons_of_ne_nil hne
    obtain ⟨rfl, -⟩ := List.cons.inj hsplit
    have heq := quoted_of_break hpattern hlexeme (quoted_not_blank hmem hmark).1
    rw [show pattern = .quoted c from heq] at hlexeme
    rw [hmark, quoted_matchLength hlexeme] at hlt
    omega
  · have hno := isBreak_of_accepts (patterns_plain entry hmem) haccepts
      (fun mark heq => hquoted ⟨mark, heq⟩)
    rcases List.append_eq_append_iff.mp hsplit with ⟨more, rfl, hmore⟩ | ⟨more, rfl, -⟩
    · cases more with
      | nil =>
          rw [List.append_nil] at hfound
          omega
      | cons c more =>
          have hblank : Gap.isBlank c = true := hrest c (more ++ tail) hmore
          have hbreak := hno c (by simp)
          simp [isBreak, hblank] at hbreak
    · rw [List.length_append] at hlt
      omega

/-- A lexeme is found again with a blank or nothing after it. -/
theorem longestMatch_separated (h : IsLexeme kind lexeme) (hrest : Separated rest) :
    longestMatch (lexeme ++ rest) = some (kind, lexeme.length) := by
  have ⟨other, hmatch⟩ := h
  obtain ⟨before, pattern, after, htable, hlen, hpos, hbefore, hafter⟩ := longestMatch_cases hmatch
  have hmem {entry : Kind × Pattern} (hentry : entry ∈ before ++ (kind, pattern) :: after) :
      entry.2.matchLength (lexeme ++ rest) ≤ lexeme.length :=
    h.matchLength_le (htable ▸ hentry) hrest
  apply longestMatch_eq htable _ hpos
  · intro entry hentry
    apply Nat.lt_of_le_of_ne (hmem (List.mem_append_left _ hentry))
    intro heq
    -- a pattern that matches just the lexeme here does so in front of the other text too
    have hother := le_matchLength (accepts_of_matchLength heq hpos) other
    have hlt := hbefore entry hentry
    omega
  · intro entry hentry
    exact hmem (List.mem_append_right _ (List.mem_cons_of_mem _ hentry))
  · exact Nat.le_antisymm (hmem (List.mem_append_right _ List.mem_cons_self))
      (le_matchLength (accepts_of_matchLength hlen hpos) rest)

theorem head_not_blank (h : IsLexeme kind (c :: s)) : Gap.isBlank c = false := by
  obtain ⟨-, pattern, hmem, haccepts⟩ := h.exists_pattern
  by_cases hbreak : isBreak c = true
  · exact (quoted_not_blank hmem (quoted_of_break hmem haccepts hbreak)).2
  · simp only [isBreak, Bool.or_eq_true, not_or, Bool.not_eq_true] at hbreak
    exact hbreak.1.1

/-- A lexeme that stands apart has no gap in front of it. -/
theorem after_separated (h : IsLexeme kind lexeme) (hrest : Separated rest) :
    Gap.after (lexeme ++ rest) = lexeme ++ rest := by
  obtain ⟨hne, pattern, hmem, haccepts⟩ := h.exists_pattern
  obtain ⟨c, s, rfl⟩ := List.exists_cons_of_ne_nil hne
  have hblank : Gap.isBlank c = false := h.head_not_blank
  -- after a slash the text goes on with a blank, which opens no comment
  have hopen (d : Char) (hd : Gap.isBlank d = false) (t : List Char) (hc : c = '/') :
      s ++ rest ≠ d :: t := by
    intro heq
    have hnil : s = [] := accepts_slash hmem (hc ▸ haccepts)
    rw [hnil, List.nil_append] at heq
    rw [hrest d t heq] at hd
    contradiction
  exact Gap.after_lexeme hblank (hopen '*' rfl) (hopen '/' rfl)

/-- A lexeme that stands apart is the first token, and the rest is scanned as it is alone. -/
theorem spellings_separated (h : IsLexeme kind lexeme) (hrest : Separated rest) :
    spellings (lexeme ++ rest) = (kind, String.ofList lexeme) :: spellings rest := by
  apply spellings_append h.exists_pattern.1 (h.after_separated hrest)
  rw [nextLexeme, h.longestMatch_separated hrest]
  rfl

end IsLexeme

theorem nextLexeme_isLexeme (s : List Char) :
    (nextLexeme s).1 = .unknown ∨ IsLexeme (nextLexeme s).1 (s.take (nextLexeme s).2) := by
  unfold nextLexeme
  cases h : longestMatch s with
  | none => exact .inl rfl
  | some found =>
      obtain ⟨kind, n⟩ := found
      obtain ⟨pattern, -, hlen, hpos⟩ := longestMatch_mem h
      obtain ⟨lexeme, rest, rfl, rfl, -⟩ := exists_accepted hlen hpos
      refine .inr ⟨rest, ?_⟩
      simpa using h

/-- Every token but the end and the unknown characters is a lexeme. -/
theorem scanFuel_isLexeme {fuel index : Nat} {cursor : TextCursor} :
    ∀ t ∈ scanFuel fuel index cursor,
      t.kind = .endOfFile ∨ t.kind = .unknown ∨ IsLexeme t.kind t.lexeme.toList := by
  induction fuel generalizing index cursor with
  | zero => simp [scanFuel]
  | succ fuel ih =>
      intro t ht
      cases h : Gap.after cursor.rest with
      | nil =>
          rw [scanFuel_end h, List.mem_singleton] at ht
          exact .inl (by rw [ht]; rfl)
      | cons c s =>
          rw [scanFuel_lexeme h] at ht
          rcases List.mem_cons.mp ht with rfl | ht
          · right
            rw [String.toList_ofList]
            exact nextLexeme_isLexeme (c :: s)
          · exact ih t ht

theorem scan_isLexeme (source : String) :
    ∀ t ∈ scan source, t.kind = .endOfFile ∨ t.kind = .unknown ∨ IsLexeme t.kind t.lexeme.toList :=
  scanFuel_isLexeme

/-! ## Names and literals -/

/-- The characters of names and of literals without quotes. -/
def isPlain (c : Char) : Bool := isWordChar c || c = '.'

/-- An entry that is not one of a literal with other characters. -/
def plainLiteral : Kind × Pattern → Bool
  | (.literal _, .exactly text) => text.all isPlain
  | _ => true

theorem patterns_plainLiteral : ∀ entry ∈ patterns, plainLiteral entry = true := by decide

/-- An entry that is not a quoted one, or one of strings or characters. -/
def quotedText : Kind × Pattern → Bool
  | (kind, .quoted _) => kind = .literal .string || kind = .literal .char
  | _ => true

theorem patterns_quotedText : ∀ entry ∈ patterns, quotedText entry = true := by decide

theorem patterns_identifier :
    ∀ entry ∈ patterns, entry.1 = .identifier → entry.2 = .identifier := by decide

theorem isWordChar_of_letter (h : isLetter c = true) : isWordChar c = true := by
  simp only [isLetter, Bool.or_eq_true] at h
  rcases h with h | h <;> simp [isWordChar, Char.isAlphanum, h]

theorem isPlain_of_wordChar (h : isWordChar c = true) : isPlain c = true := by simp [isPlain, h]

theorem isPlain_of_digit (h : c.isDigit = true) : isPlain c = true :=
  isPlain_of_wordChar (by simp [isWordChar, Char.isAlphanum, h])

namespace IsLexeme

/-- A text is a lexeme of one kind only. -/
theorem kind_unique {kind' : Kind} (h : IsLexeme kind lexeme) (h' : IsLexeme kind' lexeme) :
    kind = kind' := by
  have hnil : Separated [] := by
    intro c s hcons
    cases hcons
  have hmatch := h.longestMatch_separated hnil
  rw [h'.longestMatch_separated hnil] at hmatch
  cases hmatch
  rfl

theorem wordChars (h : IsLexeme .identifier lexeme) : ∀ c ∈ lexeme, isWordChar c = true := by
  obtain ⟨-, pattern, hmem, haccepts⟩ := h.exists_pattern
  have hpattern : pattern = .identifier := patterns_identifier _ hmem rfl
  rw [hpattern] at haccepts
  obtain ⟨first, word, rfl, hfirst, hword⟩ := haccepts
  exact List.forall_mem_cons.mpr ⟨isWordChar_of_letter hfirst, hword⟩

/-- A literal is a quoted string or character, or nothing in it could end it. -/
theorem literal_cases {sort : Literal} (h : IsLexeme (.literal sort) lexeme) :
    (∀ c ∈ lexeme, isPlain c = true) ∨ (sort = .string ∨ sort = .char) ∧
      ∃ mark, isPlain mark = false ∧ (Pattern.quoted mark).Accepts lexeme := by
  obtain ⟨-, pattern, hmem, haccepts⟩ := h.exists_pattern
  cases pattern with
  | exactly text =>
      have htext : lexeme = text := haccepts
      rw [htext]
      exact .inl (List.all_eq_true.mp (patterns_plainLiteral _ hmem))
  | digits => exact .inl fun c hc => isPlain_of_digit (haccepts.2 c hc)
  | decimal =>
      obtain ⟨whole, fraction, rfl, hwhole, -, hfraction⟩ := haccepts
      left
      intro c hc
      rcases List.mem_append.mp hc with hc | hc
      · exact isPlain_of_digit (hwhole c hc)
      · rcases List.mem_cons.mp hc with rfl | hc
        · rfl
        · exact isPlain_of_digit (hfraction c hc)
  | quoted mark =>
      have hmark := patterns_plain _ hmem
      simp only [Pattern.plain, Bool.or_eq_true, decide_eq_true_eq] at hmark
      have hsort : sort = .string ∨ sort = .char := by
        simpa [quotedText] using patterns_quotedText _ hmem
      refine .inr ⟨hsort, ?_⟩
      rcases hmark with rfl | rfl <;> exact ⟨_, rfl, haccepts⟩
  | identifier =>
      obtain ⟨first, word, rfl, hfirst, hword⟩ := haccepts
      left
      intro c hc
      rcases List.mem_cons.mp hc with rfl | hc
      · exact isPlain_of_wordChar (isWordChar_of_letter hfirst)
      · exact isPlain_of_wordChar (hword c hc)

/-- A literal is quoted, or nothing in it could end it. -/
theorem literal_shape {sort : Literal} (h : IsLexeme (.literal sort) lexeme) :
    (∀ c ∈ lexeme, isPlain c = true) ∨
      ∃ mark, isPlain mark = false ∧ (Pattern.quoted mark).Accepts lexeme :=
  h.literal_cases.imp_right And.right

end IsLexeme

end StateLang.Token
