import StateLang.Proofs.Token.Partition

/-!
# Texts that differ in their gaps only

A text is laid out anew by writing its lexemes in order with other gaps between
them. Every lexeme is followed by a blank, so it ends where it did; unknown
characters stay unknown as long as no comment brings a quote mark that would
close one of them. The tokens are then the same, apart from their places.
-/

namespace StateLang.Token

namespace Gap

def Blanks (gap : List Char) : Prop := ∀ c ∈ gap, isBlank c = true

/-- Blanks and whole comments one after the other; a line comment has its line end. -/
inductive Layout : List Char → Prop
  | nil : Layout []
  | blank {c : Char} {gap : List Char} (hc : isBlank c = true) (more : Layout gap) :
      Layout (c :: gap)
  | block {body gap : List Char} (hbody : ¬ closing <:+: body) (more : Layout gap) :
      Layout ('/' :: '*' :: (body ++ closing) ++ gap)
  | line {body gap : List Char} {c : Char} (hbody : ∀ d ∈ body, isLineEnd d = false)
      (hend : isLineEnd c = true) (more : Layout gap) :
      Layout ('/' :: '/' :: (body ++ [c]) ++ gap)

/-- A blank and then any layout. -/
def Separator (gap : List Char) : Prop :=
  ∃ c layout, gap = c :: layout ∧ isBlank c = true ∧ Layout layout

def BlankSeparator (gap : List Char) : Prop := gap ≠ [] ∧ Blanks gap

variable {gap rest : List Char}

theorem Blanks.layout (h : Blanks gap) : Layout gap := by
  induction gap with
  | nil => exact .nil
  | cons c gap ih =>
      exact .blank (h c List.mem_cons_self) (ih fun d hd => h d (List.mem_cons_of_mem _ hd))

theorem BlankSeparator.separator (h : BlankSeparator gap) : Separator gap := by
  obtain ⟨hne, hblanks⟩ := h
  obtain ⟨c, layout, rfl⟩ := List.exists_cons_of_ne_nil hne
  have hlayout : Layout layout := Blanks.layout fun d hd => hblanks d (List.mem_cons_of_mem _ hd)
  exact ⟨c, layout, rfl, hblanks c List.mem_cons_self, hlayout⟩

/-- A layout is a gap whatever stands after it. -/
theorem Layout.pieces (h : Layout gap) (rest : List Char) : Pieces rest gap := by
  induction h with
  | nil => exact .nil
  | @blank c gap hc more ih =>
      have hrun : Piece (gap ++ rest) [c] := .blanks (by simp) (by simpa using hc)
      exact .cons hrun ih
  | block hbody more ih => exact .cons (.block hbody) ih
  | line hbody hend more ih => exact .cons (.line hbody hend) ih

theorem isBlank_of_not_starts {c : Char} (h : ¬ Starts (c :: rest)) : isBlank c = false := by
  cases hblank : isBlank c with
  | false => rfl
  | true =>
      have hrun : Piece rest [c] := .blanks (by simp) (by simpa using hblank)
      exact absurd ⟨[c], rest, rfl, hrun⟩ h

end Gap

/-- Every lexeme with a separator after it. -/
inductive Spaced (Sep : List Char → Prop) : List String → List Char → Prop
  | nil : Spaced Sep [] []
  | cons {lexeme : String} {lexemes : List String} {gap rest : List Char} (hgap : Sep gap)
      (more : Spaced Sep lexemes rest) :
      Spaced Sep (lexeme :: lexemes) (lexeme.toList ++ (gap ++ rest))

/-- The lexemes of a source, without the end. -/
def lexemes (source : String) : List String := (scan source).dropLast.map lexeme

/-- A text that has the lexemes of a source in another layout: with blanks between them or, where
no character of the source is unknown, with comments too. -/
inductive Respaced (source text : String) : Prop
  | blanks {front body : List Char} (hfront : Gap.Blanks front)
      (hbody : Spaced Gap.BlankSeparator (lexemes source) body)
      (htext : text.toList = front ++ body)
  | comments {front body : List Char} (hknown : ∀ t ∈ scan source, t.kind ≠ .unknown)
      (hfront : Gap.Layout front) (hbody : Spaced Gap.Separator (lexemes source) body)
      (htext : text.toList = front ++ body)

variable {s rest gap text body tail : List Char} {c mark : Char} {index : Nat} {tokens : List Token}
  {Sep : List Char → Prop}

/-! ## Gaps in front of a text -/

theorem spellings_layout (h : Gap.Layout gap) (rest : List Char) :
    spellings (gap ++ rest) = spellings rest :=
  spellings_of_after_eq (Gap.after_pieces (h.pieces rest))

theorem Gap.Separator.separated (h : Gap.Separator gap) (rest : List Char) :
    Separated (gap ++ rest) := by
  obtain ⟨c, layout, rfl, hc, -⟩ := h
  intro d s heq
  obtain ⟨rfl, -⟩ := List.cons.inj heq
  exact hc

theorem spellings_separator (h : Gap.Separator gap) (rest : List Char) :
    spellings (gap ++ rest) = spellings rest := by
  obtain ⟨c, layout, rfl, hc, hlayout⟩ := h
  exact spellings_layout (.blank hc hlayout) rest

/-! ## Unknown characters -/

theorem patterns_known : ∀ entry ∈ patterns, entry.1 ≠ .unknown := by decide

/-- No pattern accepts anything at the start of the text. -/
def Unmatched (s : List Char) : Prop := ∀ entry ∈ patterns, ∀ u, u <+: s → ¬ entry.2.Accepts u

theorem FirstLongest.unmatched {lexeme : List Char} (h : FirstLongest s .unknown lexeme) :
    ∃ c, lexeme = [c] ∧ Unmatched s := by
  generalize hkind : Kind.unknown = kind at h
  cases h with
  | @accepted _ pattern _ _ _ htable =>
      have hmem : (kind, pattern) ∈ patterns := by simp [htable]
      exact absurd hkind.symm (patterns_known _ hmem)
  | unknown _ hnone => exact ⟨_, rfl, hnone⟩

theorem Unmatched.ne_slash (h : Unmatched (c :: s)) : c ≠ '/' := by
  rintro rfl
  have hslash : operatorEntry (.arith .div) ∈ patterns := by decide
  exact h _ hslash ['/'] ⟨s, rfl⟩ rfl

/-- An opening quote mark that nothing closes. -/
theorem Unmatched.not_mem (h : Unmatched (mark :: s)) {kind : Kind}
    (hmem : (kind, Pattern.quoted mark) ∈ patterns) : mark ∉ s := by
  intro hin
  obtain ⟨body, tail, rfl, hbody⟩ := List.eq_append_cons_of_mem hin
  exact h _ hmem (mark :: (body ++ [mark])) ⟨tail, by simp⟩ ⟨body, rfl, hbody⟩

/-- A character that starts no lexeme starts none in front of a blank either, unless what follows
brings a quote mark that was not there before. -/
theorem Unmatched.separated (h : Unmatched (c :: s)) (hrest : Separated rest)
    (hin : ∀ d ∈ rest, Gap.isBlank d = true ∨ d ∈ s) : Unmatched (c :: rest) := by
  intro entry hmem u hstart haccepts
  cases u with
  | nil => exact not_accepts_nil hmem haccepts
  | cons d u =>
      obtain ⟨rfl, htail⟩ := List.cons_prefix_cons.mp hstart
      by_cases hquoted : ∃ mark, entry.2 = .quoted mark
      · obtain ⟨mark, hmark⟩ := hquoted
        rw [hmark] at haccepts
        obtain ⟨body, heq, -⟩ := haccepts
        obtain ⟨rfl, rfl⟩ := List.cons.inj heq
        have hclosed : d ∈ rest := htail.subset (by simp)
        have hentry : (entry.1, Pattern.quoted d) ∈ patterns := hmark ▸ hmem
        rcases hin d hclosed with hblank | hsource
        · rw [(quoted_not_blank hmem hmark).2] at hblank
          contradiction
        · exact h.not_mem hentry hsource
      · have hno := isBreak_of_accepts (patterns_plain entry hmem) haccepts
          fun mark heq => hquoted ⟨mark, heq⟩
        cases u with
        | nil => exact h entry hmem [d] ⟨s, rfl⟩ haccepts
        | cons e u =>
            obtain ⟨more, hmore⟩ := htail
            have hblank : Gap.isBlank e = true := hrest e (u ++ more) hmore.symm
            have hbreak := hno e (by simp)
            simp [isBreak, hblank] at hbreak

theorem spellings_unknown (h : Unmatched (c :: s)) (hblank : Gap.isBlank c = false)
    (hrest : Separated rest) (hin : ∀ d ∈ rest, Gap.isBlank d = true ∨ d ∈ s) :
    spellings (c :: rest) = (.unknown, String.ofList [c]) :: spellings rest := by
  have hfound : FirstLongest (c :: rest) .unknown [c] :=
    .unknown ⟨rest, rfl⟩ (h.separated hrest hin)
  have hafter : Gap.after (c :: rest) = c :: rest := by
    apply Gap.after_lexeme hblank
    · exact fun _ hc _ => h.ne_slash hc
    · exact fun _ hc _ => h.ne_slash hc
  exact @spellings_append [c] rest .unknown (by simp) hafter hfound.nextLexeme_eq

/-! ## The lexemes of a text, laid out anew -/

theorem Spaced.mem {words : List String} (h : Spaced Sep words text) :
    ∀ d ∈ text, (∃ gap, Sep gap ∧ d ∈ gap) ∨ ∃ word ∈ words, d ∈ word.toList := by
  induction h with
  | nil => simp
  | @cons word words gap rest hgap more ih =>
      intro d hd
      rcases List.mem_append.mp hd with hd | hd
      · exact .inr ⟨word, List.mem_cons_self, hd⟩
      rcases List.mem_append.mp hd with hd | hd
      · exact .inl ⟨gap, hgap, hd⟩
      rcases ih d hd with hgap' | ⟨word', hword', hd⟩
      · exact .inl hgap'
      · exact .inr ⟨word', List.mem_cons_of_mem _ hword', hd⟩

namespace Partition

theorem ne_nil (h : Partition index s tokens) : tokens ≠ [] := by cases h <;> simp

/-- Every character of a lexeme is one of the text. -/
theorem lexeme_subset (h : Partition index s tokens) :
    ∀ t ∈ tokens, ∀ d ∈ t.lexeme.toList, d ∈ s := by
  induction h with
  | last _ _ hlexeme => simp [hlexeme]
  | cons _ _ _ _ hlexeme _ _ ih =>
      intro t ht d hd
      rcases List.mem_cons.mp ht with rfl | ht
      · rw [hlexeme, String.toList_ofList] at hd
        simp [hd]
      · simp [ih t ht d hd]

theorem spaced_subset (h : Partition index s tokens) (hblanks : ∀ gap, Sep gap → Gap.Blanks gap)
    (hspaced : Spaced Sep (tokens.dropLast.map lexeme) text) :
    ∀ d ∈ text, Gap.isBlank d = true ∨ d ∈ s := by
  intro d hd
  rcases hspaced.mem d hd with ⟨gap, hgap, hd⟩ | ⟨word, hword, hd⟩
  · exact .inl (hblanks gap hgap d hd)
  · obtain ⟨t, ht, rfl⟩ := List.mem_map.mp hword
    exact .inr (h.lexeme_subset t ((List.dropLast_sublist _).mem ht) d hd)

/-- The induction is on the cut of the old text; a lexeme of it and the separator that now follows
are scanned without looking at the rest. -/
theorem spellings_spaced (h : Partition index s tokens) (hsep : ∀ gap, Sep gap → Gap.Separator gap)
    (hunknown : (∀ gap, Sep gap → Gap.Blanks gap) ∨ ∀ t ∈ tokens, t.kind ≠ .unknown)
    (hspaced : Spaced Sep (tokens.dropLast.map lexeme) text) :
    spellings text = tokens.map spelling := by
  induction h generalizing text with
  | @last index gap token hgap hkind hlexeme =>
      cases hspaced
      rw [spellings_end Gap.after_nil, List.map_singleton, spelling, hkind, hlexeme]
  | @cons index gap lexeme rest token tokens hgap hne hfound hkind hlexeme hindex hrest ih =>
      rw [List.dropLast_cons_of_ne_nil hrest.ne_nil, List.map_cons] at hspaced
      cases hspaced with
      | @cons _ _ separator text hseparator more =>
          have hunknown' : (∀ gap, Sep gap → Gap.Blanks gap) ∨ ∀ t ∈ tokens, t.kind ≠ .unknown :=
            hunknown.imp_right fun h t ht => h t (List.mem_cons_of_mem _ ht)
          have hseparated := (hsep separator hseparator).separated text
          have htail : spellings (separator ++ text) = tokens.map spelling :=
            (spellings_separator (hsep separator hseparator) text).trans (ih hunknown' more)
          have hlexeme' := nextLexeme_isLexeme (lexeme ++ rest)
          rw [hfound.nextLexeme_eq, List.take_left] at hlexeme'
          rw [List.map_cons, ← htail, spelling, hlexeme, String.toList_ofList]
          rcases hlexeme' with hunk | hword
          · have hblanks := hunknown.resolve_right fun h => h token List.mem_cons_self hunk
            rw [show token.kind = .unknown from hunk] at hfound ⊢
            obtain ⟨c, rfl, hunmatched⟩ := hfound.unmatched
            have hc : Gap.isBlank c = false := Gap.isBlank_of_not_starts hgap.ended
            have hin : ∀ d ∈ separator ++ text, Gap.isBlank d = true ∨ d ∈ rest := by
              intro d hd
              rcases List.mem_append.mp hd with hd | hd
              · exact .inl (hblanks separator hseparator d hd)
              · exact hrest.spaced_subset hblanks more d hd
            exact spellings_unknown hunmatched hc hseparated hin
          · exact hword.spellings_separated hseparated

end Partition

theorem Respaced.spellings_eq {source text : String} (h : Respaced source text) :
    (scan text).map spelling = (scan source).map spelling := by
  have hcut : Partition 0 source.toList (scan source) := scanFuel_partition (Nat.lt_succ_self _)
  rw [scan_spellings]
  cases h with
  | blanks hfront hbody htext =>
      rw [htext, spellings_layout hfront.layout]
      exact hcut.spellings_spaced (fun _ hgap => hgap.separator) (.inl fun _ hgap => hgap.2) hbody
  | comments hknown hfront hbody htext =>
      rw [htext, spellings_layout hfront]
      exact hcut.spellings_spaced (fun _ hgap => hgap) (.inr hknown) hbody

end StateLang.Token
