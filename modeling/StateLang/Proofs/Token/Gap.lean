import StateLang.Proofs.Token.Scan

/-!
# What a gap is made of

A gap is a sequence of pieces: runs of blanks, block comments and line comments.
Crossing ends at the first place where no piece starts, so the text is cut there
in one way only. What follows a piece matters to one kind of piece alone: a line
comment without a line end has the end of the text after it.
-/

namespace StateLang.Token.Gap

/-- The text that closes a block comment. -/
def closing : List Char := ['*', '/']

/-- A run of blanks or a whole comment that stands in front of `rest`. -/
inductive Piece (rest : List Char) : List Char → Prop
  | blanks {run : List Char} (hne : run ≠ []) (hrun : ∀ c ∈ run, isBlank c = true) : Piece rest run
  | block {body : List Char} (hbody : ¬ closing <:+: body) :
      Piece rest ('/' :: '*' :: (body ++ closing))
  | line {body : List Char} {c : Char} (hbody : ∀ d ∈ body, isLineEnd d = false)
      (hend : isLineEnd c = true) : Piece rest ('/' :: '/' :: (body ++ [c]))
  | lastLine {body : List Char} (hbody : ∀ d ∈ body, isLineEnd d = false) (hrest : rest = []) :
      Piece rest ('/' :: '/' :: body)

/-- Pieces one after the other in front of `rest`. -/
inductive Pieces (rest : List Char) : List Char → Prop
  | nil : Pieces rest []
  | cons {piece gap : List Char} (first : Piece (gap ++ rest) piece) (more : Pieces rest gap) :
      Pieces rest (piece ++ gap)

/-- A piece starts here. -/
def Starts (s : List Char) : Prop := ∃ piece rest, s = piece ++ rest ∧ Piece rest piece

/-- A gap that goes on for as long as pieces follow. -/
structure Longest (gap rest : List Char) : Prop where
  pieces : Pieces rest gap
  ended : ¬ Starts rest

variable {s body rest piece gap : List Char} {p p' : Position} {opening : TextCursor}

/-! ## Block comments -/

theorem closing_infix_cons {c : Char} (h : closing <:+: c :: s) :
    (∃ tail, c :: s = '*' :: '/' :: tail) ∨ closing <:+: s := by
  rcases List.infix_cons_iff.mp h with hprefix | hinfix
  · obtain ⟨tail, htail⟩ := hprefix
    exact .inl ⟨tail, htail.symm⟩
  · exact .inr hinfix

/-- The first place at which a comment closes. -/
theorem exists_first_closing (h : closing <:+: s) :
    ∃ body tail, s = body ++ closing ++ tail ∧ ¬ closing <:+: body := by
  induction s with
  | nil => exact absurd h (by decide)
  | cons c s ih =>
      by_cases hfirst : ∃ tail, c :: s = '*' :: '/' :: tail
      · obtain ⟨tail, htail⟩ := hfirst
        exact ⟨[], tail, htail, by decide⟩
      · have hlater : closing <:+: s := (closing_infix_cons h).resolve_left hfirst
        obtain ⟨body, tail, hsplit, hbody⟩ := ih hlater
        refine ⟨c :: body, tail, by rw [hsplit]; rfl, ?_⟩
        intro hinfix
        rcases closing_infix_cons hinfix with ⟨rest, hrest⟩ | hinfix
        · apply hfirst
          refine ⟨rest ++ closing ++ tail, ?_⟩
          rw [hsplit, ← List.cons_append, ← List.cons_append, hrest]
          rfl
        · exact hbody hinfix

theorem crossFrom_block_cons {c : Char} (h : ∀ tail, c :: s ≠ '*' :: '/' :: tail) :
    crossFrom (.block opening) p (c :: s) = crossFrom (.block opening) (p.step c) s := by
  rw [crossFrom]
  intro tail hc hs
  exact h tail (by rw [hc, hs])

/-- A comment that nothing closes is no comment. -/
theorem crossFrom_block_open (h : ¬ closing <:+: s) : crossFrom (.block opening) p s = opening := by
  induction s generalizing p with
  | nil => rfl
  | cons c s ih =>
      have hfirst : ∀ tail, c :: s ≠ '*' :: '/' :: tail := by
        intro tail htail
        apply h
        rw [htail]
        exact ⟨[], tail, rfl⟩
      rw [crossFrom_block_cons hfirst]
      exact ih fun hinfix => h (List.infix_cons hinfix)

/-- The first closing after a text is not found before the end of the text. -/
theorem not_closing_before {c : Char} (h : ¬ closing <:+: c :: body) (tail : List Char) :
    c :: (body ++ closing ++ rest) ≠ '*' :: '/' :: tail := by
  intro htail
  cases body with
  | nil =>
      -- the closing itself starts with a star, so no slash comes second
      have hslash : '*' = '/' := (List.cons.inj (List.cons.inj htail).2).1
      exact absurd hslash (by decide)
  | cons d body =>
      apply h
      obtain ⟨hc, hrest⟩ := List.cons.inj htail
      rw [hc, (List.cons.inj hrest).1]
      exact ⟨[], body, rfl⟩

theorem crossFrom_block_closed (h : ¬ closing <:+: body) :
    (crossFrom (.block opening) p (body ++ closing ++ rest)).rest = after rest := by
  induction body generalizing p with
  | nil =>
      change (crossFrom (.block opening) p ('*' :: '/' :: rest)).rest = _
      rw [crossFrom]
      exact crossFrom_rest .blank
  | cons c body ih =>
      rw [List.cons_append, List.cons_append, crossFrom_block_cons (not_closing_before h)]
      exact ih fun hinfix => h (List.infix_cons hinfix)

/-! ## Line comments -/

theorem crossFrom_line_end {c : Char} (hbody : ∀ d ∈ body, isLineEnd d = false)
    (hend : isLineEnd c = true) : (crossFrom .line p (body ++ c :: rest)).rest = after rest := by
  induction body generalizing p with
  | nil =>
      rw [List.nil_append, crossFrom, if_pos hend]
      exact crossFrom_rest .blank
  | cons d body ih =>
      have hd : isLineEnd d = false := hbody d List.mem_cons_self
      rw [List.cons_append, crossFrom, if_neg (by rw [hd]; decide)]
      exact ih fun d' hmem => hbody d' (List.mem_cons_of_mem _ hmem)

theorem crossFrom_line_last (hbody : ∀ d ∈ body, isLineEnd d = false) :
    (crossFrom .line p body).rest = [] := by
  induction body generalizing p with
  | nil => rfl
  | cons d body ih =>
      have hd : isLineEnd d = false := hbody d List.mem_cons_self
      rw [crossFrom, if_neg (by rw [hd]; decide)]
      exact ih fun d' hmem => hbody d' (List.mem_cons_of_mem _ hmem)

theorem starts_line (s : List Char) : Starts ('/' :: '/' :: s) := by
  have hsplit : s.takeWhile (fun c => !isLineEnd c) ++ s.dropWhile (fun c => !isLineEnd c) = s :=
    List.takeWhile_append_dropWhile
  have hbody : ∀ d ∈ s.takeWhile (fun c => !isLineEnd c), isLineEnd d = false := by
    intro d hmem
    simpa using List.all_eq_true.mp List.all_takeWhile d hmem
  have hhead := List.head?_dropWhile_not (fun c => !isLineEnd c) s
  cases hdrop : s.dropWhile (fun c => !isLineEnd c) with
  | nil =>
      rw [hdrop, List.append_nil] at hsplit
      rw [hsplit] at hbody
      exact ⟨'/' :: '/' :: s, [], by simp, .lastLine hbody rfl⟩
  | cons c tail =>
      rw [hdrop] at hsplit hhead
      have hend : isLineEnd c = true := by simpa using hhead
      have htext : '/' :: '/' :: s =
          '/' :: '/' :: (s.takeWhile (fun c => !isLineEnd c) ++ [c]) ++ tail := by
        simp [hsplit]
      exact ⟨_, tail, htext, .line hbody hend⟩

/-! ## Crossing -/

theorem Piece.ne_nil (h : Piece rest piece) : piece ≠ [] := by
  cases h with
  | blanks hne => exact hne
  | block => simp
  | line => simp
  | lastLine => simp

theorem after_block (s : List Char) : after ('/' :: '*' :: s) =
    (crossFrom (.block ⟨.start, '/' :: '*' :: s⟩) ((Position.start.step '/').step '*') s).rest := by
  unfold after cross
  rw [crossFrom]

theorem after_line (s : List Char) :
    after ('/' :: '/' :: s) = (crossFrom .line ((Position.start.step '/').step '/') s).rest := by
  unfold after cross
  rw [crossFrom]

/-- A piece in front of a text changes nothing to where the gap ends. -/
theorem after_piece (h : Piece rest piece) : after (piece ++ rest) = after rest := by
  cases h with
  | blanks hne hrun =>
      clear hne
      induction piece with
      | nil => rfl
      | cons c run ih =>
          have hc : isBlank c = true := hrun c List.mem_cons_self
          rw [List.cons_append, after_blank hc]
          exact ih fun d hmem => hrun d (List.mem_cons_of_mem _ hmem)
  | block hbody =>
      rw [List.cons_append, List.cons_append, after_block]
      exact crossFrom_block_closed hbody
  | line hbody hend =>
      rw [List.cons_append, List.cons_append, after_line, List.append_assoc]
      exact crossFrom_line_end hbody hend
  | lastLine hbody hrest =>
      subst hrest
      rw [List.append_nil, after_line, after_nil]
      exact crossFrom_line_last hbody

theorem after_pieces (h : Pieces rest gap) : after (gap ++ rest) = after rest := by
  induction h with
  | nil => rfl
  | cons first more ih =>
      rw [List.append_assoc, after_piece first]
      exact ih

/-- Where no piece starts there is nothing to cross. -/
theorem after_of_not_starts (h : ¬ Starts s) : after s = s := by
  cases s with
  | nil => rfl
  | cons c s =>
      by_cases hblank : isBlank c = true
      · have hrun : Piece s [c] := .blanks (by simp) (by simpa using hblank)
        exact absurd ⟨[c], s, rfl, hrun⟩ h
      · by_cases hblock : ∃ t, c = '/' ∧ s = '*' :: t
        · obtain ⟨t, rfl, rfl⟩ := hblock
          have hopen : ¬ closing <:+: t := by
            intro hinfix
            obtain ⟨body, tail, hsplit, hbody⟩ := exists_first_closing hinfix
            have htext : '/' :: '*' :: t = '/' :: '*' :: (body ++ closing) ++ tail := by
              rw [hsplit]
              rfl
            exact h ⟨_, tail, htext, .block hbody⟩
          rw [after_block, crossFrom_block_open hopen]
        · by_cases hline : ∃ t, c = '/' ∧ s = '/' :: t
          · obtain ⟨t, rfl, rfl⟩ := hline
            exact absurd (starts_line t) h
          · apply after_lexeme (by simpa using hblank)
            · exact fun t hc hs => hblock ⟨t, hc, hs⟩
            · exact fun t hc hs => hline ⟨t, hc, hs⟩

/-- The text is cut where crossing ends, in one way only. -/
theorem Longest.after_eq (h : Longest gap rest) : after (gap ++ rest) = rest := by
  rw [after_pieces h.pieces, after_of_not_starts h.ended]

/-- Crossing passes a gap and stops where no piece starts. The induction is on the length of the
text: after a piece a shorter one is left. -/
theorem exists_longest (s : List Char) : ∃ gap, s = gap ++ after s ∧ Longest gap (after s) := by
  induction hlen : s.length using Nat.strongRecOn generalizing s with
  | ind n ih =>
      by_cases hstarts : Starts s
      · obtain ⟨piece, rest, rfl, hpiece⟩ := hstarts
        have hpos : 0 < piece.length := List.length_pos_iff.mpr hpiece.ne_nil
        have hlt : rest.length < n := by
          rw [← hlen, List.length_append]
          omega
        obtain ⟨gap, hgap, hlongest⟩ := ih rest.length hlt rest rfl
        rw [after_piece hpiece]
        rw [hgap] at hpiece
        refine ⟨piece ++ gap, ?_, .cons hpiece hlongest.pieces, hlongest.ended⟩
        rw [List.append_assoc, ← hgap]
      · rw [after_of_not_starts hstarts]
        exact ⟨[], rfl, .nil, hstarts⟩

end StateLang.Token.Gap
