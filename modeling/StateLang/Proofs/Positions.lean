import Mathlib.Data.List.DropRight
import StateLang.Proofs.Locality
import StateLang.Proofs.Token.Gap

/-!
# Positions tell where tokens stand

A position is kept up to date one character at a time, through lexemes and gaps
that may both go over several lines, and a comment that nothing closes is tried
and given up. Yet it says what could be counted on the text in front: the line
feeds, and the characters after the last of them. So positions grow from token to
token, and a fault, which has the position of a token, tells that token.

The main statement is `token_positions_exact`.
-/

namespace StateLang

namespace Position

/-- The position right after a text, counted on the text. -/
def ofText (u : List Char) : Position :=
  ⟨1 + u.count '\n', 1 + (u.rtakeWhile (· ≠ '\n')).length⟩

/-- On an earlier line, or on the same line further to the left. -/
def Before (p q : Position) : Prop := p.line < q.line ∨ p.line = q.line ∧ p.col < q.col

theorem Before.trans {p q r : Position} (h : p.Before q) (h' : q.Before r) : p.Before r := by
  unfold Before at *
  omega

theorem ofText_concat (u : List Char) (c : Char) : ofText (u ++ [c]) = (ofText u).step c := by
  by_cases hc : c = '\n'
  · subst hc
    simp [ofText, step, Nat.add_assoc]
  · simp [ofText, step, hc, Nat.add_assoc]

/-- Going through a text is counting on in it. -/
theorem ofText_after (u s : List Char) : (ofText u).after s = ofText (u ++ s) := by
  induction s generalizing u with
  | nil => simp
  | cons c s ih => rw [after_cons, ← ofText_concat, ih, List.append_assoc, List.singleton_append]

theorem before_step (p : Position) (c : Char) : p.Before (p.step c) := by
  unfold step
  split
  · exact .inl (Nat.lt_succ_self _)
  · exact .inr ⟨rfl, Nat.lt_succ_self _⟩

theorem before_after (p : Position) {s : List Char} (hne : s ≠ []) : p.Before (p.after s) := by
  induction s generalizing p with
  | nil => contradiction
  | cons c s ih =>
      rw [after_cons]
      by_cases hs : s = []
      · subst hs
        exact p.before_step c
      · exact (p.before_step c).trans (ih _ hs)

end Position

/-- `cursor` is further on in the text of `start`, and its position has been kept on the way. -/
def TextCursor.Reaches (start cursor : TextCursor) : Prop :=
  ∃ passed, start.rest = passed ++ cursor.rest ∧ cursor.pos = start.pos.after passed

theorem TextCursor.Reaches.refl (start : TextCursor) : start.Reaches start := ⟨[], rfl, rfl⟩

theorem TextCursor.Reaches.step {start : TextCursor} {p : Position} {c : Char} {s : List Char}
    (h : start.Reaches ⟨p, c :: s⟩) : start.Reaches ⟨p.step c, s⟩ := by
  obtain ⟨passed, hsplit, hpos⟩ := h
  refine ⟨passed ++ [c], by simp [hsplit], ?_⟩
  rw [Position.after_append, ← hpos]
  rfl

namespace Token

/-! ## Gaps -/

namespace Gap

/-- Crossing keeps the position of every place it comes to, also of those where it opens a comment
and to which it may have to come back. -/
theorem crossFrom_reaches {start : TextCursor} {part : Part} {p : Position} {s : List Char}
    (h : start.Reaches ⟨p, s⟩) (hpart : ∀ opening, part = .block opening → start.Reaches opening) :
    start.Reaches (crossFrom part p s) := by
  fun_induction crossFrom part p s with
  | case1 p => exact h
  | case2 p s ih =>
      apply ih h.step.step
      intro opening hopening
      cases hopening
      exact h
  | case3 p s ih => exact ih h.step.step (by simp)
  | case4 p c s _ _ _ ih => exact ih h.step (by simp)
  | case5 p c s => exact h
  | case6 p => exact h
  | case7 p c s ih =>
      apply ih h.step
      intro opening hopening
      split at hopening <;> cases hopening
  | case8 opening p => exact hpart opening rfl
  | case9 opening p s ih => exact ih h.step.step (by simp)
  | case10 opening p c s _ ih => exact ih h.step hpart

/-- Crossing ends after the longest gap, and its position has gone through the gap. -/
theorem cross_longest {gap rest : List Char} (h : Longest gap rest) (p : Position) :
    cross ⟨p, gap ++ rest⟩ = ⟨p.after gap, rest⟩ := by
  obtain ⟨passed, hpassed, hpos⟩ : TextCursor.Reaches ⟨p, gap ++ rest⟩ (cross ⟨p, gap ++ rest⟩) :=
    crossFrom_reaches (.refl _) (by simp)
  have hrest : (cross ⟨p, gap ++ rest⟩).rest = rest := by rw [cross_rest, h.after_eq]
  rw [hrest] at hpassed
  obtain rfl : passed = gap := List.append_cancel_right hpassed.symm
  rw [← hpos]
  exact congrArg (TextCursor.mk _) hrest

/-- The gap that is crossed is the longest one, and its text is counted into the position. -/
theorem cross_counted (u s : List Char) : ∃ gap, s = gap ++ after s ∧ Longest gap (after s) ∧
    (cross ⟨.ofText u, s⟩).pos = .ofText (u ++ gap) := by
  obtain ⟨gap, hgap, hlongest⟩ := exists_longest s
  have hcross := cross_longest hlongest (.ofText u)
  rw [← hgap, Position.ofText_after] at hcross
  exact ⟨gap, hgap, hlongest, congrArg TextCursor.pos hcross⟩

end Gap

/-! ## Cuts of a text -/

/-- Gaps and lexemes one after the other. -/
def laid : List (List Char × Token) → List Char
  | [] => []
  | (gap, t) :: rest => gap ++ (t.lexeme.toList ++ laid rest)

/-- Each gap is as long as it can be. -/
def Gapped : List (List Char × Token) → Prop
  | [] => True
  | (gap, t) :: rest => Gap.Longest gap (t.lexeme.toList ++ laid rest) ∧ Gapped rest

/-- The tokens of a source, each with the gap before it. -/
structure IsCut (source : String) (cut : List (List Char × Token)) : Prop where
  tokens : cut.map Prod.snd = scan source
  text : laid cut = source.toList
  gapped : Gapped cut

/-- The position of each token is counted on the text before it, where `u` comes first. -/
inductive Placed : List Char → List (List Char × Token) → Prop
  | last {u gap : List Char} {t : Token} (hkind : t.kind = .endOfFile) (hlexeme : t.lexeme = "")
      (hpos : t.pos = .ofText (u ++ gap)) : Placed u [(gap, t)]
  | cons {u gap : List Char} {t : Token} {rest : List (List Char × Token)}
      (hne : t.lexeme.toList ≠ []) (hpos : t.pos = .ofText (u ++ gap))
      (hrest : Placed (u ++ (gap ++ t.lexeme.toList)) rest) : Placed u ((gap, t) :: rest)

variable {u s gap : List Char} {t : Token} {cut before after : List (List Char × Token)}

/-- A text and its tokens tell the gaps. -/
theorem Gapped.unique {cut' : List (List Char × Token)} (h : Gapped cut) (h' : Gapped cut')
    (htokens : cut.map Prod.snd = cut'.map Prod.snd) (htext : laid cut = laid cut') :
    cut = cut' := by
  induction cut generalizing cut' with
  | nil => exact (List.map_eq_nil_iff.mp htokens.symm).symm
  | cons first rest ih =>
      obtain ⟨gap, t⟩ := first
      obtain ⟨⟨gap', t'⟩, rest', rfl, ht, hrest⟩ := List.map_eq_cons_iff.mp htokens.symm
      obtain rfl : t = t' := ht.symm
      have hafter : t.lexeme.toList ++ laid rest = t.lexeme.toList ++ laid rest' := by
        rw [← h.1.after_eq, ← h'.1.after_eq]
        exact congrArg Gap.after htext
      have hgap : gap = gap' := by
        simp only [laid] at htext
        rw [hafter] at htext
        exact List.append_cancel_right htext
      rw [hgap, ih h.2 h'.2 hrest.symm (List.append_cancel_left hafter)]

theorem Placed.pos_eq (h : Placed u cut) (hcut : cut = before ++ (gap, t) :: after) :
    t.pos = .ofText (u ++ (laid before ++ gap)) := by
  induction before generalizing u cut with
  | nil =>
      subst hcut
      cases h with
      | last _ _ hpos => exact hpos
      | cons _ hpos => exact hpos
  | cons first before ih =>
      cases h with
      | last => simp at hcut
      | cons hne hpos hrest =>
          obtain ⟨rfl, htail⟩ := List.cons.inj hcut
          rw [ih hrest htail]
          simp [laid]

/-- The end stands after the whole text. -/
theorem Placed.end_pos (h : Placed u cut) : ∃ before gap t, cut = before ++ [(gap, t)] ∧
    t.kind = .endOfFile ∧ t.pos = .ofText (u ++ laid cut) := by
  induction h with
  | @last u gap t hkind hlexeme hpos =>
      refine ⟨[], gap, t, rfl, hkind, ?_⟩
      simp [hpos, laid, hlexeme]
  | @cons u gap t rest hne hpos hrest ih =>
      obtain ⟨before, gap', t', hrest', hkind, hpos'⟩ := ih
      refine ⟨(gap, t) :: before, gap', t', by rw [hrest']; rfl, hkind, ?_⟩
      simp [hpos', laid]

/-- Between two tokens stands the lexeme of the first, which is not empty. -/
theorem Placed.increasing (h : Placed u cut) :
    (cut.map Prod.snd).Pairwise fun t t' => t.pos.Before t'.pos := by
  induction h with
  | last => exact List.pairwise_singleton _ _
  | @cons u gap t rest hne hpos hrest ih =>
      refine List.pairwise_cons.mpr ⟨fun t' ht' => ?_, ih⟩
      obtain ⟨⟨gap', t''⟩, hmem, rfl⟩ := List.mem_map.mp ht'
      obtain ⟨before, after, hsplit⟩ := List.append_of_mem hmem
      rw [hrest.pos_eq hsplit, hpos]
      have hbefore := (Position.ofText (u ++ gap)).before_after
        (s := t.lexeme.toList ++ (laid before ++ gap')) (by simp [hne])
      rw [Position.ofText_after] at hbefore
      simpa using hbefore

/-! ## Scanning -/

/-- A scan that has come to the end of `u` keeps on counting. -/
theorem scanFuel_placed {fuel index : Nat} (hfuel : s.length < fuel) :
    ∃ cut, cut.map Prod.snd = scanFuel fuel index ⟨.ofText u, s⟩ ∧ laid cut = s ∧ Gapped cut ∧
      Placed u cut := by
  induction fuel generalizing index u s with
  | zero => omega
  | succ fuel ih =>
      obtain ⟨gap, hgap, hlongest, hpos⟩ := Gap.cross_counted u s
      cases hafter : Gap.after (TextCursor.mk (.ofText u) s).rest with
      | nil =>
          rw [hafter] at hgap hlongest
          rw [scanFuel_end hafter]
          refine ⟨[(gap, _)], rfl, ?_, ⟨hlongest, trivial⟩, .last rfl rfl hpos⟩
          simpa [laid, endAt] using hgap.symm
      | cons c text =>
          have hlt := drop_length_lt hafter
          have hne := nextLexeme_pos (c :: text)
          rw [hafter] at hgap hlongest
          rw [scanFuel_lexeme hafter, hpos, Position.ofText_after]
          generalize nextLexeme (c :: text) = next at *
          have hsplit := List.take_append_drop next.2 (c :: text)
          obtain ⟨cut, htokens, htext, hgapped, hplaced⟩ :=
            @ih (u ++ gap ++ (c :: text).take next.2) ((c :: text).drop next.2) (index + 1) (by
              simp only at hlt
              omega)
          refine ⟨(gap, _) :: cut, by rw [List.map_cons, htokens], ?_, ⟨?_, hgapped⟩,
            .cons ?_ rfl ?_⟩
          · simp [laid, htext, ← hgap]
          · simp [htext, hlongest]
          · rw [String.toList_ofList, ne_eq, List.take_eq_nil_iff]
            simp only [reduceCtorEq, or_false]
            omega
          · simpa using hplaced

theorem exists_cut (source : String) : ∃ cut, IsCut source cut ∧ Placed [] cut := by
  obtain ⟨cut, htokens, htext, hgapped, hplaced⟩ :=
    @scanFuel_placed [] source.toList _ 0 (Nat.lt_succ_self _)
  exact ⟨cut, ⟨htokens, htext, hgapped⟩, hplaced⟩

theorem IsCut.unique {source : String} {cut' : List (List Char × Token)} (h : IsCut source cut)
    (h' : IsCut source cut') : cut = cut' :=
  h.gapped.unique h'.gapped (h.tokens.trans h'.tokens.symm) (h.text.trans h'.text.symm)

end Token

/-! ## Faults -/

/-- A rule that does not read a token list fails at one of its tokens. -/
theorem Parser.IsRule.exists_fault_at {α : Type} {rule : ParseM α} (hrule : IsRule rule)
    {tokens : List Token} {fault : Fault} (h : read rule tokens = .error fault) :
    ∃ t ∈ terminated tokens, fault.At t := by
  have hready := ofTokens_ready tokens
  obtain ⟨ts, outcome, q, hq, hc⟩ := (hrule.isLocal _ hready).exists_crosses hready
  have hmem : q.current ∈ terminated tokens := by
    rw [← ofTokens_ahead, hc.ahead]
    exact List.mem_append_right _ List.mem_cons_self
  refine ⟨q.current, hmem, ?_⟩
  unfold read at h
  cases outcome with
  | ok a =>
      rw [hq] at h
      cases h
  | error fault' =>
      rw [hq] at h
      cases h
      exact hrule.failsInPlace _ _ q hq

open Token in
/-- There is one way to cut a source into its tokens and the longest gaps before them, and the
position of each token is counted on the text before it: the line feeds in it, and the characters
after the last of them. The end stands after the whole source, positions grow from token to token,
and whatever is wrong with a program is said to be at one of its tokens. -/
theorem token_positions_exact (source : String) :
    (∃! cut, IsCut source cut) ∧
    (∀ cut, IsCut source cut → ∀ before gap t after, cut = before ++ (gap, t) :: after →
      t.pos = .ofText (laid before ++ gap)) ∧
    (∃ body last, scan source = body ++ [last] ∧ last.kind = .endOfFile ∧
      last.pos = .ofText source.toList) ∧
    (scan source).Pairwise (fun t t' => t.pos.Before t'.pos) ∧
    ∀ fault, Program.parse source = .error fault →
      ∃ t ∈ scan source, fault.pos? = some t.pos := by
  obtain ⟨cut, hcut, hplaced⟩ := exists_cut source
  obtain ⟨before, gap, last, hsplit, hend, hpos⟩ := hplaced.end_pos
  have hscan : scan source = before.map Prod.snd ++ [last] := by
    rw [← hcut.tokens, hsplit]
    simp
  rw [List.nil_append, hcut.text] at hpos
  refine ⟨⟨cut, hcut, fun other hother => hother.unique hcut⟩, ?_, ⟨_, last, hscan, hend, hpos⟩,
    hcut.tokens ▸ hplaced.increasing, ?_⟩
  · intro other hother before' gap' t after' hother'
    rw [hother.unique hcut] at hother'
    exact hplaced.pos_eq hother'
  · intro fault hfault
    obtain ⟨t, ht, hat⟩ := Parser.IsRule.program.exists_fault_at hfault
    rw [hscan, Parser.terminated_of_end hend, ← hscan] at ht
    exact ⟨t, ht, hat.pos?_eq⟩

open Token in
/-- A literal and a comment that go over a line each, a character of two bytes, and a carriage
return, which is one column like any other character. -/
theorem token_positions_exact_lines :
    let source := "\"é\n\" /*\n*/\r$"
    let quoted : Token := ⟨.literal .string, "\"é\n\"", 0, ⟨1, 1⟩⟩
    let stray : Token := ⟨.unknown, "$", 1, ⟨3, 4⟩⟩
    scan source = [quoted, stray, endAt 2 ⟨3, 5⟩] ∧
    (∃ cut before gap after, IsCut source cut ∧ cut = before ++ (gap, stray) :: after ∧
      stray.pos = .ofText (laid before ++ gap)) ∧
    quoted.pos.Before stray.pos ∧
    ∃ fault, Program.parse source = .error fault ∧ ∃ t ∈ scan source, fault.pos? = some t.pos := by
  intro source quoted stray
  have hscan : scan source = [quoted, stray, endAt 2 ⟨3, 5⟩] := by decide +kernel
  obtain ⟨⟨cut, hcut, -⟩, hplaces, -, hgrow, hfaults⟩ := token_positions_exact source
  have hsplit : ∃ before gap after, cut = before ++ (gap, stray) :: after := by
    have hmem : stray ∈ cut.map Prod.snd := by simp [hcut.tokens, hscan]
    obtain ⟨⟨gap, t⟩, hmem, rfl⟩ := List.mem_map.mp hmem
    obtain ⟨before, after, hsplit⟩ := List.append_of_mem hmem
    exact ⟨before, gap, after, hsplit⟩
  obtain ⟨before, gap, after, hsplit⟩ := hsplit
  have hfault : Program.parse source = .error (.grammar "'name'" "string const" ⟨1, 1⟩) := by
    rw [Program.parse, hscan]
    rfl
  refine ⟨hscan, ⟨cut, before, gap, after, hcut, hsplit, ?_⟩, ?_, _, hfault, hfaults _ hfault⟩
  · exact hplaces cut hcut before gap stray after hsplit
  · rw [hscan] at hgrow
    exact (List.pairwise_cons.mp hgrow).1 stray List.mem_cons_self

end StateLang
