import StateLang.Operator

/-!
# How often a line occurs in a text

A piece that ends its line, and has no other line end, starts in a text at most
once for each line. So its occurrences can be added up over texts of whole
lines, and in one line there is an occurrence exactly if the line ends in the
piece. A text that lacks one of the piece's characters has none.
-/

namespace StateLang

/-- At how many places of a text a piece starts. -/
def startsIn (piece : List Char) : List Char → Nat
  | [] => if piece = [] then 1 else 0
  | c :: rest => startsIn piece rest + if piece <+: c :: rest then 1 else 0

/-- How often a piece occurs in a text. -/
def occurrences (piece text : String) : Nat := startsIn piece.toList text.toList

/-- The text does not have this character. -/
def Lacks (c : Char) (text : String) : Prop := c ∉ text.toList

instance (c : Char) (text : String) : Decidable (Lacks c text) := inferInstanceAs (Decidable (¬ _))

/-- The last character is a line end, and no other is. -/
def IsLine (text : String) : Prop :=
  text.toList.getLast? = some '\n' ∧ '\n' ∉ text.toList.dropLast

instance (text : String) : Decidable (IsLine text) := inferInstanceAs (Decidable (_ ∧ _))

/-- Nothing follows the last line end. -/
def WholeLines (text : String) : Prop := text.toList.getLast?.all (· = '\n') = true

instance (text : String) : Decidable (WholeLines text) := inferInstanceAs (Decidable (_ = true))

/-- Of two texts neither ends with the other. -/
def EndApart (x y : String) : Prop := ¬ (x.toList <:+ y.toList ∨ y.toList <:+ x.toList)

instance (x y : String) : Decidable (EndApart x y) := inferInstanceAs (Decidable (¬ _))

/-! ## Characters that a text lacks -/

section Lacks

variable {c : Char} {x y : String}

@[simp] theorem lacks_append : Lacks c (x ++ y) ↔ Lacks c x ∧ Lacks c y := by
  simp [Lacks, String.toList_append, List.mem_append]

theorem lacks_join {α : Type} {text : α → String} {as : List α} (h : ∀ a ∈ as, Lacks c (text a)) :
    Lacks c (String.join (as.map text)) := by
  induction as with
  | nil => exact List.not_mem_nil
  | cons a as ih =>
      obtain ⟨ha, has⟩ := List.forall_mem_cons.mp h
      rw [List.map_cons, String.join_cons, lacks_append]
      exact ⟨ha, ih has⟩

/-- The symbols of the operators have eight characters between them. -/
theorem BinaryOp.symbol_lacks (hc : Lacks c "+-*/=!<>") (op : BinaryOp) : Lacks c op.symbol := by
  have hall : op.symbol.toList.all (· ∈ "+-*/=!<>".toList) = true := by
    rcases op with op | op <;> cases op <;> decide
  intro hmem
  exact hc (of_decide_eq_true (List.all_eq_true.mp hall c hmem))

end Lacks

/-! ## Lines -/

section Lines

variable {x y : String}

theorem isLine_iff : IsLine x ↔ ∃ content, '\n' ∉ content ∧ x.toList = content ++ ['\n'] := by
  constructor
  · rintro ⟨hlast, hcontent⟩
    obtain ⟨content, hx⟩ := List.getLast?_eq_some_iff.mp hlast
    rw [hx, List.dropLast_concat] at hcontent
    exact ⟨content, hcontent, hx⟩
  · rintro ⟨content, hcontent, hx⟩
    rw [IsLine, hx, List.dropLast_concat]
    exact ⟨List.getLast?_concat, hcontent⟩

theorem IsLine.after (hy : IsLine y) (hx : Lacks '\n' x) : IsLine (x ++ y) := by
  obtain ⟨content, hcontent, hy⟩ := isLine_iff.mp hy
  refine isLine_iff.mpr ⟨x.toList ++ content, ?_, ?_⟩
  · simpa using ⟨hx, hcontent⟩
  · rw [String.toList_append, hy, List.append_assoc]

theorem IsLine.wholeLines (h : IsLine x) : WholeLines x := by
  rw [WholeLines, h.1]
  rfl

theorem WholeLines.append (hx : WholeLines x) (hy : WholeLines y) : WholeLines (x ++ y) := by
  unfold WholeLines at hx hy ⊢
  rw [String.toList_append, List.getLast?_append]
  cases hlast : y.toList.getLast? with
  | none => exact hx
  | some c => rwa [hlast] at hy

theorem WholeLines.after (x : String) (hy : y.toList.getLast? = some '\n') :
    WholeLines (x ++ y) := by
  rw [WholeLines, String.toList_append, List.getLast?_append, hy]
  rfl

theorem wholeLines_join {α : Type} {text : α → String} {as : List α}
    (h : ∀ a ∈ as, WholeLines (text a)) : WholeLines (String.join (as.map text)) := by
  induction as with
  | nil => exact rfl
  | cons a as ih =>
      obtain ⟨ha, has⟩ := List.forall_mem_cons.mp h
      rw [List.map_cons, String.join_cons]
      exact ha.append (ih has)

theorem WholeLines.eq_nil_or (h : WholeLines x) :
    x.toList = [] ∨ ∃ content, x.toList = content ++ ['\n'] := by
  unfold WholeLines at h
  cases hlast : x.toList.getLast? with
  | none => exact .inl (List.getLast?_eq_none_iff.mp hlast)
  | some c =>
      rw [hlast] at h
      have hc : c = '\n' := by simpa using h
      rw [hc] at hlast
      exact .inr (List.getLast?_eq_some_iff.mp hlast)

end Lines

/-! ## Counting -/

section Count

variable {piece text : String} {content : List Char}

theorem occurrences_eq_zero {c : Char} (hpiece : ¬ Lacks c piece) (htext : Lacks c text) :
    occurrences piece text = 0 := by
  have hmem : c ∈ piece.toList := Decidable.not_not.mp hpiece
  have hstarts (rest : List Char) (hrest : c ∉ rest) : startsIn piece.toList rest = 0 := by
    induction rest with
    | nil => exact if_neg (List.ne_nil_of_mem hmem)
    | cons d rest ih =>
        have hnot : ¬ piece.toList <+: d :: rest := fun hstart => hrest (hstart.subset hmem)
        rw [startsIn, ih fun hc => hrest (List.mem_cons_of_mem _ hc), if_neg hnot]
  exact hstarts _ htext

/-- A piece that ends its line does not start in a line and go on after it. -/
theorem prefix_of_line_end (hcontent : '\n' ∉ content) (line rest : List Char) :
    content ++ ['\n'] <+: line ++ '\n' :: rest ↔ content ++ ['\n'] <+: line ++ ['\n'] := by
  have hends : line ++ ['\n'] <+: line ++ '\n' :: rest := by simp
  refine ⟨fun h => ?_, fun h => h.trans hends⟩
  rcases List.prefix_or_prefix_of_prefix h hends with hstart | hover
  · exact hstart
  · rcases List.prefix_concat_iff.mp hover with heq | hinside
    · exact heq ▸ List.prefix_refl _
    · exact absurd (hinside.subset (by simp)) hcontent

theorem prefix_line_iff (content : List Char) {line : List Char} (hline : '\n' ∉ line) :
    content ++ ['\n'] <+: line ++ ['\n'] ↔ content = line := by
  refine ⟨fun h => ?_, fun h => h ▸ List.prefix_refl _⟩
  rcases List.prefix_concat_iff.mp h with heq | hinside
  · exact List.append_cancel_right heq
  · exact absurd (hinside.subset (by simp)) hline

theorem startsIn_append (hcontent : '\n' ∉ content) (line rest : List Char) :
    startsIn (content ++ ['\n']) (line ++ '\n' :: rest) =
      startsIn (content ++ ['\n']) (line ++ ['\n']) + startsIn (content ++ ['\n']) rest := by
  induction line with
  | nil =>
      have hiff := prefix_of_line_end hcontent [] rest
      rw [List.nil_append, List.nil_append] at hiff
      simp [startsIn, hiff, Nat.add_comm]
  | cons c line ih =>
      have hiff := prefix_of_line_end hcontent (c :: line) rest
      rw [List.cons_append, List.cons_append] at hiff ⊢
      simp only [startsIn, ih, hiff]
      omega

theorem occurrences_append (hpiece : IsLine piece) (htext : WholeLines text) (rest : String) :
    occurrences piece (text ++ rest) = occurrences piece text + occurrences piece rest := by
  obtain ⟨content, hcontent, hpiece⟩ := isLine_iff.mp hpiece
  unfold occurrences
  rw [String.toList_append, hpiece]
  rcases htext.eq_nil_or with hnil | ⟨line, hline⟩
  · simp [hnil, startsIn]
  · rw [hline, List.append_assoc]
    exact startsIn_append hcontent line rest.toList

theorem startsIn_line {line : List Char} (hline : '\n' ∉ line) :
    startsIn (content ++ ['\n']) (line ++ ['\n']) = if content <:+ line then 1 else 0 := by
  induction line with
  | nil =>
      have hiff := prefix_line_iff content hline
      rw [List.nil_append] at hiff ⊢
      simp [startsIn, hiff]
  | cons c line ih =>
      have hiff := prefix_line_iff content hline
      rw [List.cons_append] at hiff ⊢
      rw [startsIn, ih fun hmem => hline (List.mem_cons_of_mem _ hmem)]
      simp only [hiff, List.suffix_cons_iff]
      by_cases heq : content = c :: line
      · have hlonger : ¬ content <:+ line := by
          intro hsuffix
          have hlength := hsuffix.length_le
          rw [heq, List.length_cons] at hlength
          omega
        rw [if_neg hlonger, if_pos heq, if_pos (.inl heq)]
      · simp [heq]

/-- A piece occurs in a line exactly if the line ends in it. -/
theorem occurrences_line {line : String} (hpiece : IsLine piece) (hline : IsLine line) :
    occurrences piece line = if piece.toList <:+ line.toList then 1 else 0 := by
  obtain ⟨content, -, hpiece⟩ := isLine_iff.mp hpiece
  obtain ⟨body, hbody, hline⟩ := isLine_iff.mp hline
  have hiff : content ++ ['\n'] <:+ body ++ ['\n'] ↔ content <:+ body := by
    constructor
    · rintro ⟨before, h⟩
      rw [← List.append_assoc] at h
      exact ⟨before, List.append_cancel_right h⟩
    · rintro ⟨before, rfl⟩
      exact ⟨before, by rw [List.append_assoc]⟩
  rw [occurrences, hpiece, hline, startsIn_line hbody]
  simp only [hiff]

/-- Whole lines in which the piece does not occur. -/
structure Skipped (piece text : String) : Prop where
  lines : WholeLines text
  none : occurrences piece text = 0

theorem Skipped.append (h : Skipped piece text) (hpiece : IsLine piece) (rest : String) :
    occurrences piece (text ++ rest) = occurrences piece rest := by
  rw [occurrences_append hpiece h.lines, h.none, Nat.zero_add]

/-- A line that ends otherwise is skipped. -/
theorem skipped_of_endApart {x y closing closing' : String} (hpiece : IsLine (x ++ closing))
    (hbefore : Lacks '\n' y) (hclosing : IsLine closing') (hends : EndApart closing closing') :
    Skipped (x ++ closing) (y ++ closing') := by
  have hline := hclosing.after hbefore
  refine ⟨hline.wholeLines, ?_⟩
  rw [occurrences_line hpiece hline, if_neg]
  rw [String.toList_append, String.toList_append]
  intro hsuffix
  have hpieceEnds := (List.suffix_append x.toList closing.toList).trans hsuffix
  exact hends (List.suffix_or_suffix_of_suffix hpieceEnds (List.suffix_append _ _))

/-- If each item's text has one occurrence or none, as its key is the one looked for or not, then
there are as many as items with that key. -/
theorem occurrences_join {α : Type} {text key : α → String} {as : List α} {x : String}
    (hpiece : IsLine piece) (hlines : ∀ a ∈ as, WholeLines (text a))
    (honce : ∀ a ∈ as, occurrences piece (text a) = if key a = x then 1 else 0) :
    occurrences piece (String.join (as.map text)) = (as.map key).count x := by
  induction as with
  | nil =>
      obtain ⟨content, -, hpiece⟩ := isLine_iff.mp hpiece
      simp [occurrences, hpiece, startsIn]
  | cons a as ih =>
      obtain ⟨hline, hlines⟩ := List.forall_mem_cons.mp hlines
      obtain ⟨hfirst, honce⟩ := List.forall_mem_cons.mp honce
      rw [List.map_cons, String.join_cons, occurrences_append hpiece hline, hfirst,
        ih hlines honce, List.map_cons, List.count_cons, Nat.add_comm]
      simp

end Count

end StateLang
