import StateLang.Proofs.Document.Text
import StateLang.Proofs.Token.Lexeme

/-!
# Legible texts

A way of writing is legible before certain texts if what is written there, and
where it ends, can be told from the whole. Names end at the first character that
no name has. Literals may contain anything between quotes, but then the quote
ends them. A list is legible if its items are and none of them can be taken for
what follows the list.
-/

namespace StateLang

open Token (IsLexeme isWordChar isPlain)

/-- Of two values that are well written before such texts, the texts tell which is written and
where it ends. -/
def Legible {α : Type} (text : α → String) (Proper : α → Prop) (Follow : String → Prop) : Prop :=
  ∀ ⦃a b : α⦄ ⦃r s : String⦄, Proper a → Proper b → Follow r → Follow s →
    text a ++ r = text b ++ s → a = b ∧ r = s

/-- Nothing is asked of what follows. -/
def Anything (_ : String) : Prop := True

/-- The first character, if there is one, is none of these. -/
def Stops (p : Char → Bool) (r : String) : Prop := ∀ c s, r.toList = c :: s → p c = false

def StartsWith (opening r : String) : Prop := ∃ s, r = opening ++ s

/-- Of two texts neither starts with the other. -/
def Differ (x y : String) : Prop := ¬ (x.toList <+: y.toList ∨ y.toList <+: x.toList)

instance (x y : String) : Decidable (Differ x y) := inferInstanceAs (Decidable (¬ _))

variable {α : Type} {text : α → String} {Proper : α → Prop} {Follow : String → Prop}
  {p : Char → Bool} {x y r s : String}

/-! ## Where texts part -/

theorem Differ.append_ne (h : Differ x y) (r s : String) : x ++ r ≠ y ++ s := by
  intro heq
  have hlist := congrArg String.toList heq
  simp only [String.toList_append] at hlist
  have hx : x.toList <+: y.toList ++ s.toList := ⟨r.toList, hlist⟩
  exact h (List.prefix_or_prefix_of_prefix hx (List.prefix_append _ _))

theorem Stops.append {x : String} (h : x.toList.head?.any (fun c => !p c) = true) (r : String) :
    Stops p (x ++ r) := by
  intro c s hcons
  rw [String.toList_append] at hcons
  cases hx : x.toList with
  | nil =>
      rw [hx] at h
      cases h
  | cons d rest =>
      rw [hx] at h hcons
      have hcd : d = c := (List.cons.inj hcons).1
      rw [← hcd]
      simpa using h

theorem StartsWith.append (opening r : String) : StartsWith opening (opening ++ r) := ⟨r, rfl⟩

theorem Stops.takeWhile (h : Stops p r) : r.toList.takeWhile p = [] := by
  cases hr : r.toList with
  | nil => rfl
  | cons c s => simp [h c s hr]

/-- What consists of certain characters ends at the first other one. -/
theorem span_unique (hx : ∀ c ∈ x.toList, p c = true) (hy : ∀ c ∈ y.toList, p c = true)
    (hr : Stops p r) (hs : Stops p s) (h : x ++ r = y ++ s) : x = y ∧ r = s := by
  have hspan (x r : String) (hx : ∀ c ∈ x.toList, p c = true) (hr : Stops p r) :
      (x ++ r).toList.takeWhile p = x.toList := by
    rw [String.toList_append, List.takeWhile_append_of_pos hx, hr.takeWhile, List.append_nil]
  have hlist : x.toList = y.toList := by rw [← hspan x r hx hr, ← hspan y s hy hs, h]
  have hxy : x = y := String.toList_inj.mp hlist
  rw [hxy, String.append_right_inj] at h
  exact ⟨hxy, h⟩

/-- Texts of certain characters, no two alike, are legible before any other character. -/
theorem legible_of_all (hall : ∀ a, (text a).toList.all p = true)
    (hinj : ∀ a b, text a = text b → a = b) : Legible text (fun _ => True) (Stops p) := by
  intro a b r s _ _ hr hs h
  have ha := List.all_eq_true.mp (hall a)
  have hb := List.all_eq_true.mp (hall b)
  obtain ⟨htext, hrest⟩ := span_unique ha hb hr hs h
  exact ⟨hinj a b htext, hrest⟩

/-- Before a text that may follow, a value and that text are both cut off. -/
theorem Legible.before {closing : String} {a b : α} (h : Legible text Proper Follow)
    (hclosing : ∀ r, Follow (closing ++ r)) (ha : Proper a) (hb : Proper b)
    (heq : text a ++ (closing ++ r) = text b ++ (closing ++ s)) : a = b ∧ r = s := by
  obtain ⟨hab, hrest⟩ := h ha hb (hclosing r) (hclosing s) heq
  exact ⟨hab, (String.append_right_inj _).mp hrest⟩

/-! ## Names and literals -/

theorem word_legible :
    Legible id (fun word => IsLexeme .identifier word.toList) (Stops isWordChar) := by
  intro x y r s hx hy hr hs h
  exact span_unique hx.wordChars hy.wordChars hr hs h

/-- A literal that is written like a plain text is that text. -/
theorem literal_eq_plain {sort : Literal} (hx : IsLexeme (.literal sort) x.toList)
    (hy : ∀ c ∈ y.toList, isPlain c = true) (hne : y.toList ≠ []) (hr : Stops isPlain r)
    (hs : Stops isPlain s) (h : x ++ r = y ++ s) : x = y ∧ r = s := by
  rcases hx.literal_shape with hplain | ⟨mark, hmark, body, hbody, -⟩
  · exact span_unique hplain hy hr hs h
  · -- a quoted literal starts with its mark, which is not plain
    obtain ⟨c, rest, hcons⟩ := List.exists_cons_of_ne_nil hne
    have hlist := congrArg String.toList h
    rw [String.toList_append, String.toList_append, hbody, hcons] at hlist
    have hc : isPlain c = true := hy c (by simp [hcons])
    rw [← (List.cons.inj hlist).1, hmark] at hc
    contradiction

theorem quoted_unique {mark mark' : Char} (hx : (Token.Pattern.quoted mark).Accepts x.toList)
    (hy : (Token.Pattern.quoted mark').Accepts y.toList) (h : x ++ r = y ++ s) :
    x = y ∧ r = s := by
  -- both are the match of one pattern at the start of one text
  have hlen : x.toList.length = y.toList.length := by
    have hlist := congrArg String.toList h
    rw [String.toList_append, String.toList_append] at hlist
    have hmark : mark = mark' := by
      obtain ⟨body, hbody, -⟩ := hx
      obtain ⟨body', hbody', -⟩ := hy
      rw [hbody, hbody'] at hlist
      exact (List.cons.inj hlist).1
    rw [← hmark] at hy
    rw [← Token.quoted_matchLength hx r.toList, hlist, Token.quoted_matchLength hy]
  have hlist := congrArg String.toList h
  rw [String.toList_append, String.toList_append] at hlist
  have hxy : x = y := String.toList_inj.mp (List.append_inj hlist hlen).1
  rw [hxy, String.append_right_inj] at h
  exact ⟨hxy, h⟩

theorem literal_legible :
    Legible id (fun x => ∃ sort, IsLexeme (.literal sort) x.toList) (Stops isPlain) := by
  intro x y r s hx hy hr hs h
  obtain ⟨sort, hx⟩ := hx
  obtain ⟨sort', hy⟩ := hy
  rcases hy.literal_shape with hplain | ⟨mark', -, hquoted'⟩
  · exact literal_eq_plain hx hplain hy.exists_pattern.1 hr hs h
  · rcases hx.literal_shape with hplain | ⟨mark, -, hquoted⟩
    · obtain ⟨hyx, hsr⟩ := literal_eq_plain hy hplain hx.exists_pattern.1 hs hr h.symm
      exact ⟨hyx.symm, hsr.symm⟩
    · exact quoted_unique hquoted hquoted' h

/-! ## Lists -/

/-- A list ends where the next text is no item. -/
theorem Legible.list (h : Legible text Proper Anything)
    (hend : ∀ {a : α} {r s : String}, Proper a → Follow s → text a ++ r ≠ s) :
    Legible (fun as : List α => String.join (as.map text)) (fun as => ∀ a ∈ as, Proper a)
      Follow := by
  intro as
  induction as with
  | nil =>
      intro bs r s _ hbs hr hs heq
      cases bs with
      | nil => exact ⟨rfl, by simpa using heq⟩
      | cons b bs =>
          simp only [List.map_nil, String.join_nil, String.empty_append, List.map_cons,
            String.join_cons, String.append_assoc] at heq
          exact absurd heq.symm (hend (hbs b List.mem_cons_self) hr)
  | cons a as ih =>
      intro bs r s has hbs hr hs heq
      have ha := has a List.mem_cons_self
      cases bs with
      | nil =>
          simp only [List.map_nil, String.join_nil, String.empty_append, List.map_cons,
            String.join_cons, String.append_assoc] at heq
          exact absurd heq (hend ha hs)
      | cons b bs =>
          simp only [List.map_cons, String.join_cons, String.append_assoc] at heq
          obtain ⟨hab, hrest⟩ := h ha (hbs b List.mem_cons_self) trivial trivial heq
          obtain ⟨htail, hrs⟩ := ih (fun a' hmem => has a' (List.mem_cons_of_mem _ hmem))
            (fun b' hmem => hbs b' (List.mem_cons_of_mem _ hmem)) hr hs hrest
          exact ⟨by rw [hab, htail], hrs⟩

/-- So does one that writes something else for no items, if that is told from an item. -/
theorem Legible.listText {none : String} (h : Legible text Proper Anything)
    (hend : ∀ {a : α} {r s : String}, Proper a → Follow s → text a ++ r ≠ s)
    (hnone : ∀ {a : α} {r s : String}, Proper a → text a ++ r ≠ none ++ s) :
    Legible (listText none text) (fun as => ∀ a ∈ as, Proper a) Follow := by
  have hcons {a : α} {as : List α} {r s : String} (ha : Proper a) :
      StateLang.listText none text (a :: as) ++ r ≠ none ++ s := by
    rw [StateLang.listText, List.map_cons, String.join_cons, String.append_assoc]
    exact hnone ha
  intro as bs r s has hbs hr hs heq
  cases as with
  | nil =>
      cases bs with
      | nil => exact ⟨rfl, (String.append_right_inj _).mp heq⟩
      | cons b bs => exact absurd heq.symm (hcons (hbs b List.mem_cons_self))
  | cons a as =>
      cases bs with
      | nil => exact absurd heq (hcons (has a List.mem_cons_self))
      | cons b bs => exact h.list hend has hbs hr hs heq

end StateLang
