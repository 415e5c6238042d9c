import Mathlib.Data.List.Nodup
import StateLang.Proofs.Document.Occurrences
import StateLang.Proofs.Program.Proper

/-!
# The methods of a machine

A state is declared by one line of the header, and its method is opened by one
line of the implementation. No other line of the documents can be taken for
these, unless a literal brings one in. So both occur as often as there are
states of that name, and exactly once only if the names of the states differ.

The main statement is `methods_as_states`.
-/

namespace StateLang

open Token (IsLexeme isWordChar isPlain)

/-- The line that declares the method of a state. -/
def methodLine (state : String) : String := "\t\tvoid " ++ state ++ "();\n"

/-- The line that opens the method of a state. -/
def methodHeading (machine state : String) : String :=
  "void " ++ machine ++ "::" ++ state ++ "() \x7b\n"

/-! ## Lines with a name in them -/

section Named

variable {name other opening closing : String} {c : Char}

theorem Token.IsLexeme.lacks (h : IsLexeme .identifier name.toList) (hc : isWordChar c = false) :
    Lacks c name := by
  intro hmem
  rw [h.wordChars c hmem] at hc
  cases hc

/-- A word between what no word contains is told from the end. -/
theorem word_suffix_iff {opening closing : List Char} (hc : isWordChar c = false)
    (h : IsLexeme .identifier name.toList) (h' : IsLexeme .identifier other.toList) :
    opening ++ c :: (name.toList ++ closing) <:+ opening ++ c :: (other.toList ++ closing) ↔
      other = name := by
  constructor
  · rintro ⟨before, heq⟩
    have hspan (word : String) (rest : List Char) (hword : IsLexeme .identifier word.toList) :
        (word.toList.reverse ++ c :: rest).takeWhile isWordChar = word.toList.reverse := by
      rw [List.takeWhile_append_of_pos fun d hd => hword.wordChars d (List.mem_reverse.mp hd),
        List.takeWhile_cons_of_neg (by simp [hc]), List.append_nil]
    -- without what follows it, the word is the longest one at the end
    have hcut : before ++ opening ++ c :: name.toList = opening ++ c :: other.toList := by
      refine List.append_cancel_right (?_ : _ ++ closing = _ ++ closing)
      simpa using heq
    have hreverse := congrArg (fun s => s.reverse.takeWhile isWordChar) hcut
    simp only [List.reverse_append, List.reverse_cons, List.append_assoc, List.cons_append,
      hspan _ _ h, hspan _ _ h'] at hreverse
    exact String.toList_inj.mp (List.reverse_inj.mp hreverse).symm
  · rintro rfl
    exact List.suffix_refl _

theorem named_isLine (hopening : Lacks '\n' opening) (hclosing : IsLine closing)
    (h : IsLexeme .identifier name.toList) : IsLine (opening ++ name ++ closing) :=
  hclosing.after (lacks_append.mpr ⟨hopening, h.lacks rfl⟩)

theorem occurrences_named (hlast : opening.toList.getLast? = some c) (hc : isWordChar c = false)
    (hopening : Lacks '\n' opening) (hclosing : IsLine closing)
    (h : IsLexeme .identifier name.toList) (h' : IsLexeme .identifier other.toList) :
    occurrences (opening ++ name ++ closing) (opening ++ other ++ closing) =
      if other = name then 1 else 0 := by
  obtain ⟨before, hbefore⟩ := List.getLast?_eq_some_iff.mp hlast
  have hlist (word : String) : (opening ++ word ++ closing).toList =
      before ++ c :: (word.toList ++ closing.toList) := by
    simp [String.toList_append, hbefore]
  rw [occurrences_line (named_isLine hopening hclosing h) (named_isLine hopening hclosing h'),
    hlist, hlist]
  simp only [word_suffix_iff hc h h']

end Named

/-! ## The header -/

theorem isWordChar_toUpper {c : Char} (h : c.isAlphanum = true) :
    isWordChar c.toUpper = true := by
  unfold Char.toUpper
  split
  · next hlower =>
      have hbounds (v : UInt32) (hv : 97 ≤ v ∧ v ≤ 122) :
          65 ≤ v + (65 - 97) ∧ v + (65 - 97) ≤ 90 := by grind
      have hupper := decide_eq_true (hbounds c.val hlower)
      apply Token.isWordChar_of_letter
      rw [Token.isLetter, Bool.or_eq_true]
      exact .inl (Bool.or_eq_true_iff.mpr (.inl hupper))
  · simp [isWordChar, h]

theorem isWordChar_guardChar (c : Char) : isWordChar (Naming.guardChar c) = true := by
  unfold Naming.guardChar
  split
  · next halphanum => exact isWordChar_toUpper halphanum
  · rfl

theorem Naming.guard_lacks (naming : Naming) {c : Char} (hc : isWordChar c = false) :
    Lacks c naming.guard := by
  have hmap : c ∉ naming.headerFile.toList.map Naming.guardChar := by
    intro hmem
    obtain ⟨d, -, rfl⟩ := List.mem_map.mp hmem
    rw [isWordChar_guardChar] at hc
    cases hc
  have hunderscore : c ≠ '_' := by
    rintro rfl
    cases hc
  unfold Naming.guard
  split
  · simpa [Lacks] using hunderscore
  · next first rest hcons =>
      rw [hcons] at hmap
      split
      · simpa [Lacks, hunderscore] using hmap
      · simpa [Lacks] using hmap

namespace Resolved

/-- The header before its constructor. -/
def headerOpening (r : Resolved) (naming : Naming) : String :=
  "#ifndef " ++ naming.guard ++ "\n#define " ++ naming.guard ++ "\n" ++
  "class " ++ r.name.name ++ " \x7b \n" ++
  "\tpublic: \n"

/-- The header after its methods. -/
def headerClosing (r : Resolved) : String :=
  "\tprivate:\n" ++ "\t\t" ++ r.platform.name ++ " *platform;\n" ++ "\x7d;\n\n"

theorem header_eq (r : Resolved) (naming : Naming) : r.header naming =
    r.headerOpening naming ++
    (("\t\t" ++ r.name.name ++ "(" ++ r.platform.name ++ " *platform);\n") ++
    (("\t\t~" ++ r.name.name ++ "();\n") ++
    (String.join (r.declarations.map (·.field)) ++
    ((if r.states.isEmpty then noStates else "") ++
    (String.join (r.states.map (·.methodDeclaration)) ++
    (r.headerClosing ++
    ("int main(int argc, char **argv);\n\n" ++ "#endif\n"))))))) := by
  unfold header headerOpening headerClosing
  simp only [String.append_assoc]

variable {r : Resolved} {state : String}

/-- Whole lines without one of the characters that every such line has. -/
theorem methodLine_skipped {c : Char} {text : String}
    (hc : ¬ (Lacks c "\t\tvoid " ∧ Lacks c "();\n")) (htext : Lacks c text)
    (hlines : WholeLines text) : Skipped (methodLine state) text := by
  refine ⟨hlines, occurrences_eq_zero (fun hpiece => hc ?_) htext⟩
  obtain ⟨hbefore, hclosing⟩ := lacks_append.mp hpiece
  exact ⟨(lacks_append.mp hbefore).1, hclosing⟩

section Header

variable (hr : r.Proper)
include hr

theorem headerOpening_skipped (naming : Naming) :
    Skipped (methodLine state) (r.headerOpening naming) := by
  have hguard : Lacks '(' naming.guard := naming.guard_lacks rfl
  have hname : Lacks '(' r.name.name := hr.name.word.lacks rfl
  have hlacks : Lacks '(' (r.headerOpening naming) := by
    unfold headerOpening
    simp only [lacks_append, hguard, hname, and_true]
    decide
  exact methodLine_skipped (by decide) hlacks (WholeLines.after _ rfl)

/-- The constructor has a parameter, so its line ends otherwise. -/
theorem constructor_skipped (h : IsLexeme .identifier state.toList) : Skipped (methodLine state)
    ("\t\t" ++ r.name.name ++ "(" ++ r.platform.name ++ " *platform);\n") := by
  have hname : Lacks '\n' r.name.name := hr.name.word.lacks rfl
  have hplatform : Lacks '\n' r.platform.name := hr.platform.word.lacks rfl
  have hbefore : Lacks '\n' ("\t\t" ++ r.name.name ++ "(" ++ r.platform.name) := by
    simp only [lacks_append, hname, hplatform, and_true]
    decide
  have hpiece : IsLine (methodLine state) := named_isLine (by decide) (by decide) h
  exact skipped_of_endApart hpiece hbefore (by decide) (by decide)

theorem destructor_skipped : Skipped (methodLine state) ("\t\t~" ++ r.name.name ++ "();\n") := by
  have hname : Lacks ' ' r.name.name := hr.name.word.lacks rfl
  have hlacks : Lacks ' ' ("\t\t~" ++ r.name.name ++ "();\n") := by
    simp only [lacks_append, hname, and_true]
    decide
  exact methodLine_skipped (by decide) hlacks (WholeLines.after _ rfl)

theorem fields_skipped :
    Skipped (methodLine state) (String.join (r.declarations.map (·.field))) := by
  have hlacks : Lacks '(' (String.join (r.declarations.map (·.field))) := by
    refine lacks_join fun d hd => ?_
    have hname : Lacks '(' d.name.name := (hr.declarations d hd).word.lacks rfl
    have htype : Lacks '(' d.type.fieldType := by cases d.type <;> decide
    simp only [Declaration.field, lacks_append, hname, htype, and_true]
    decide
  exact methodLine_skipped (by decide) hlacks (wholeLines_join fun d _ => WholeLines.after _ rfl)

theorem headerClosing_skipped : Skipped (methodLine state) r.headerClosing := by
  have hplatform : Lacks '(' r.platform.name := hr.platform.word.lacks rfl
  have hlacks : Lacks '(' r.headerClosing := by
    unfold headerClosing
    simp only [lacks_append, hplatform, and_true]
    decide
  exact methodLine_skipped (by decide) hlacks (WholeLines.after _ rfl)

/-- The header declares a method as often as there are states of its name. -/
theorem header_occurrences (naming : Naming) (h : IsLexeme .identifier state.toList) :
    occurrences (methodLine state) (r.header naming) =
      (r.states.map (·.name.name)).count state := by
  have hpiece : IsLine (methodLine state) := named_isLine (by decide) (by decide) h
  have hnone : Skipped (methodLine state) (if r.states.isEmpty then noStates else "") := by
    have hempty : Lacks '(' noStates ∧ WholeLines noStates := by decide
    split
    · exact methodLine_skipped (by decide) hempty.1 hempty.2
    · exact methodLine_skipped (by decide) (by decide : Lacks '(' "") (by decide)
  have hlines : WholeLines (String.join (r.states.map (·.methodDeclaration))) :=
    wholeLines_join fun s _ => WholeLines.after _ rfl
  have hmethods : occurrences (methodLine state)
      (String.join (r.states.map (·.methodDeclaration))) =
        (r.states.map (·.name.name)).count state :=
    occurrences_join hpiece (fun s _ => WholeLines.after _ rfl) fun s hs =>
      occurrences_named rfl rfl (by decide) (by decide) h (hr.states s hs).name.word
  have hmain : Lacks '\t' ("int main(int argc, char **argv);\n\n" ++ "#endif\n") := by decide
  -- the methods are the only block that counts
  rw [r.header_eq naming, (headerOpening_skipped hr naming).append hpiece,
    (constructor_skipped hr h).append hpiece, (destructor_skipped hr).append hpiece,
    (fields_skipped hr).append hpiece, hnone.append hpiece, occurrences_append hpiece hlines,
    hmethods, (headerClosing_skipped hr).append hpiece,
    (methodLine_skipped (by decide) hmain (WholeLines.after _ rfl)).none, Nat.add_zero]

end Header

end Resolved

/-! ## Texts without a colon -/

def Mention.text : Mention → String
  | name v => v.name
  | constant _ text => text

theorem Variable.text_lacks {v : Variable} (h : Lacks ':' v.name) : Lacks ':' v.text := by
  unfold Variable.text
  split <;> simp only [lacks_append, h, and_true] <;> decide

theorem Expr.text_lacks {e : Expr} (h : ∀ m ∈ e.mentions, Lacks ':' m.text) : Lacks ':' e.text := by
  induction e with
  | const kind text => exact h _ List.mem_cons_self
  | var v => exact Variable.text_lacks (h _ List.mem_cons_self)
  | binary op left right ihl ihr =>
      obtain ⟨hleft, hright⟩ := List.forall_mem_append.mp h
      have hsymbol : Lacks ':' op.symbol := op.symbol_lacks (by decide)
      simp only [Expr.text, lacks_append, ihl hleft, ihr hright, hsymbol, and_true]
      decide

theorem Assignment.text_lacks {a : Assignment} (h : ∀ m ∈ a.mentions, Lacks ':' m.text) :
    Lacks ':' a.text := by
  obtain ⟨htarget, hvalue⟩ := List.forall_mem_cons.mp h
  have htarget : Lacks ':' a.target.name := htarget
  unfold Assignment.text
  split <;> simp only [lacks_append, htarget, Expr.text_lacks hvalue, and_true] <;> decide

theorem lacks_listText {α : Type} {none : String} {text : α → String} {as : List α} {c : Char}
    (hnone : Lacks c none) (h : ∀ a ∈ as, Lacks c (text a)) : Lacks c (listText none text as) := by
  cases as with
  | nil => exact hnone
  | cons a as => exact lacks_join h

theorem Destination.call_lacks {d : Destination} (h : ∀ m ∈ d.mentions, Lacks ':' m.text) :
    Lacks ':' d.call := by
  cases d with
  | goto target =>
      have htarget : Lacks ':' target.name := h _ List.mem_cons_self
      simp only [Destination.call, lacks_append, htarget, and_true]
      decide
  | exit => decide

theorem Transition.text_lacks {t : Transition} {opening : String} (hopening : Lacks ':' opening)
    (h : ∀ m ∈ t.mentions, Lacks ':' m.text) : Lacks ':' (t.text opening) := by
  obtain ⟨hdestination, h⟩ := List.forall_mem_append.mp h
  obtain ⟨hguard, hbody⟩ := List.forall_mem_append.mp h
  have hassignments : Lacks ':' (bodyText t.body) :=
    lacks_listText (by decide) fun a ha =>
      Assignment.text_lacks fun m hm => hbody m (List.mem_flatMap.mpr ⟨a, ha, hm⟩)
  unfold Transition.text
  simp only [lacks_append, hopening, Expr.text_lacks hguard, hassignments,
    Destination.call_lacks hdestination, and_true, true_and]
  decide

theorem transitionsText_lacks {ts : List Transition}
    (h : ∀ m ∈ ts.flatMap (·.mentions), Lacks ':' m.text) : Lacks ':' (transitionsText ts) := by
  cases ts with
  | nil => decide
  | cons first rest =>
      rw [List.flatMap_cons, List.forall_mem_append] at h
      have hrest : Lacks ':' (String.join (rest.map (·.text "else if "))) :=
        lacks_join fun t ht => Transition.text_lacks (by decide) fun m hm =>
          h.2 m (List.mem_flatMap.mpr ⟨t, ht, hm⟩)
      simp only [transitionsText, lacks_append, hrest, and_true]
      exact ⟨Transition.text_lacks (by decide) h.1, by decide⟩

/-! ## The implementation -/

section Implementation

variable {machine state : String} (hmachine : IsLexeme .identifier machine.toList)

include hmachine in
theorem headingOpening_lacks : Lacks '\n' ("void " ++ machine ++ "::") := by
  have hname : Lacks '\n' machine := hmachine.lacks rfl
  simp only [lacks_append, hname, and_true]
  decide

include hmachine in
theorem methodHeading_isLine (h : IsLexeme .identifier state.toList) :
    IsLine (methodHeading machine state) :=
  named_isLine (headingOpening_lacks hmachine) (by decide) h

theorem methodHeading_skipped {text : String} (htext : Lacks ':' text) (hlines : WholeLines text) :
    Skipped (methodHeading machine state) text := by
  refine ⟨hlines, occurrences_eq_zero (fun hpiece => ?_) htext⟩
  unfold methodHeading at hpiece
  simp only [lacks_append] at hpiece
  exact absurd hpiece.1.1.2 (by decide)

/-- A method after its heading. -/
def State.methodBody (s : State) : String :=
  "\tplatform->enter_state();\n\n" ++ transitionsText s.transitions ++ "\x7d\n\n"

theorem State.method_eq (machine : String) (s : State) :
    s.method machine = methodHeading machine s.name.name ++ s.methodBody := by
  unfold method methodHeading methodBody
  simp only [String.append_assoc]

include hmachine in
theorem State.method_occurrences {s : State} (h : IsLexeme .identifier state.toList)
    (hs : IsLexeme .identifier s.name.name.toList)
    (hmentions : ∀ m ∈ s.mentions, Lacks ':' m.text) :
    occurrences (methodHeading machine state) (s.method machine) =
      if s.name.name = state then 1 else 0 := by
  have htransitions := transitionsText_lacks (List.forall_mem_cons.mp hmentions).2
  have hbody : Lacks ':' s.methodBody := by
    unfold methodBody
    simp only [lacks_append, htransitions, and_true]
    decide
  have hlast : ("void " ++ machine ++ "::").toList.getLast? = some ':' := by
    rw [String.toList_append, List.getLast?_append]
    rfl
  rw [s.method_eq machine, occurrences_append (methodHeading_isLine hmachine h)
      (methodHeading_isLine hmachine hs).wholeLines,
    (methodHeading_skipped hbody (WholeLines.after _ rfl)).none, Nat.add_zero]
  exact occurrences_named hlast rfl (headingOpening_lacks hmachine) (by decide) h hs

include hmachine in
theorem methods_occurrences {states : List State} (h : IsLexeme .identifier state.toList)
    (hnames : ∀ s ∈ states, s.name.IsName)
    (hmentions : ∀ s ∈ states, ∀ m ∈ s.mentions, Lacks ':' m.text) :
    WholeLines (listText noStates (·.method machine) states) ∧
      occurrences (methodHeading machine state) (listText noStates (·.method machine) states) =
        (states.map (·.name.name)).count state := by
  cases states with
  | nil =>
      have hempty : Lacks ':' noStates ∧ WholeLines noStates := by decide
      exact ⟨hempty.2, (methodHeading_skipped hempty.1 hempty.2).none⟩
  | cons first rest =>
      have hlines : ∀ s ∈ first :: rest, WholeLines (s.method machine) :=
        fun s _ => WholeLines.after _ rfl
      exact ⟨wholeLines_join hlines,
        occurrences_join (methodHeading_isLine hmachine h) hlines fun s hs =>
          State.method_occurrences hmachine h (hnames s hs).word (hmentions s hs)⟩

end Implementation

namespace Resolved

variable {r : Resolved} {state : String}

theorem implementationText_eq (r : Resolved) (naming : Naming) : r.implementationText naming =
    ("#include \"" ++ naming.runtimeHeader ++ "\"\n") ++
    (("#include \"" ++ naming.headerFile ++ "\"\n") ++
    ((r.name.name ++ "::" ++ r.name.name ++ "(" ++ r.platform.name ++ " *p) \x7b\n") ++
    (("\tthis->platform = p;\n" ++ "\x7d;\n") ++
    ((r.name.name ++ "::~" ++ r.name.name ++ "() \x7b\x7d\n") ++
    ("\n" ++
    (listText noStates (·.method r.name.name) r.states ++
    (r.mainFunction ++ "\n\n\n"))))))) := by
  unfold implementationText preamble
  simp only [String.append_assoc]
  rfl

theorem include_skipped {file : String} (hname : r.name.IsName)
    (h : IsLexeme .identifier state.toList) (hfile : Lacks '\n' file) :
    Skipped (methodHeading r.name.name state) ("#include \"" ++ file ++ "\"\n") := by
  have hbefore : Lacks '\n' ("#include \"" ++ file) := lacks_append.mpr ⟨by decide, hfile⟩
  exact skipped_of_endApart (methodHeading_isLine hname.word h) hbefore (by decide) (by decide)

theorem initialCall_lacks {states : List State} (h : ∀ s ∈ states, Lacks ':' s.name.name) :
    Lacks ':' (initialCall states) := by
  unfold initialCall
  split
  · decide
  · split
    · next s hs =>
        have hname := h s (List.mem_of_find?_eq_some hs)
        simp only [lacks_append, hname, and_true]
        decide
    · decide

section Implementation

variable (hr : r.Proper)
include hr

/-- The constructor has a parameter, so its line ends otherwise. -/
theorem constructorHeading_skipped (h : IsLexeme .identifier state.toList) :
    Skipped (methodHeading r.name.name state)
      (r.name.name ++ "::" ++ r.name.name ++ "(" ++ r.platform.name ++ " *p) \x7b\n") := by
  have hname : Lacks '\n' r.name.name := hr.name.word.lacks rfl
  have hplatform : Lacks '\n' r.platform.name := hr.platform.word.lacks rfl
  have hbefore : Lacks '\n' (r.name.name ++ "::" ++ r.name.name ++ "(" ++ r.platform.name) := by
    simp only [lacks_append, hname, hplatform, and_true, true_and]
    decide
  exact skipped_of_endApart (methodHeading_isLine hr.name.word h) hbefore (by decide) (by decide)

/-- The destructor is closed in its line. -/
theorem destructorHeading_skipped (h : IsLexeme .identifier state.toList) :
    Skipped (methodHeading r.name.name state)
      (r.name.name ++ "::~" ++ r.name.name ++ "() \x7b\x7d\n") := by
  have hname : Lacks '\n' r.name.name := hr.name.word.lacks rfl
  have hbefore : Lacks '\n' (r.name.name ++ "::~" ++ r.name.name) := by
    simp only [lacks_append, hname, and_true, true_and]
    decide
  exact skipped_of_endApart (methodHeading_isLine hr.name.word h) hbefore (by decide) (by decide)

theorem mainFunction_lacks : Lacks ':' r.mainFunction := by
  have hname : Lacks ':' r.name.name := hr.name.word.lacks rfl
  have hplatform : Lacks ':' r.platform.name := hr.platform.word.lacks rfl
  have hcall : Lacks ':' (initialCall r.states) :=
    initialCall_lacks fun s hs => (hr.states s hs).name.word.lacks rfl
  unfold mainFunction
  simp only [lacks_append, hname, hplatform, hcall, and_true]
  decide

/-- The implementation opens a method as often as there are states of its name. -/
theorem implementation_occurrences {naming : Naming} (hheader : Lacks '\n' naming.headerFile)
    (hruntime : Lacks '\n' naming.runtimeHeader)
    (hmentions : ∀ s ∈ r.states, ∀ m ∈ s.mentions, Lacks ':' m.text)
    (h : IsLexeme .identifier state.toList) :
    occurrences (methodHeading r.name.name state) (r.implementationText naming) =
      (r.states.map (·.name.name)).count state := by
  have hpiece := methodHeading_isLine hr.name.word h
  have hassignment : Lacks ':' ("\tthis->platform = p;\n" ++ "\x7d;\n") := by decide
  have hmain : Lacks ':' (r.mainFunction ++ "\n\n\n") :=
    lacks_append.mpr ⟨mainFunction_lacks hr, by decide⟩
  obtain ⟨hlines, hmethods⟩ :=
    methods_occurrences hr.name.word h (fun s hs => (hr.states s hs).name) hmentions
  rw [r.implementationText_eq naming, (include_skipped hr.name h hruntime).append hpiece,
    (include_skipped hr.name h hheader).append hpiece,
    (constructorHeading_skipped hr h).append hpiece,
    (methodHeading_skipped hassignment (WholeLines.after _ rfl)).append hpiece,
    (destructorHeading_skipped hr h).append hpiece,
    (methodHeading_skipped (by decide : Lacks ':' "\n") (by decide)).append hpiece,
    occurrences_append hpiece hlines, hmethods,
    (methodHeading_skipped hmain (WholeLines.after _ rfl)).none, Nat.add_zero]

end Implementation

end Resolved

/-! ## Sources without quoted literals -/

/-- Without quotes, a mention has no colon. -/
theorem Token.mention?_lacks {source : String} {t : Token} {m : Mention}
    (ht : t ∈ Token.scan source) (hquoted : t.kind ≠ .literal .string ∧ t.kind ≠ .literal .char)
    (hm : t.mention? = some m) : Lacks ':' m.text := by
  have hscanned := Token.mention?_scanned ht hm
  have hlexeme := Token.scan_isLexeme source t ht
  rcases Token.mention?_cases hm with ⟨-, rfl⟩ | ⟨sort, hkind, rfl⟩
  · exact hscanned.word.lacks rfl
  · simp only [hkind, reduceCtorEq, false_or] at hlexeme
    rw [hkind] at hquoted
    rcases hlexeme.literal_cases with hplain | ⟨rfl | rfl, -⟩
    · intro hcolon
      exact absurd (hplain ':' hcolon) (by decide)
    · exact absurd rfl hquoted.1
    · exact absurd rfl hquoted.2

theorem Program.parse_resolve_lacks {source : String} {p : Program}
    (h : Program.parse source = .ok p)
    (hquoted : ∀ t ∈ Token.scan source, t.kind ≠ .literal .string ∧ t.kind ≠ .literal .char) :
    ∀ m ∈ p.resolve.mentions, Lacks ':' m.text := by
  intro m hm
  -- resolving changes origins only, so the texts are those of the source
  have htexts := p.filterMap_resolve (f := fun m => some m.text) fun _ => rfl
  have hmem : m.text ∈ p.mentions.filterMap (fun m => some m.text) := by
    rw [← htexts]
    exact List.mem_filterMap.mpr ⟨m, hm, rfl⟩
  obtain ⟨written, hwritten, htext⟩ := List.mem_filterMap.mp hmem
  rw [← Program.parse_mentions h] at hwritten
  obtain ⟨t, ht, hmention⟩ := List.mem_filterMap.mp hwritten
  rw [← Option.some.inj htext]
  exact Token.mention?_lacks ht (hquoted t ht) hmention

theorem Program.written_occurrences {source : String} {p : Program} {naming : Naming}
    (h : Program.parse source = .ok p)
    (hquoted : ∀ t ∈ Token.scan source, t.kind ≠ .literal .string ∧ t.kind ≠ .literal .char)
    (hheader : Lacks '\n' naming.headerFile) (hruntime : Lacks '\n' naming.runtimeHeader)
    {s : State} (hs : s ∈ p.resolve.states) :
    let names := p.resolve.states.map (·.name.name)
    occurrences (methodLine s.name.name) (p.written naming).header = names.count s.name.name ∧
      occurrences (methodHeading p.name.name s.name.name) (p.written naming).implementation =
        names.count s.name.name := by
  have hproper := Program.resolve_proper (Program.parse_scanned h)
  have hlacks := Program.parse_resolve_lacks h hquoted
  have hword := (hproper.states s hs).name.word
  refine ⟨Resolved.header_occurrences hproper naming hword,
    Resolved.implementation_occurrences hproper hheader hruntime (fun t ht m hm => ?_) hword⟩
  exact hlacks m (Program.mem_mentions_of_state ht hm)

/-- In the documents of a source without quoted literals, the line that declares the method of a
state and the line that opens it occur as often as there are states of that name. So each occurs
once, for all states, exactly if the names of the states differ. -/
theorem methods_as_states {source : String} {naming : Naming} {c : Compiled}
    (h : Compiled.ofSource source naming = .ok c)
    (hquoted : ∀ t ∈ Token.scan source, t.kind ≠ .literal .string ∧ t.kind ≠ .literal .char)
    (hheader : '\n' ∉ naming.headerFile.toList) (hruntime : '\n' ∉ naming.runtimeHeader.toList) :
    let names := c.program.states.map (·.name.name)
    let declared (state : String) :=
      occurrences ("\t\tvoid " ++ state ++ "();\n") c.documents.header
    let defined (state : String) :=
      occurrences ("void " ++ c.program.name.name ++ "::" ++ state ++ "() \x7b\n")
        c.documents.implementation
    (∀ state ∈ names, declared state = names.count state ∧ defined state = names.count state) ∧
      ((∀ state ∈ names, declared state = 1 ∧ defined state = 1) ↔ names.Nodup) := by
  intro names declared defined
  obtain ⟨p, hparse, rfl⟩ := Compiled.exists_parse h
  have hcount : ∀ state ∈ names,
      declared state = names.count state ∧ defined state = names.count state := by
    intro state hstate
    obtain ⟨s, hs, rfl⟩ := List.mem_map.mp hstate
    exact Program.written_occurrences hparse hquoted hheader hruntime hs
  refine ⟨hcount, ?_⟩
  rw [List.nodup_iff_count_eq_one]
  refine forall_congr' fun state => forall_congr' fun hstate => ?_
  obtain ⟨hdeclared, hdefined⟩ := hcount state hstate
  rw [hdeclared, hdefined, and_self]

/-- Of three states two have one name. -/
theorem methods_as_states_shared_name :
    let source := "name: M; platform: P; int x; " ++
      "state: A \x7b goto B when x < 1 performing \x7b x := x + y; \x7d; \x7d " ++
      "initial state: B \x7b \x7d state: A \x7b \x7d"
    ∃ c, Compiled.ofSource source {} = .ok c ∧
      occurrences "\t\tvoid A();\n" c.documents.header = 2 ∧
      occurrences "\t\tvoid B();\n" c.documents.header = 1 ∧
      occurrences "void M::A() \x7b\n" c.documents.implementation = 2 ∧
      occurrences "void M::B() \x7b\n" c.documents.implementation = 1 := by
  intro source
  have hparse : Program.parse source = .ok ⟨.ofName "M", .ofName "P", [⟨.int, .ofName "x"⟩],
      [⟨.ofName "A", [⟨.binary (.compare .lt) (.var (.ofName "x")) (.const .int "1"),
          [⟨.ofName "x", .binary (.arith .add) (.var (.ofName "x")) (.var (.ofName "y"))⟩],
          .goto (.ofName "B")⟩], false⟩,
        ⟨.ofName "B", [], true⟩, ⟨.ofName "A", [], false⟩]⟩ :=
    Parser.ok_of_toOption (by decide +kernel)
  have hquoted : ∀ t ∈ Token.scan source,
      t.kind ≠ .literal .string ∧ t.kind ≠ .literal .char := by decide +kernel
  have hcompiles := Compiled.ofSource_of_parse hparse {}
  obtain ⟨hcount, -⟩ := methods_as_states hcompiles hquoted (by decide) (by decide)
  obtain ⟨hdeclared, hdefined⟩ := hcount "A" (by decide)
  obtain ⟨hdeclared', hdefined'⟩ := hcount "B" (by decide)
  exact ⟨_, hcompiles, hdeclared, hdeclared', hdefined, hdefined'⟩

/-- Nothing keeps two states from having one name, and then neither line is there once. -/
theorem methods_not_unique :
    let source := "name: M; platform: P; state: A \x7b \x7d state: A \x7b \x7d"
    (∀ t ∈ Token.scan source, t.kind ≠ .literal .string ∧ t.kind ≠ .literal .char) ∧
      ∃ c, Compiled.ofSource source {} = .ok c ∧ ∃ s ∈ c.program.states,
        occurrences ("\t\tvoid " ++ s.name.name ++ "();\n") c.documents.header = 2 ∧
        occurrences ("void " ++ c.program.name.name ++ "::" ++ s.name.name ++ "() \x7b\n")
          c.documents.implementation = 2 := by
  intro source
  have hparse : Program.parse source = .ok ⟨.ofName "M", .ofName "P", [],
      [⟨.ofName "A", [], false⟩, ⟨.ofName "A", [], false⟩]⟩ :=
    Parser.ok_of_toOption (by decide +kernel)
  have hquoted : ∀ t ∈ Token.scan source,
      t.kind ≠ .literal .string ∧ t.kind ≠ .literal .char := by decide +kernel
  have hcompiles := Compiled.ofSource_of_parse hparse {}
  exact ⟨hquoted, _, hcompiles, ⟨.ofName "A", [], false⟩, List.mem_cons_self,
    Program.written_occurrences hparse hquoted (by decide) (by decide) List.mem_cons_self⟩

end StateLang
