import StateLang.Proofs.Document.Legible
import StateLang.Proofs.Program.Proper

/-!
# The documents determine the program

Every layer of the documents is legible, from names and literals up to the list
of methods. Groups leave no parentheses, but a binary node has a blank in front
of it and a leaf has none, so the blanks alone give the tree. Of the marks of
initial states only the first is written, by the call in the main function.
-/

namespace StateLang

open Token (IsLexeme isWordChar isPlain)

attribute [ext] Variable Assignment Transition State Declaration

/-! ## Names, uses and expressions -/

variable {r s : String}

theorem Stops.word_of_plain (h : Stops isPlain r) : Stops isWordChar r := by
  intro c rest hcons
  have hplain := h c rest hcons
  simp only [isPlain, Bool.or_eq_false_iff] at hplain
  exact hplain.1

theorem name_legible : Legible Variable.name Variable.IsName (Stops isWordChar) := by
  intro v w r s hv hw hr hs h
  obtain ⟨hname, hrest⟩ := word_legible hv.word hw.word hr hs h
  exact ⟨Variable.ext hname (hv.origin.trans hw.origin.symm), hrest⟩

/-- What is written in one of two ways, by origin, tells the origin. -/
theorem origin_legible {v w : Variable} {opening opening' x x' y y' : String} (hv : v.IsUse)
    (hw : w.IsUse) (hdiffer : Differ opening opening')
    (h : (if v.origin = .platform then opening ++ x else opening' ++ x') =
      if w.origin = .platform then opening ++ y else opening' ++ y') :
    v.origin = w.origin ∧ (x = y ∨ x' = y') := by
  cases horigin : v.origin with
  | unresolved => exact absurd horigin hv.origin
  | platform =>
      cases horigin' : w.origin with
      | unresolved => exact absurd horigin' hw.origin
      | platform =>
          rw [horigin, horigin'] at h
          exact ⟨rfl, .inl ((String.append_right_inj _).mp h)⟩
      | machine =>
          rw [horigin, horigin'] at h
          exact absurd h (hdiffer.append_ne _ _)
  | machine =>
      cases horigin' : w.origin with
      | unresolved => exact absurd horigin' hw.origin
      | platform =>
          rw [horigin, horigin'] at h
          exact absurd h.symm (hdiffer.append_ne _ _)
      | machine =>
          rw [horigin, horigin'] at h
          exact ⟨rfl, .inr ((String.append_right_inj _).mp h)⟩

theorem Variable.text_append (v : Variable) (r : String) :
    v.text ++ r = if v.origin = .platform then "platform->get_" ++ (v.name ++ ("()" ++ r))
      else "this->" ++ (v.name ++ r) := by
  unfold Variable.text
  split <;> simp only [String.append_assoc]

theorem use_legible : Legible Variable.text Variable.IsUse (Stops isWordChar) := by
  intro v w r s hv hw hr hs h
  rw [v.text_append, w.text_append] at h
  obtain ⟨horigin, h | h⟩ := origin_legible hv hw (by decide) h
  · obtain ⟨hname, hrest⟩ :=
      Legible.before word_legible (Stops.append (by decide)) hv.word hw.word h
    exact ⟨Variable.ext hname horigin, hrest⟩
  · obtain ⟨hname, hrest⟩ := word_legible hv.word hw.word hr hs h
    exact ⟨Variable.ext hname horigin, hrest⟩

theorem platform_isLexeme : IsLexeme (.keyword .platform) "platform".toList :=
  ⟨[], by decide +kernel⟩

theorem this_isLexeme : IsLexeme .identifier "this".toList := ⟨[], by decide +kernel⟩

/-- A variable starts with a word that is no literal. -/
theorem constant_ne_use {kind : ConstKind} {text : String} {v : Variable}
    (htext : IsConstant kind text) (hr : Stops isPlain r) : text ++ r ≠ v.text ++ s := by
  obtain ⟨sort, hsort, -⟩ := htext
  have hword {word : String} {other : Token.Kind} {tail : String}
      (hlexeme : IsLexeme other word.toList) (hother : other ≠ .literal sort)
      (hall : word.toList.all isPlain = true) :
      text ++ r ≠ word ++ ("->" ++ tail) := by
    intro h
    have hplain := List.all_eq_true.mp hall
    have hne := hlexeme.exists_pattern.1
    obtain ⟨rfl, -⟩ := literal_eq_plain hsort hplain hne hr (Stops.append (by decide) tail) h
    exact hother (hlexeme.kind_unique hsort)
  have hget : "platform->get_" = "platform" ++ ("->" ++ "get_") := by decide
  have hthis : "this->" = "this" ++ "->" := by decide
  rw [v.text_append, hget, hthis]
  split
  · simp only [String.append_assoc]
    exact hword platform_isLexeme (by simp) (by decide)
  · simp only [String.append_assoc]
    exact hword this_isLexeme (by simp) (by decide)

theorem symbol_legible : Legible BinaryOp.symbol (fun _ => True) (Stops (· ≠ ' ')) := by
  apply legible_of_all
  · intro op
    rcases op with op | op <;> cases op <;> decide
  · intro op op' h
    rcases op with op | op <;> rcases op' with op' | op' <;> cases op <;> cases op' <;>
      simp [BinaryOp.symbol, ArithOp.symbol, CompareOp.symbol] at h ⊢

/-- Only a binary node starts with a blank. -/
theorem Expr.Proper.binary_of_blank {e : Expr} (he : e.Proper) (h : e.text ++ r = " " ++ s) :
    ∃ op left right, e = .binary op left right := by
  cases e with
  | const kind text =>
      obtain ⟨sort, hsort, -⟩ := he
      obtain ⟨c, rest, hcons⟩ := List.exists_cons_of_ne_nil hsort.exists_pattern.1
      have hlist : text.toList ++ r.toList = ' ' :: s.toList := by
        have hboth := congrArg String.toList h
        rw [String.toList_append, String.toList_append] at hboth
        exact hboth
      rw [hcons] at hlist hsort
      have hblank := hsort.head_not_blank
      rw [(List.cons.inj hlist).1] at hblank
      contradiction
  | var v =>
      rw [Expr.text, v.text_append] at h
      split at h
      · exact absurd h (Differ.append_ne (by decide) _ _)
      · exact absurd h (Differ.append_ne (by decide) _ _)
  | binary op left right => exact ⟨op, left, right, rfl⟩

/-- The blanks around a node do what parentheses would. -/
theorem expr_legible : Legible Expr.text Expr.Proper (Stops isPlain) := by
  intro a
  -- the texts that follow change on the way down, so both are left to the induction
  induction a with
  | const kind text =>
      intro b r s ha hb hr hs h
      cases b with
      | const kind' text' =>
          obtain ⟨sort, hsort, rfl⟩ := ha
          obtain ⟨sort', hsort', rfl⟩ := hb
          obtain ⟨htext, hrest⟩ := literal_legible ⟨sort, hsort⟩ ⟨sort', hsort'⟩ hr hs h
          change text = text' at htext
          rw [← htext] at hsort'
          cases hsort.kind_unique hsort'
          exact ⟨by rw [htext], hrest⟩
      | var v => exact absurd h (constant_ne_use ha hr)
      | binary op left right =>
          simp only [Expr.text, String.append_assoc] at h
          obtain ⟨_, _, _, hbinary⟩ := Expr.Proper.binary_of_blank ha h
          cases hbinary
  | var v =>
      intro b r s ha hb hr hs h
      cases b with
      | const kind text => exact absurd h.symm (constant_ne_use hb hs)
      | var w =>
          obtain ⟨hvw, hrest⟩ := use_legible ha hb hr.word_of_plain hs.word_of_plain h
          exact ⟨by rw [hvw], hrest⟩
      | binary op left right =>
          simp only [Expr.text, String.append_assoc] at h
          obtain ⟨_, _, _, hbinary⟩ := Expr.Proper.binary_of_blank ha h
          cases hbinary
  | binary op left right ihl ihr =>
      intro b r s ha hb hr hs h
      simp only [Expr.text, String.append_assoc] at h
      obtain ⟨op', left', right', rfl⟩ := Expr.Proper.binary_of_blank hb h.symm
      simp only [Expr.text, String.append_assoc, String.append_right_inj] at h
      obtain ⟨hleft, h⟩ := ihl ha.1 hb.1 (Stops.append (by decide) _) (Stops.append (by decide) _) h
      rw [String.append_right_inj] at h
      obtain ⟨hop, h⟩ := Legible.before symbol_legible (Stops.append (by decide)) trivial trivial h
      obtain ⟨hright, h⟩ := ihr ha.2 hb.2 (Stops.append (by decide) _) (Stops.append (by decide) _) h
      rw [String.append_right_inj] at h
      exact ⟨by rw [hleft, hop, hright], h⟩

/-! ## Transitions -/

theorem Assignment.text_append (a : Assignment) (r : String) :
    a.text ++ r = if a.target.origin = .platform then
      "\t\tplatform->set_" ++ (a.target.name ++ ("(" ++ (a.value.text ++ (");\n" ++ r))))
    else "\t\tthis->" ++ (a.target.name ++ (" = " ++ (a.value.text ++ (";\n" ++ r)))) := by
  unfold Assignment.text
  split <;> simp only [String.append_assoc]

theorem Assignment.text_ne {a : Assignment} {opening : String}
    (hset : Differ "\t\tplatform->set_" opening) (hthis : Differ "\t\tthis->" opening) :
    a.text ++ r ≠ opening ++ s := by
  rw [a.text_append]
  split
  · exact hset.append_ne _ _
  · exact hthis.append_ne _ _

theorem assignment_legible : Legible Assignment.text Assignment.Proper Anything := by
  intro a b r s ha hb _ _ h
  rw [a.text_append, b.text_append] at h
  obtain ⟨horigin, h | h⟩ := origin_legible ha.target hb.target (by decide) h
  · obtain ⟨hname, h⟩ :=
      Legible.before word_legible (Stops.append (by decide)) ha.target.word hb.target.word h
    obtain ⟨hvalue, h⟩ := Legible.before expr_legible (Stops.append (by decide)) ha.value hb.value h
    exact ⟨Assignment.ext (Variable.ext hname horigin) hvalue, h⟩
  · obtain ⟨hname, h⟩ :=
      Legible.before word_legible (Stops.append (by decide)) ha.target.word hb.target.word h
    obtain ⟨hvalue, h⟩ := Legible.before expr_legible (Stops.append (by decide)) ha.value hb.value h
    exact ⟨Assignment.ext (Variable.ext hname horigin) hvalue, h⟩

theorem body_legible :
    Legible bodyText (fun body => ∀ a ∈ body, a.Proper) (StartsWith nextState) := by
  apply assignment_legible.listText
  · rintro a r s - ⟨tail, rfl⟩
    exact Assignment.text_ne (by decide) (by decide)
  · intro a r s _
    exact Assignment.text_ne (by decide) (by decide)

theorem destination_legible :
    Legible Destination.call Destination.Proper (StartsWith "\t\x7d ") := by
  rintro a b r s ha hb ⟨rest, rfl⟩ ⟨rest', rfl⟩ h
  cases a with
  | goto target =>
      cases b with
      | goto target' =>
          simp only [Destination.call, String.append_assoc, String.append_right_inj] at h
          obtain ⟨htarget, h⟩ := Legible.before name_legible (Stops.append (by decide)) ha hb h
          exact ⟨by rw [htarget], h⟩
      | exit =>
          simp only [Destination.call, String.append_assoc, String.empty_append] at h
          exact absurd h (Differ.append_ne (by decide) _ _)
  | exit =>
      cases b with
      | goto target' =>
          simp only [Destination.call, String.append_assoc, String.empty_append] at h
          exact absurd h (Differ.append_ne (by decide) _ _)
      | exit => exact ⟨rfl, (String.append_right_inj _).mp h⟩

theorem transition_legible (opening : String) :
    Legible (Transition.text opening) Transition.Proper Anything := by
  intro a b r s ha hb _ _ h
  simp only [Transition.text, String.append_assoc, String.append_right_inj] at h
  obtain ⟨hguard, h⟩ := Legible.before expr_legible (Stops.append (by decide)) ha.guard hb.guard h
  obtain ⟨hbody, h⟩ := Legible.before body_legible (StartsWith.append _) ha.body hb.body h
  obtain ⟨hdestination, h⟩ :=
    Legible.before destination_legible (StartsWith.append _) ha.destination hb.destination h
  exact ⟨Transition.ext hguard hbody hdestination, h⟩

/-- The branches after the first. -/
theorem branches_legible : Legible
    (fun branches : List Transition => String.join (branches.map (·.text "else if ")))
    (fun branches => ∀ t ∈ branches, t.Proper) (StartsWith "\n") := by
  apply (transition_legible "else if ").list
  rintro t r s - ⟨tail, rfl⟩
  simp only [Transition.text, String.append_assoc]
  exact Differ.append_ne (by decide) _ _

theorem transitions_legible :
    Legible transitionsText (fun transitions => ∀ t ∈ transitions, t.Proper) Anything := by
  intro as bs r s has hbs _ _ h
  have hclash {t : Transition} {ts : List Transition} {r s : String} :
      transitionsText (t :: ts) ++ r ≠ "\n\t\t// No transitions\n" ++ s := by
    simp only [transitionsText, Transition.text, String.append_assoc]
    exact Differ.append_ne (by decide) _ _
  cases as with
  | nil =>
      cases bs with
      | nil => exact ⟨rfl, (String.append_right_inj _).mp h⟩
      | cons b bs => exact absurd h.symm hclash
  | cons a as =>
      cases bs with
      | nil => exact absurd h hclash
      | cons b bs =>
          simp only [transitionsText, String.append_assoc] at h
          obtain ⟨ha, has⟩ := List.forall_mem_cons.mp has
          obtain ⟨hb, hbs⟩ := List.forall_mem_cons.mp hbs
          obtain ⟨hfirst, h⟩ := transition_legible "\tif " ha hb trivial trivial h
          obtain ⟨htail, h⟩ := Legible.before branches_legible (StartsWith.append _) has hbs h
          exact ⟨by rw [hfirst, htail], h⟩

/-! ## Methods -/

/-- The state without its mark. -/
def State.unmarked (s : State) : State := { s with isInitial := false }

theorem State.Proper.unmarked {states : List State} (h : ∀ s ∈ states, s.Proper) :
    ∀ s ∈ states.map (·.unmarked), s.Proper ∧ s.isInitial = false := by
  intro s hs
  obtain ⟨state, hmem, rfl⟩ := List.mem_map.mp hs
  have hstate := h state hmem
  exact ⟨⟨hstate.name, hstate.transitions⟩, rfl⟩

/-- No method has its state's mark in it. -/
theorem methods_unmarked (name : String) (states : List State) :
    listText noStates (State.method name) states =
      listText noStates (State.method name) (states.map (·.unmarked)) := by
  cases states with
  | nil => rfl
  | cons first rest =>
      simp only [listText, List.map_cons, List.map_map]
      rfl

theorem method_legible (name : String) :
    Legible (State.method name) (fun s => s.Proper ∧ s.isInitial = false) Anything := by
  rintro a b r s ⟨ha, hinitial⟩ ⟨hb, hinitial'⟩ _ _ h
  simp only [State.method, String.append_assoc, String.append_right_inj] at h
  obtain ⟨hname, h⟩ := Legible.before name_legible (Stops.append (by decide)) ha.name hb.name h
  rw [String.append_right_inj] at h
  obtain ⟨htransitions, h⟩ :=
    Legible.before transitions_legible (fun _ => trivial) ha.transitions hb.transitions h
  exact ⟨State.ext hname htransitions (hinitial.trans hinitial'.symm), h⟩

/-- The methods are followed by the main function. -/
theorem methods_legible (name : String) : Legible (listText noStates (State.method name))
    (fun states => ∀ s ∈ states, s.Proper ∧ s.isInitial = false) (StartsWith "int main") := by
  have hmethod {s : State} {opening r tail : String} (h : Differ "void " opening) :
      s.method name ++ r ≠ opening ++ tail := by
    simp only [State.method, String.append_assoc]
    exact h.append_ne _ _
  apply (method_legible name).listText
  · rintro s r tail - ⟨rest, rfl⟩
    exact hmethod (by decide)
  · intro s r tail _
    exact hmethod (by decide)

/-! ## Documents -/

theorem initialCall_of_none {states : List State} (h : initialState? states = none) :
    StartsWith "//" (Resolved.initialCall states) := by
  unfold Resolved.initialCall
  split
  · exact ⟨" No initial state (empty)\n", by decide⟩
  · rw [h]
    exact ⟨" No initial state (not declared)", by decide⟩

theorem initialCall_of_some {states : List State} {state : State}
    (h : initialState? states = some state) :
    Resolved.initialCall states = "machine->" ++ state.name.name ++ "();" := by
  have hne : states.isEmpty = false := by
    cases states with
    | nil => cases h
    | cons first rest => rfl
  unfold Resolved.initialCall
  rw [hne, h]
  rfl

theorem initialCall_inj {states states' : List State} (hnames : ∀ s ∈ states, s.name.IsName)
    (hnames' : ∀ s ∈ states', s.name.IsName)
    (h : Resolved.initialCall states = Resolved.initialCall states') :
    (initialState? states).map (·.name) = (initialState? states').map (·.name) := by
  cases hinitial : initialState? states with
  | none =>
      cases hinitial' : initialState? states' with
      | none => rfl
      | some state' =>
          obtain ⟨rest, hrest⟩ := initialCall_of_none hinitial
          rw [hrest, initialCall_of_some hinitial', String.append_assoc] at h
          exact absurd h (Differ.append_ne (by decide) _ _)
  | some state =>
      cases hinitial' : initialState? states' with
      | none =>
          obtain ⟨rest, hrest⟩ := initialCall_of_none hinitial'
          rw [hrest, initialCall_of_some hinitial, String.append_assoc] at h
          exact absurd h (Differ.append_ne (by decide) _ _)
      | some state' =>
          rw [initialCall_of_some hinitial, initialCall_of_some hinitial', String.append_left_inj,
            String.append_right_inj] at h
          have hname := hnames state (List.mem_of_find?_eq_some hinitial)
          have hname' := hnames' state' (List.mem_of_find?_eq_some hinitial')
          exact congrArg some (Variable.ext h (hname.origin.trans hname'.origin.symm))

theorem fieldType_legible : Legible VarType.fieldType (fun _ => True) (Stops (· ≠ ' ')) := by
  apply legible_of_all
  · intro type
    cases type <;> decide
  · intro type type' h
    cases type <;> cases type' <;> simp [VarType.fieldType] at h ⊢

theorem field_legible : Legible Declaration.field (fun d => d.name.IsName) Anything := by
  intro a b r s ha hb _ _ h
  simp only [Declaration.field, String.append_assoc, String.append_right_inj] at h
  obtain ⟨htype, h⟩ := Legible.before fieldType_legible (Stops.append (by decide)) trivial trivial h
  obtain ⟨hname, h⟩ := Legible.before name_legible (Stops.append (by decide)) ha hb h
  exact ⟨Declaration.ext htype hname, h⟩

theorem fields_inj {declarations declarations' : List Declaration}
    (hnames : ∀ d ∈ declarations, d.name.IsName) (hnames' : ∀ d ∈ declarations', d.name.IsName)
    (h : String.join (declarations.map (·.field)) = String.join (declarations'.map (·.field))) :
    declarations = declarations' := by
  have hfields : Legible (fun ds : List Declaration => String.join (ds.map (·.field)))
      (fun ds => ∀ d ∈ ds, d.name.IsName) (· = "") := by
    apply field_legible.list
    rintro d r s - rfl h
    have hnil := congrArg String.toList h
    simp [Declaration.field] at hnil
  exact (hfields hnames hnames' rfl rfl (congrArg (· ++ "") h)).1

namespace Resolved

variable {q r : Resolved} {naming : Naming}

theorem mainFunction_starts (r : Resolved) (tail : String) :
    StartsWith "int main" (r.mainFunction ++ tail) := by
  have hopening : "int main(int argc, char **argv) \x7b\n\n" =
      "int main" ++ "(int argc, char **argv) \x7b\n\n" := by decide
  unfold mainFunction
  simp only [hopening, String.append_assoc]
  exact ⟨_, rfl⟩

theorem implementation_names (hq : q.Proper) (hr : r.Proper)
    (h : q.implementationText naming = r.implementationText naming) :
    q.name = r.name ∧ q.platform = r.platform := by
  unfold implementationText preamble at h
  simp only [String.append_assoc, String.append_right_inj] at h
  obtain ⟨hname, h⟩ := Legible.before name_legible (Stops.append (by decide)) hq.name hr.name h
  simp only [hname, String.append_right_inj] at h
  obtain ⟨hplatform, -⟩ :=
    Legible.before name_legible (Stops.append (by decide)) hq.platform hr.platform h
  exact ⟨hname, hplatform⟩

theorem implementation_states (hq : q.Proper) (hr : r.Proper)
    (h : q.implementationText naming = r.implementationText naming) :
    q.states.map (·.unmarked) = r.states.map (·.unmarked) ∧
      initialCall q.states = initialCall r.states := by
  obtain ⟨hname, hplatform⟩ := implementation_names hq hr h
  have hpreamble : q.preamble naming = r.preamble naming := by
    unfold preamble
    rw [hname, hplatform]
  unfold implementationText at h
  simp only [hpreamble, hname, String.append_assoc, String.append_right_inj] at h
  rw [methods_unmarked _ q.states, methods_unmarked _ r.states] at h
  obtain ⟨hstates, h⟩ := methods_legible _ (State.Proper.unmarked hq.states)
    (State.Proper.unmarked hr.states) (q.mainFunction_starts _) (r.mainFunction_starts _) h
  unfold mainFunction at h
  simp only [hname, hplatform, String.append_assoc, String.append_right_inj,
    String.append_left_inj] at h
  exact ⟨hstates, h⟩

/-- Once the states are known, only the fields of the header are open. -/
theorem header_declarations (hq : q.Proper) (hr : r.Proper) (hname : q.name = r.name)
    (hplatform : q.platform = r.platform)
    (hstates : q.states.map (·.unmarked) = r.states.map (·.unmarked))
    (h : q.header naming = r.header naming) : q.declarations = r.declarations := by
  have hmethods : q.states.map (·.methodDeclaration) = r.states.map (·.methodDeclaration) := by
    have hmapped := congrArg (List.map State.methodDeclaration) hstates
    rw [List.map_map, List.map_map] at hmapped
    exact hmapped
  have hempty : q.states.isEmpty = r.states.isEmpty := by
    have hmapped := congrArg List.isEmpty hstates
    rw [List.isEmpty_map, List.isEmpty_map] at hmapped
    exact hmapped
  unfold header at h
  simp only [hname, hplatform, hmethods, hempty, String.append_assoc, String.append_right_inj,
    String.append_left_inj] at h
  exact fields_inj hq.declarations hr.declarations h

end Resolved

/-- Two sources with the same documents have the same program, but for the marks of initial states
after the first. -/
theorem documents_determine_program {source source' : String} {naming : Naming} {c c' : Compiled}
    (h : Compiled.ofSource source naming = .ok c) (h' : Compiled.ofSource source' naming = .ok c')
    (hdocuments : c.documents = c'.documents) :
    c.program.name = c'.program.name ∧ c.program.platform = c'.program.platform ∧
    c.program.declarations = c'.program.declarations ∧
    c.program.states.map (·.unmarked) = c'.program.states.map (·.unmarked) ∧
    (initialState? c.program.states).map (·.name) =
      (initialState? c'.program.states).map (·.name) := by
  obtain ⟨p, hparse, rfl⟩ := Compiled.exists_parse h
  obtain ⟨p', hparse', rfl⟩ := Compiled.exists_parse h'
  have hproper := Program.resolve_proper (Program.parse_scanned hparse)
  have hproper' := Program.resolve_proper (Program.parse_scanned hparse')
  have hheader := congrArg Documents.header hdocuments
  have himplementation := congrArg Documents.implementation hdocuments
  obtain ⟨hname, hplatform⟩ := Resolved.implementation_names hproper hproper' himplementation
  obtain ⟨hstates, hcall⟩ := Resolved.implementation_states hproper hproper' himplementation
  have hdeclarations :=
    Resolved.header_declarations hproper hproper' hname hplatform hstates hheader
  have hinitial := initialCall_inj (fun s hs => (hproper.states s hs).name)
    (fun s hs => (hproper'.states s hs).name) hcall
  exact ⟨hname, hplatform, hdeclarations, hstates, hinitial⟩

/-- Two texts of one program: the second mark and the outer parentheses change nothing. -/
theorem documents_determine_program_twice :
    let source := "name: M; platform: P; initial state: S \x7b exit when (x + 1) * 2 < 3 " ++
      "performing \x7b \x7d; \x7d initial state: T \x7b \x7d"
    let source' := "name: M; platform: P; initial state: S \x7b exit when (((x + 1) * 2) < 3) " ++
      "performing \x7b \x7d; \x7d state: T \x7b \x7d"
    ∃ c c', Compiled.ofSource source ⟨"M.h", "R.h"⟩ = .ok c ∧
      Compiled.ofSource source' ⟨"M.h", "R.h"⟩ = .ok c' ∧ c.documents = c'.documents ∧
      c.program.states.map (·.unmarked) = c'.program.states.map (·.unmarked) := by
  intro source source'
  let program (marked : Bool) : Program := ⟨.ofName "M", .ofName "P", [],
    [⟨.ofName "S", [⟨.binary (.compare .lt) (.binary (.arith .mul) (.binary (.arith .add)
      (.var (.ofName "x")) (.const .int "1")) (.const .int "2")) (.const .int "3"), [], .exit⟩],
        true⟩, ⟨.ofName "T", [], marked⟩]⟩
  have hparse : Program.parse source = .ok (program true) :=
    Parser.ok_of_toOption (by decide +kernel)
  have hparse' : Program.parse source' = .ok (program false) :=
    Parser.ok_of_toOption (by decide +kernel)
  have hcompiles := Compiled.ofSource_of_parse hparse ⟨"M.h", "R.h"⟩
  have hcompiles' := Compiled.ofSource_of_parse hparse' ⟨"M.h", "R.h"⟩
  have hdocuments : (program true).written ⟨"M.h", "R.h"⟩ =
      (program false).written ⟨"M.h", "R.h"⟩ := by
    decide +kernel
  have hsame := documents_determine_program hcompiles hcompiles' hdocuments
  exact ⟨_, _, hcompiles, hcompiles', hdocuments, hsame.2.2.2.1⟩

end StateLang
