import StateLang.Proofs.Program.Mentions

/-!
# What resolving puts into a program

Resolving writes an origin on every variable in an assignment or a guard, and on
nothing else. So the program is got back by erasing origins, names of states and
targets of transitions keep none, and the assertion that a variable has no
origin yet is made of each use once and never fails. The origin is read off the
symbols, which are the declared names in increasing order.

The main statement is `resolve_resolution`.
-/

namespace StateLang

/-! ## Symbols -/

theorem name_lt_of_not_lt {name other : String} (hlt : ¬ name < other) (hne : name ≠ other) :
    other < name := by
  refine Decidable.byContradiction fun hother => hne ?_
  exact String.le_antisymm (String.not_lt.mp hother) (String.not_lt.mp hlt)

theorem mem_insertName {name other : String} {names : List String} :
    other ∈ insertName name names ↔ other = name ∨ other ∈ names := by
  fun_induction insertName name names with
  | case1 => simp
  | case2 first rest hlt => simp
  | case3 rest hlt => simp
  | case4 first rest hlt hne ih => simp [ih, or_left_comm]

theorem insertName_increasing {name : String} {names : List String}
    (h : names.Pairwise (· < ·)) : (insertName name names).Pairwise (· < ·) := by
  fun_induction insertName name names with
  | case1 => exact List.pairwise_singleton _ _
  | case2 first rest hlt =>
      have hrest := (List.pairwise_cons.mp h).1
      refine List.pairwise_cons.mpr ⟨fun other hother => ?_, h⟩
      cases hother with
      | head => exact hlt
      | tail _ hother => exact String.lt_trans hlt (hrest other hother)
  | case3 rest hlt => exact h
  | case4 first rest hlt hne ih =>
      obtain ⟨hfirst, hrest⟩ := List.pairwise_cons.mp h
      refine List.pairwise_cons.mpr ⟨fun other hother => ?_, ih hrest⟩
      rcases mem_insertName.mp hother with rfl | hother
      · exact name_lt_of_not_lt hlt hne
      · exact hfirst other hother

namespace Program

variable (p : Program)

theorem symbols_spec : p.symbols.Pairwise (· < ·) ∧
    ∀ name, name ∈ p.symbols ↔ name ∈ p.declaredNames := by
  -- the symbols so far stand for any increasing list, so that the fold can be followed
  have hfold (names : List String) : ∀ symbols : List String, symbols.Pairwise (· < ·) →
      (names.foldl (fun names name => insertName name names) symbols).Pairwise (· < ·) ∧
        ∀ name, name ∈ names.foldl (fun names name => insertName name names) symbols ↔
          name ∈ names ∨ name ∈ symbols := by
    induction names with
    | nil => exact fun symbols h => ⟨h, by simp⟩
    | cons name names ih =>
        intro symbols h
        obtain ⟨hincreasing, hmem⟩ := ih _ (insertName_increasing h)
        refine ⟨hincreasing, fun other => (hmem other).trans ?_⟩
        rw [mem_insertName, List.mem_cons, or_left_comm, or_assoc]
  obtain ⟨hincreasing, hmem⟩ := hfold p.declaredNames [] List.Pairwise.nil
  exact ⟨hincreasing, fun name => (hmem name).trans (by simp)⟩

end Program

/-! ## Erasing origins -/

def Variable.erased (v : Variable) : Variable := .ofName v.name

def Expr.erased : Expr → Expr
  | const kind text => const kind text
  | var v => var v.erased
  | binary op left right => binary op left.erased right.erased

def Assignment.erased (a : Assignment) : Assignment := ⟨a.target.erased, a.value.erased⟩

def Destination.erased : Destination → Destination
  | goto target => goto target.erased
  | exit => exit

def Transition.erased (t : Transition) : Transition :=
  ⟨t.guard.erased, t.body.map (·.erased), t.destination.erased⟩

def State.erased (s : State) : State :=
  ⟨s.name.erased, s.transitions.map (·.erased), s.isInitial⟩

namespace Mention

/-- A name that is mentioned has no origin yet. -/
def Unresolved : Mention → Prop
  | name v => v.origin = .unresolved
  | constant _ _ => True

instance : DecidablePred Unresolved
  | name v => inferInstanceAs (Decidable (v.origin = .unresolved))
  | constant _ _ => isTrue trivial

end Mention

/-- Every name that is read is without an origin. -/
theorem Program.parse_unresolved {source : String} {p : Program}
    (h : Program.parse source = .ok p) : ∀ m ∈ p.mentions, m.Unresolved := by
  intro m hm
  rw [← Program.parse_mentions h] at hm
  obtain ⟨t, -, ht⟩ := List.mem_filterMap.mp hm
  rcases Token.mention?_cases ht with ⟨-, rfl⟩ | ⟨_, -, rfl⟩
  · rfl
  · trivial

section Erased

variable {names : List String}

theorem Variable.erased_eq {v : Variable} (h : v.origin = .unresolved) : v.erased = v := by
  unfold Variable.erased Variable.ofName
  rw [← h]

theorem Variable.erased_locate {v : Variable} (h : v.origin = .unresolved) :
    (v.locate names).erased = v :=
  Variable.erased_eq h

theorem Expr.erased_locate {e : Expr} (h : ∀ m ∈ e.mentions, m.Unresolved) :
    (e.locate names).erased = e := by
  induction e with
  | const kind text => rfl
  | var v => rw [Expr.locate, Expr.erased, Variable.erased_locate (h _ List.mem_cons_self)]
  | binary op left right ihl ihr =>
      obtain ⟨hleft, hright⟩ := List.forall_mem_append.mp h
      rw [Expr.locate, Expr.erased, ihl hleft, ihr hright]

theorem map_erased_locate {α : Type} {locate erased : α → α} {mentions : α → List Mention}
    (h : ∀ a, (∀ m ∈ mentions a, m.Unresolved) → erased (locate a) = a) {as : List α}
    (has : ∀ m ∈ as.flatMap mentions, m.Unresolved) : (as.map locate).map erased = as := by
  rw [List.map_map]
  refine (List.map_congr_left fun a ha => ?_).trans (List.map_id as)
  exact h a fun m hm => has m (List.mem_flatMap.mpr ⟨a, ha, hm⟩)

theorem Assignment.erased_locate (a : Assignment) (h : ∀ m ∈ a.mentions, m.Unresolved) :
    (a.locate names).erased = a := by
  obtain ⟨htarget, hvalue⟩ := List.forall_mem_cons.mp h
  rw [Assignment.locate, Assignment.erased, Variable.erased_locate htarget,
    Expr.erased_locate hvalue]

theorem Destination.erased_eq {d : Destination} (h : ∀ m ∈ d.mentions, m.Unresolved) :
    d.erased = d := by
  cases d with
  | goto target => rw [Destination.erased, Variable.erased_eq (h _ List.mem_cons_self)]
  | exit => rfl

theorem Transition.erased_locate (t : Transition) (h : ∀ m ∈ t.mentions, m.Unresolved) :
    (t.locate names).erased = t := by
  obtain ⟨hdestination, h⟩ := List.forall_mem_append.mp h
  obtain ⟨hguard, hbody⟩ := List.forall_mem_append.mp h
  simp only [Transition.locate, Transition.erased, Expr.erased_locate hguard,
    map_erased_locate Assignment.erased_locate hbody, Destination.erased_eq hdestination]

theorem State.erased_locate (s : State) (h : ∀ m ∈ s.mentions, m.Unresolved) :
    (s.locate names).erased = s := by
  obtain ⟨hname, htransitions⟩ := List.forall_mem_cons.mp h
  simp only [State.locate, State.erased, Variable.erased_eq hname,
    map_erased_locate Transition.erased_locate htransitions]

end Erased

/-! ## Uses are mentions -/

section Uses

variable {v : Variable}

theorem Expr.mem_mentions {e : Expr} (h : v ∈ e.vars) : .name v ∈ e.mentions := by
  induction e with
  | const kind text => cases h
  | var use =>
      cases List.mem_singleton.mp h
      exact List.mem_cons_self
  | binary op left right ihl ihr =>
      exact List.mem_append.mpr ((List.mem_append.mp h).imp ihl ihr)

theorem Assignment.mem_mentions {a : Assignment} (h : v ∈ a.uses) : .name v ∈ a.mentions := by
  cases h with
  | head => exact List.mem_cons_self
  | tail _ hvalue => exact List.mem_cons_of_mem _ (Expr.mem_mentions hvalue)

theorem Transition.mem_mentions {t : Transition} (h : v ∈ t.uses) : .name v ∈ t.mentions := by
  refine List.mem_append_right _ (List.mem_append.mpr ?_)
  rcases List.mem_append.mp h with hbody | hguard
  · obtain ⟨a, ha, hv⟩ := List.mem_flatMap.mp hbody
    exact .inr (List.mem_flatMap.mpr ⟨a, ha, Assignment.mem_mentions hv⟩)
  · exact .inl (Expr.mem_mentions hguard)

theorem State.mem_mentions {s : State} (h : v ∈ s.uses) : .name v ∈ s.mentions := by
  obtain ⟨t, ht, hv⟩ := List.mem_flatMap.mp h
  exact List.mem_cons_of_mem _ (List.mem_flatMap.mpr ⟨t, ht, Transition.mem_mentions hv⟩)

end Uses

namespace Program

variable {p : Program}

theorem mem_mentions_of_target {v : Variable} (h : v ∈ p.targets) : .name v ∈ p.mentions := by
  obtain ⟨s, hs, hv⟩ := List.mem_flatMap.mp h
  obtain ⟨t, ht, htarget⟩ := List.mem_filterMap.mp hv
  have hmention : .name v ∈ t.mentions := by
    unfold Transition.target? at htarget
    unfold Transition.mentions
    split at htarget
    · next target hdestination =>
        cases htarget
        rw [hdestination]
        exact List.mem_cons_self
    · cases htarget
  refine mem_mentions_of_state hs (List.mem_cons_of_mem _ ?_)
  exact List.mem_flatMap.mpr ⟨t, ht, hmention⟩

end Program

/-! ## Assertions -/

namespace Program

variable {p : Program}

/-- Where no use has an origin, the assertions all hold. -/
theorem resolveChecked_eq_ok (h : ∀ v ∈ p.states.flatMap (·.uses), v.origin = .unresolved) :
    p.resolveChecked = .ok p.resolve := by
  have hassert (vs : List Variable) (hvs : ∀ v ∈ vs, v.origin = .unresolved) :
      forM vs Variable.assertUnresolved = .ok () := by
    induction vs with
    | nil => rfl
    | cons v vs ih =>
        obtain ⟨hv, hvs⟩ := List.forall_mem_cons.mp hvs
        rw [List.forM_cons, Variable.assertUnresolved, if_pos hv]
        exact ih hvs
  rw [resolveChecked, resolveWith_eq, hassert _ h, resolve_eq]
  rfl

/-- A program that has been resolved is refused, at its first use. -/
theorem resolveChecked_resolve {v : Variable} {vs : List Variable}
    (h : p.states.flatMap (·.uses) = v :: vs) : p.resolve.resolveChecked =
      .error ("variable `" ++ v.name ++ "` resolved twice") := by
  have huses : p.resolve.states.flatMap (·.uses) = (v :: vs).map (·.locate p.symbols) := by
    rw [resolve_states, List.flatMap_map, ← h, List.map_flatMap]
    simp only [State.uses_locate]
  rw [resolveChecked, resolveWith_eq, huses, List.map_cons, List.forM_cons,
    Variable.assertUnresolved, if_neg (v.locate_origin _)]
  rfl

end Program

/-! ## Resolution -/

/-- `r` is `p` with an origin on every use and nothing else changed. -/
structure Resolution (p : Program) (r : Resolved) : Prop where
  name : r.name = p.name
  platform : r.platform = p.platform
  declarations : r.declarations = p.declarations
  states : r.states.map (·.erased) = p.states
  /-- A declared name belongs to the machine, any other to the platform. -/
  origins : ∀ s ∈ r.states, ∀ v ∈ s.uses,
    v.origin = if v.name ∈ p.declaredNames then .machine else .platform
  stateNames : ∀ s ∈ r.states, s.name.origin = .unresolved
  targets : ∀ v ∈ r.targets, v.origin = .unresolved
  /-- What is asserted of a use that gets its origin is asserted of each use of `p` once. -/
  marked : ∀ {m : Type → Type} [Monad m] [LawfulMonad m] (assertion : Variable → m Unit),
    p.resolveWith assertion = (do forM (p.states.flatMap (·.uses)) assertion; pure r)
  /-- No use has an origin when it gets one. -/
  checked : p.resolveChecked = .ok r
  counts : r.counts =
    ⟨p.declarations.length, p.states.length, (p.states.flatMap (·.uses)).length⟩
  increasing : r.symbols.Pairwise (· < ·)
  symbols : ∀ name, name ∈ r.symbols ↔ name ∈ p.declaredNames

/-- Resolving a program without origins gives every use the right one, once, and changes nothing
else. -/
theorem resolve_resolution {p : Program} (h : ∀ m ∈ p.mentions, m.Unresolved) :
    Resolution p p.resolve := by
  have hstate (s : State) (hs : s ∈ p.states) : ∀ m ∈ s.mentions, m.Unresolved :=
    fun m hm => h m (Program.mem_mentions_of_state hs hm)
  obtain ⟨hincreasing, hsymbols⟩ := p.symbols_spec
  refine ⟨rfl, rfl, rfl, ?_, ?_, ?_, ?_, ?_, ?_, ?_, hincreasing, hsymbols⟩
  · rw [p.resolve_states]
    refine map_erased_locate State.erased_locate fun m hm => ?_
    obtain ⟨s, hs, hm⟩ := List.mem_flatMap.mp hm
    exact hstate s hs m hm
  · intro s hs v hv
    rw [p.resolve_states] at hs
    obtain ⟨state, -, rfl⟩ := List.mem_map.mp hs
    rw [State.uses_locate] at hv
    obtain ⟨use, -, rfl⟩ := List.mem_map.mp hv
    simp only [Variable.locate, hsymbols]
  · intro s hs
    rw [p.resolve_states] at hs
    obtain ⟨state, hstates, rfl⟩ := List.mem_map.mp hs
    exact hstate state hstates _ List.mem_cons_self
  · intro v hv
    rw [p.resolve_targets] at hv
    exact h _ (Program.mem_mentions_of_target hv)
  · intro m _ _ assertion
    rw [p.resolveWith_eq, p.resolve_eq]
  · refine Program.resolveChecked_eq_ok fun v hv => ?_
    obtain ⟨s, hs, hv⟩ := List.mem_flatMap.mp hv
    exact hstate s hs _ (State.mem_mentions hv)
  · rw [← p.resolve_variableUses]
    rfl

/-- `i` is declared twice, and it is also a state and a target. Its first use would fail a second
assertion. -/
theorem resolve_resolution_shared_name :
    let source := "name: M; platform: P; int i; int b; int i; " ++
      "state: i \x7b goto i when i < k performing \x7b i := i + 1; \x7d; \x7d"
    ∃ p, Program.parse source = .ok p ∧ (∀ m ∈ p.mentions, m.Unresolved) ∧
      Resolution p p.resolve ∧ p.resolve.symbols = ["b", "i"] ∧
      p.resolve.states.flatMap (·.uses) =
        [⟨"i", .machine⟩, ⟨"i", .machine⟩, ⟨"i", .machine⟩, ⟨"k", .platform⟩] ∧
      p.resolveChecked = .ok p.resolve ∧
      p.resolve.resolveChecked = .error "variable `i` resolved twice" := by
  intro source
  have hparse : Program.parse source = .ok ⟨.ofName "M", .ofName "P",
      [⟨.int, .ofName "i"⟩, ⟨.int, .ofName "b"⟩, ⟨.int, .ofName "i"⟩],
      [⟨.ofName "i", [⟨.binary (.compare .lt) (.var (.ofName "i")) (.var (.ofName "k")),
        [⟨.ofName "i", .binary (.arith .add) (.var (.ofName "i")) (.const .int "1")⟩],
        .goto (.ofName "i")⟩], false⟩]⟩ :=
    Parser.ok_of_toOption (by decide +kernel)
  have hunresolved := Program.parse_unresolved hparse
  have hresolution := resolve_resolution hunresolved
  exact ⟨_, hparse, hunresolved, hresolution, by decide, by decide, hresolution.checked,
    (Program.resolveChecked_resolve rfl).trans rfl⟩

end StateLang
