import Mathlib.Data.Finset.Card
import StateLang.Proofs.Document.Decoding

/-!
# What the warnings of a program tell

Three scans look for what is suspicious, and each remembers something: the names
declared so far, the first initial state, the names of all states. Here a program
is suspicious at a site, with a warning that says why, and nothing is remembered.
The warnings are those of all suspicious sites, one each and in the order of the
sites, and they are the only list that is so.

The main statement is `resolve_warnings_exact`.
-/

namespace StateLang

def Warning.isDuplicate : Warning → Bool
  | duplicateDeclaration _ => true
  | _ => false

/-- What a warning may be about, by its place in the program. -/
inductive Site
  | declaration (i : Nat)
  | state (i : Nat)
  /-- Transition `j` of state `i`. -/
  | transition (i j : Nat)
  deriving DecidableEq, Repr

/-- Declarations first, then states, then transitions, each as the program has them. -/
def Site.Before : Site → Site → Prop
  | declaration i, declaration j => i < j
  | declaration _, _ => True
  | state i, state j => i < j
  | state _, transition _ _ => True
  | transition i j, transition i' j' => i < i' ∨ i = i' ∧ j < j'
  | _, _ => False

/-- The sites at which a program is suspicious, each with what there is to say. -/
inductive Program.Suspect (p : Program) : Site → Warning → Prop
  | repeated {i j : Nat} {d earlier : Declaration} (hd : p.declarations[i]? = some d) (hlt : j < i)
      (hearlier : p.declarations[j]? = some earlier) (hname : earlier.name.name = d.name.name) :
      Suspect p (.declaration i) (.duplicateDeclaration d.name.name)
  | extraInitial {i j : Nat} {s first : State} (hs : p.states[i]? = some s)
      (hinitial : s.isInitial = true) (hlt : j < i) (hfirst : p.states[j]? = some first)
      (hmarked : first.isInitial = true)
      (hnone : ∀ k t, k < j → p.states[k]? = some t → t.isInitial = false) :
      Suspect p (.state i) (.multipleInitialStates first.name.name s.name.name)
  | unknownTarget {i j : Nat} {s : State} {t : Transition} {target : Variable}
      (hs : p.states[i]? = some s) (ht : s.transitions[j]? = some t)
      (hgoto : t.destination = .goto target)
      (hnone : ∀ other ∈ p.states, other.name.name ≠ target.name) :
      Suspect p (.transition i j) (.unknownGotoTarget s.name.name target.name)

/-- One warning for each site of which there is something to say, in the order of the sites. -/
def Reports (Says : Site → Warning → Prop) (warnings : List Warning) : Prop :=
  ∃ sites : List (Site × Warning), warnings = sites.map Prod.snd ∧
    sites.Pairwise (fun a b => a.1.Before b.1) ∧ ∀ site w, (site, w) ∈ sites ↔ Says site w

theorem Site.Before.irrefl (site : Site) : ¬ site.Before site := by
  cases site <;> simp [Site.Before]

theorem Site.Before.asymm {site other : Site} (h : site.Before other) : ¬ other.Before site := by
  cases site <;> cases other <;> simp_all [Site.Before] <;> omega

namespace Reports

variable {Says Says' : Site → Warning → Prop} {ws ws' : List Warning}

theorem congr (h : Reports Says ws) (hiff : ∀ site w, Says site w ↔ Says' site w) :
    Reports Says' ws := by
  obtain ⟨sites, hws, hsorted, hmem⟩ := h
  exact ⟨sites, hws, hsorted, fun site w => (hmem site w).trans (hiff site w)⟩

theorem nil : Reports (fun _ _ => False) [] := ⟨[], rfl, .nil, by simp⟩

/-- A warning about one site, if there is something to say of it. -/
theorem ite (c : Prop) [Decidable c] (site : Site) (w : Warning) :
    Reports (fun site' w' => c ∧ site' = site ∧ w' = w) (if c then [w] else []) := by
  by_cases hc : c
  · exact ⟨[(site, w)], by simp [hc], List.pairwise_singleton _ _, by simp [hc]⟩
  · exact ⟨[], by simp [hc], .nil, by simp [hc]⟩

theorem append (h : Reports Says ws) (h' : Reports Says' ws')
    (hbefore : ∀ site site' w w', Says site w → Says' site' w' → site.Before site') :
    Reports (fun site w => Says site w ∨ Says' site w) (ws ++ ws') := by
  obtain ⟨sites, rfl, hsorted, hmem⟩ := h
  obtain ⟨sites', rfl, hsorted', hmem'⟩ := h'
  refine ⟨sites ++ sites', by simp, List.pairwise_append.mpr ⟨hsorted, hsorted', ?_⟩, ?_⟩
  · intro a ha b hb
    exact hbefore a.1 b.1 a.2 b.2 ((hmem _ _).mp ha) ((hmem' _ _).mp hb)
  · intro site w
    rw [List.mem_append, hmem, hmem']

/-- Warnings about the items of a list, if the sites of an item come before those of later ones. -/
theorem flatMap {α : Type} {xs : List α} {f : α → List Warning}
    {Says : Nat → α → Site → Warning → Prop} (h : ∀ i x, xs[i]? = some x → Reports (Says i x) (f x))
    (hbefore : ∀ i j x y site site' w w', i < j → Says i x site w → Says j y site' w' →
      site.Before site') :
    Reports (fun site w => ∃ i x, xs[i]? = some x ∧ Says i x site w) (xs.flatMap f) := by
  induction xs generalizing Says with
  | nil => exact nil.congr (by simp)
  | cons x xs ih =>
      have hrest := @ih (fun i => Says (i + 1)) (fun i y hy => h (i + 1) y hy)
        fun i j y z site site' w w' hlt => hbefore (i + 1) (j + 1) y z site site' w w' (by omega)
      rw [List.flatMap_cons]
      refine ((h 0 x rfl).append hrest ?_).congr fun site w => ?_
      · rintro site site' w w' hsite ⟨j, y, -, hsite'⟩
        exact hbefore 0 (j + 1) x y site site' w w' (Nat.succ_pos j) hsite hsite'
      · constructor
        · rintro (hsite | ⟨i, y, hy, hsite⟩)
          · exact ⟨0, x, rfl, hsite⟩
          · exact ⟨i + 1, y, hy, hsite⟩
        · rintro ⟨i, y, hy, hsite⟩
          cases i with
          | zero =>
              cases hy
              exact .inl hsite
          | succ i => exact .inr ⟨i, y, hy, hsite⟩

theorem mem_iff (h : Reports Says ws) {w : Warning} : w ∈ ws ↔ ∃ site, Says site w := by
  obtain ⟨sites, rfl, -, hmem⟩ := h
  constructor
  · intro hw
    obtain ⟨⟨site, _⟩, hsite, rfl⟩ := List.mem_map.mp hw
    exact ⟨site, (hmem _ _).mp hsite⟩
  · rintro ⟨site, hsays⟩
    exact List.mem_map.mpr ⟨(site, w), (hmem _ _).mpr hsays, rfl⟩

/-- What is to be said of each site settles the whole list. -/
theorem unique (h : Reports Says ws) (h' : Reports Says ws') : ws = ws' := by
  obtain ⟨sites, rfl, hsorted, hmem⟩ := h
  obtain ⟨sites', rfl, hsorted', hmem'⟩ := h'
  have hnodup {sites : List (Site × Warning)} (hsorted : sites.Pairwise fun a b => a.1.Before b.1) :
      sites.Nodup := by
    refine hsorted.imp fun {a b} hab heq => ?_
    subst heq
    exact Site.Before.irrefl _ hab
  have hperm : sites.Perm sites' := by
    refine (List.perm_ext_iff_of_nodup (hnodup hsorted) (hnodup hsorted')).mpr fun a => ?_
    exact (hmem a.1 a.2).trans (hmem' a.1 a.2).symm
  rw [hperm.eq_of_pairwise (fun a b _ _ hab hba => absurd hba hab.asymm) hsorted hsorted']

end Reports

namespace Program

variable (p : Program)

/-! ## Names declared more than once -/

theorem duplicateWarnings_congr {earlier earlier' : List String}
    (h : ∀ name, name ∈ earlier ↔ name ∈ earlier') (names : List String) :
    duplicateWarnings earlier names = duplicateWarnings earlier' names := by
  induction names generalizing earlier earlier' with
  | nil => rfl
  | cons name names ih =>
      have hcons : ∀ other, other ∈ name :: earlier ↔ other ∈ name :: earlier' := by simp [h]
      simp only [duplicateWarnings, h name, ih h, ih hcons]

/-- A name that is known already may be noted again. -/
theorem duplicateWarnings_cons (earlier : List String) (name : String) (names : List String) :
    duplicateWarnings earlier (name :: names) =
      (if name ∈ earlier then [.duplicateDeclaration name] else []) ++
        duplicateWarnings (name :: earlier) names := by
  by_cases hmem : name ∈ earlier
  · have hsame : ∀ other, other ∈ earlier ↔ other ∈ name :: earlier := by
      intro other
      rw [List.mem_cons, or_iff_right_of_imp]
      rintro rfl
      exact hmem
    simp [duplicateWarnings, hmem, duplicateWarnings_congr hsame]
  · simp [duplicateWarnings, hmem]

theorem duplicateWarnings_reports (earlier names : List String) (k : Nat) :
    Reports (fun site w => ∃ i name, names[i]? = some name ∧
      (name ∈ earlier ∨ name ∈ names.take i) ∧ site = .declaration (k + i) ∧
        w = .duplicateDeclaration name) (duplicateWarnings earlier names) := by
  induction names generalizing earlier k with
  | nil => exact Reports.nil.congr (by simp)
  | cons name names ih =>
      rw [duplicateWarnings_cons]
      refine ((Reports.ite (name ∈ earlier) (.declaration k) _).append
        (ih (name :: earlier) (k + 1)) ?_).congr fun site w => ?_
      · rintro _ _ w w' ⟨-, rfl, -⟩ ⟨i, other, -, -, rfl, -⟩
        change k < k + 1 + i
        omega
      · constructor
        · rintro (⟨hmem, rfl, rfl⟩ | ⟨i, other, hother, hmem, rfl, rfl⟩)
          · exact ⟨0, name, rfl, .inl hmem, rfl, rfl⟩
          · refine ⟨i + 1, other, hother, ?_, by rw [Nat.add_assoc, Nat.add_comm 1], rfl⟩
            rw [List.take_succ_cons, List.mem_cons]
            rcases hmem with hmem | hmem
            · exact (List.mem_cons.mp hmem).elim (fun h => .inr (.inl h)) .inl
            · exact .inr (.inr hmem)
        · rintro ⟨i, other, hother, hmem, rfl, rfl⟩
          cases i with
          | zero =>
              cases hother
              exact .inl ⟨by simpa using hmem, rfl, rfl⟩
          | succ i =>
              refine .inr ⟨i, other, hother, ?_, by rw [Nat.add_assoc, Nat.add_comm 1], rfl⟩
              rw [List.take_succ_cons, List.mem_cons] at hmem
              rw [List.mem_cons]
              tauto

/-- The names that are not said to be repeated are the distinct ones. -/
theorem duplicateWarnings_length (earlier names : List String) :
    (duplicateWarnings earlier names).length + (names.toFinset \ earlier.toFinset).card =
      names.length := by
  induction names generalizing earlier with
  | nil => simp [duplicateWarnings]
  | cons name names ih =>
      have hrest := ih (name :: earlier)
      rw [duplicateWarnings_cons, List.length_append, List.length_cons, ← hrest]
      rw [List.toFinset_cons, List.toFinset_cons]
      by_cases hmem : name ∈ earlier
      · have hknown : name ∈ earlier.toFinset := List.mem_toFinset.mpr hmem
        rw [Finset.insert_sdiff_of_mem _ hknown, Finset.insert_eq_of_mem hknown, if_pos hmem,
          List.length_singleton]
        omega
      · have hnew : name ∉ earlier.toFinset := fun h => hmem (List.mem_toFinset.mp h)
        have hcard := Finset.card_erase_add_one
          (Finset.mem_insert_self name (names.toFinset \ earlier.toFinset))
        rw [Finset.erase_insert_eq_erase] at hcard
        rw [Finset.insert_sdiff_of_notMem _ hnew, Finset.sdiff_insert, if_neg hmem, List.length_nil]
        omega

/-! ## Initial states after the first -/

theorem map_filter_eq_flatMap {α β : Type} (keep : α → Bool) (f : α → β) (xs : List α) :
    (xs.filter keep).map f = xs.flatMap fun x => if keep x = true then [f x] else [] := by
  induction xs with
  | nil => rfl
  | cons x xs ih => by_cases h : keep x = true <;> simp [h, ih]

/-- Of the initial states the first is the one that no initial state comes before. -/
theorem suspect_state_iff {p : Program} {before after : List State} {first : State}
    (hstates : p.states = before ++ first :: after)
    (hbefore : ∀ s ∈ before, ¬ s.isInitial = true) (hfirst : first.isInitial = true) (i : Nat)
    (w : Warning) : p.Suspect (.state i) w ↔ ∃ k s, after[k]? = some s ∧ s.isInitial = true ∧
      i = before.length + 1 + k ∧ w = .multipleInitialStates first.name.name s.name.name := by
  have hplace : p.states[before.length]? = some first := by simp [hstates]
  have hearly (k : Nat) (t : State) (hk : k < before.length) (ht : p.states[k]? = some t) :
      t.isInitial = false := by
    rw [hstates, List.getElem?_append_left hk] at ht
    exact Bool.eq_false_of_not_eq_true (hbefore t (List.mem_of_getElem? ht))
  have hlater (k : Nat) : p.states[before.length + 1 + k]? = after[k]? := by
    rw [hstates, List.getElem?_append_right (by omega)]
    rw [show before.length + 1 + k - before.length = k + 1 by omega, List.getElem?_cons_succ]
  constructor
  · intro h
    cases h with
    | @extraInitial _ j s other hs hinitial hlt hother hmarked hnone =>
        have hj : j = before.length := by
          rcases Nat.lt_trichotomy j before.length with hlt' | heq | hgt
          · rw [hearly j other hlt' hother] at hmarked
            contradiction
          · exact heq
          · rw [hnone before.length first hgt hplace] at hfirst
            contradiction
        obtain rfl : other = first := Option.some.inj ((hj ▸ hother).symm.trans hplace)
        obtain ⟨k, rfl⟩ : ∃ k, i = before.length + 1 + k := ⟨i - (before.length + 1), by omega⟩
        exact ⟨k, s, (hlater k) ▸ hs, hinitial, rfl, rfl⟩
  · rintro ⟨k, s, hs, hinitial, rfl, rfl⟩
    exact .extraInitial ((hlater k).trans hs) hinitial (by omega) hplace hfirst hearly

theorem initialWarnings_reports : Reports (fun site w => ∃ i, site = .state i ∧ p.Suspect site w)
    (initialWarnings p.states) := by
  unfold initialWarnings
  split
  · next hnone =>
      refine Reports.nil.congr fun site w => ⟨False.elim, ?_⟩
      rintro ⟨i, rfl, hsuspect⟩
      cases hsuspect with
      | @extraInitial _ _ s _ hs hinitial =>
          have hmem := List.mem_filter.mpr ⟨List.mem_of_getElem? hs, hinitial⟩
          rw [hnone] at hmem
          cases hmem
  · next first extras hfilter =>
      obtain ⟨before, after, hstates, hbefore, hfirst, rfl⟩ := List.filter_eq_cons_iff.mp hfilter
      rw [map_filter_eq_flatMap]
      refine (Reports.flatMap (fun i s _ => Reports.ite (s.isInitial = true)
        (.state (before.length + 1 + i)) _) ?_).congr fun site w => ?_
      · rintro i j s t site site' w w' hlt ⟨-, rfl, -⟩ ⟨-, rfl, -⟩
        change before.length + 1 + i < before.length + 1 + j
        omega
      · constructor
        · rintro ⟨i, s, hs, hinitial, rfl, rfl⟩
          exact ⟨_, rfl, (suspect_state_iff hstates hbefore hfirst _ _).mpr
            ⟨i, s, hs, hinitial, rfl, rfl⟩⟩
        · rintro ⟨_, rfl, hsuspect⟩
          obtain ⟨i, s, hs, hinitial, rfl, rfl⟩ :=
            (suspect_state_iff hstates hbefore hfirst _ _).mp hsuspect
          exact ⟨i, s, hs, hinitial, rfl, rfl⟩

/-! ## Targets that no state has -/

/-- A transition is looked at by itself, with the names of all states. -/
theorem transition_reports (names : List String) (i j : Nat) (state : String) (t : Transition) :
    Reports (fun site w => ∃ target, t.destination = .goto target ∧ target.name ∉ names ∧
        site = .transition i j ∧ w = .unknownGotoTarget state target.name)
      ((t.target?.toList.filter fun target => target.name ∉ names).map
        fun target => .unknownGotoTarget state target.name) := by
  unfold Transition.target?
  cases t.destination with
  | exit => exact Reports.nil.congr (by simp)
  | goto target =>
      rw [map_filter_eq_flatMap]
      simpa using Reports.ite (target.name ∉ names) (.transition i j)
        (.unknownGotoTarget state target.name)

theorem state_reports (names : List String) (i : Nat) (s : State) :
    Reports (fun site w => ∃ j t, s.transitions[j]? = some t ∧ ∃ target,
        t.destination = .goto target ∧ target.name ∉ names ∧ site = .transition i j ∧
          w = .unknownGotoTarget s.name.name target.name)
      (((s.transitions.filterMap (·.target?)).filter fun target => target.name ∉ names).map
        fun target => .unknownGotoTarget s.name.name target.name) := by
  rw [List.filterMap_eq_flatMap_toList, List.filter_flatMap, List.map_flatMap]
  refine Reports.flatMap (fun j t _ => transition_reports names i j s.name.name t) ?_
  rintro j j' t t' site site' w w' hlt ⟨_, -, -, rfl, -⟩ ⟨_, -, -, rfl, -⟩
  exact .inr ⟨rfl, hlt⟩

theorem targetWarnings_reports :
    Reports (fun site w => ∃ i j, site = .transition i j ∧ p.Suspect site w)
      (targetWarnings p.states) := by
  refine (Reports.flatMap (fun i s _ => state_reports (p.states.map (·.name.name)) i s)
    ?_).congr fun site w => ?_
  · rintro i i' s s' site site' w w' hlt ⟨_, _, -, _, -, -, rfl, -⟩ ⟨_, _, -, _, -, -, rfl, -⟩
    exact .inl hlt
  · constructor
    · rintro ⟨i, s, hs, j, t, ht, target, hgoto, hnone, rfl, rfl⟩
      exact ⟨i, j, rfl, .unknownTarget hs ht hgoto (by simpa using hnone)⟩
    · rintro ⟨_, _, rfl, hsuspect⟩
      cases hsuspect with
      | unknownTarget hs ht hgoto hnone =>
          exact ⟨_, _, hs, _, _, ht, _, hgoto, by simpa using hnone, rfl, rfl⟩

/-! ## All warnings -/

/-- A declaration is suspicious if its name is among those of the declarations before it. -/
theorem suspect_declaration_iff {p : Program} {i : Nat} {w : Warning} :
    p.Suspect (.declaration i) w ↔ ∃ name, p.declaredNames[i]? = some name ∧
      name ∈ p.declaredNames.take i ∧ w = .duplicateDeclaration name := by
  constructor
  · intro h
    cases h with
    | @repeated _ j d earlier hd hlt hearlier hname =>
        refine ⟨d.name.name, by simp [declaredNames, hd], ?_, rfl⟩
        rw [List.mem_iff_getElem?]
        exact ⟨j, by simp [declaredNames, hlt, hearlier, hname]⟩
  · rintro ⟨name, hname, hmem, rfl⟩
    obtain ⟨j, hj⟩ := List.mem_iff_getElem?.mp hmem
    rw [List.getElem?_take] at hj
    split at hj
    · next hlt =>
        simp only [declaredNames, List.getElem?_map, Option.map_eq_some_iff] at hname hj
        obtain ⟨d, hd, rfl⟩ := hname
        obtain ⟨earlier, hearlier, hsame⟩ := hj
        exact .repeated hd hlt hearlier hsame
    · cases hj

theorem declarations_reports : Reports (fun site w => ∃ i, site = .declaration i ∧ p.Suspect site w)
    (duplicateWarnings [] p.declaredNames) := by
  refine (duplicateWarnings_reports [] p.declaredNames 0).congr fun site w => ?_
  constructor
  · rintro ⟨i, name, hname, hmem, rfl, rfl⟩
    rw [Nat.zero_add]
    exact ⟨i, rfl, suspect_declaration_iff.mpr ⟨name, hname, by simpa using hmem, rfl⟩⟩
  · rintro ⟨i, rfl, hsuspect⟩
    obtain ⟨name, hname, hmem, rfl⟩ := suspect_declaration_iff.mp hsuspect
    exact ⟨i, name, hname, .inr hmem, by rw [Nat.zero_add], rfl⟩

theorem warnings_reports : Reports p.Suspect p.warnings := by
  refine ((p.declarations_reports.append p.initialWarnings_reports ?_).append
    p.targetWarnings_reports ?_).congr fun site w => ?_
  · rintro _ _ w w' ⟨i, rfl, -⟩ ⟨j, rfl, -⟩
    trivial
  · rintro _ _ w w' (⟨i, rfl, -⟩ | ⟨i, rfl, -⟩) ⟨j, k, rfl, -⟩ <;> trivial
  · constructor
    · rintro ((⟨_, -, h⟩ | ⟨_, -, h⟩) | ⟨_, _, -, h⟩) <;> exact h
    · intro h
      cases site with
      | declaration i => exact .inl (.inl ⟨i, rfl, h⟩)
      | state i => exact .inl (.inr ⟨i, rfl, h⟩)
      | transition i j => exact .inr ⟨i, j, rfl, h⟩

theorem countP_isDuplicate : p.warnings.countP Warning.isDuplicate + p.declaredNames.toFinset.card =
    p.declarations.length := by
  have hall : ∀ w ∈ duplicateWarnings [] p.declaredNames, w.isDuplicate = true := by
    intro w hw
    obtain ⟨_, i, rfl, hsuspect⟩ := p.declarations_reports.mem_iff.mp hw
    cases hsuspect
    rfl
  have hinitial : ∀ w ∈ initialWarnings p.states, ¬ w.isDuplicate = true := by
    intro w hw
    obtain ⟨_, i, rfl, hsuspect⟩ := p.initialWarnings_reports.mem_iff.mp hw
    cases hsuspect
    exact Bool.false_ne_true
  have htargets : ∀ w ∈ targetWarnings p.states, ¬ w.isDuplicate = true := by
    intro w hw
    obtain ⟨_, i, j, rfl, hsuspect⟩ := p.targetWarnings_reports.mem_iff.mp hw
    cases hsuspect
    exact Bool.false_ne_true
  have hlength := duplicateWarnings_length [] p.declaredNames
  rw [List.toFinset_nil, Finset.sdiff_empty, declaredNames, List.length_map] at hlength
  rw [warnings, List.countP_append, List.countP_append, List.countP_eq_length.mpr hall,
    List.countP_eq_zero.mpr hinitial, List.countP_eq_zero.mpr htargets]
  exact hlength

/-! ## The state that is used -/

theorem initialState?_of_mem {first extra : String}
    (h : .multipleInitialStates first extra ∈ p.warnings) :
    ∃ s, initialState? p.resolve.states = some s ∧ s.name.name = first := by
  obtain ⟨site, hsuspect⟩ := p.warnings_reports.mem_iff.mp h
  cases hsuspect with
  | @extraInitial _ j _ s _ _ hlt hs hmarked hnone =>
      have hfind : initialState? p.states = some s := by
        obtain ⟨hj, hget⟩ := List.getElem?_eq_some_iff.mp hs
        refine List.find?_eq_some_iff_getElem.mpr ⟨hmarked, j, hj, hget, fun k hk => ?_⟩
        rw [hnone k _ hk (List.getElem?_eq_getElem (Nat.lt_trans hk hj))]
        rfl
      refine ⟨s.locate p.symbols, ?_, rfl⟩
      rw [p.resolve_states, initialState?, List.find?_map]
      exact congrArg (Option.map _) hfind

/-! ## Nothing to warn of -/

theorem duplicateWarnings_eq_nil_iff : duplicateWarnings [] p.declaredNames = [] ↔
    p.declaredNames.Nodup := by
  have hlength := duplicateWarnings_length [] p.declaredNames
  rw [List.toFinset_nil, Finset.sdiff_empty] at hlength
  have hcard : p.declaredNames.toFinset.card = p.declaredNames.length ↔ p.declaredNames.Nodup :=
    @Multiset.toFinset_card_eq_card_iff_nodup _ _ (p.declaredNames : Multiset String)
  rw [← hcard, List.eq_nil_iff_length_eq_zero]
  omega

theorem initialWarnings_eq_nil_iff : initialWarnings p.states = [] ↔
    (p.states.filter (·.isInitial)).length ≤ 1 := by
  unfold initialWarnings
  split
  · next hnone => simp [hnone]
  · next first extras hfilter => simp [hfilter]

theorem targetWarnings_eq_nil_iff : targetWarnings p.states = [] ↔
    ∀ s ∈ p.states, ∀ t ∈ s.transitions, ∀ target, t.destination = .goto target →
      ∃ other ∈ p.states, other.name.name = target.name := by
  rw [List.eq_nil_iff_forall_not_mem]
  constructor
  · intro h s hs t ht target hgoto
    obtain ⟨i, hi⟩ := List.mem_iff_getElem?.mp hs
    obtain ⟨j, hj⟩ := List.mem_iff_getElem?.mp ht
    by_contra hnone
    have hsuspect : p.Suspect (.transition i j) (.unknownGotoTarget s.name.name target.name) :=
      .unknownTarget hi hj hgoto fun other hother hname => hnone ⟨other, hother, hname⟩
    exact h _ (p.targetWarnings_reports.mem_iff.mpr ⟨.transition i j, i, j, rfl, hsuspect⟩)
  · intro h w hw
    obtain ⟨_, i, j, rfl, hsuspect⟩ := p.targetWarnings_reports.mem_iff.mp hw
    cases hsuspect with
    | unknownTarget hs ht hgoto hnone =>
        obtain ⟨other, hother, hname⟩ :=
          h _ (List.mem_of_getElem? hs) _ (List.mem_of_getElem? ht) _ hgoto
        exact hnone other hother hname

end Program

theorem Resolved.mainFunction_of_initial (r : Resolved) {s : State}
    (h : initialState? r.states = some s) :
    ∃ opening, r.mainFunction =
      opening ++ ("\tmachine->" ++ s.name.name ++ "();\n\n\treturn 0;\n\x7d\n") := by
  have hopening : "\tmachine->" = "\t" ++ "machine->" := by decide
  have hclosing : "();\n\n\treturn 0;\n\x7d\n" =
      "();" ++ "\n\n" ++ "\treturn 0;\n" ++ "\x7d\n" := by decide
  unfold mainFunction
  rw [initialCall_of_some h, hopening, hclosing]
  simp only [← String.append_assoc]
  exact ⟨_, rfl⟩

open Program in
/-- The warnings of a program are those of its suspicious sites, one each and in order, and no other
list is so. There is one for each declaration beyond the distinct names. Where several states are
initial, the one said to be used is the one that the main function starts the machine in. There is
nothing to warn of exactly if names are declared once, at most one state is initial and every
transition goes to a state. -/
theorem resolve_warnings_exact (p : Program) :
    (∀ ws, Reports p.Suspect ws ↔ ws = p.resolve.warnings) ∧
    p.resolve.warnings.countP Warning.isDuplicate + p.declaredNames.toFinset.card =
      p.declarations.length ∧
    (∀ first extra, .multipleInitialStates first extra ∈ p.resolve.warnings →
      ∃ s opening, initialState? p.resolve.states = some s ∧ s.name.name = first ∧
        p.resolve.mainFunction =
          opening ++ ("\tmachine->" ++ first ++ "();\n\n\treturn 0;\n\x7d\n")) ∧
    (p.resolve.warnings = [] ↔ p.declaredNames.Nodup ∧
      (p.states.filter (·.isInitial)).length ≤ 1 ∧
      ∀ s ∈ p.states, ∀ t ∈ s.transitions, ∀ target, t.destination = .goto target →
        ∃ other ∈ p.states, other.name.name = target.name) := by
  have hreports : Reports p.Suspect p.resolve.warnings := p.warnings_reports
  refine ⟨fun ws => ⟨fun h => h.unique hreports, fun h => h ▸ hreports⟩, p.countP_isDuplicate,
    ?_, ?_⟩
  · intro first extra hmem
    obtain ⟨s, hs, rfl⟩ := p.initialState?_of_mem hmem
    obtain ⟨opening, hopening⟩ := p.resolve.mainFunction_of_initial hs
    exact ⟨s, opening, hs, rfl, hopening⟩
  · have hsplit : p.resolve.warnings = duplicateWarnings [] p.declaredNames ++
        initialWarnings p.states ++ targetWarnings p.states := rfl
    rw [hsplit, List.append_eq_nil_iff, List.append_eq_nil_iff, p.duplicateWarnings_eq_nil_iff,
      p.initialWarnings_eq_nil_iff, p.targetWarnings_eq_nil_iff, and_assoc]

/-- One name is declared three times, two of three states are initial, and the targets are a state,
no state, and a name that is only declared. -/
theorem resolve_warnings_exact_repeated :
    let goto (name : String) : Transition := ⟨.const .bool "true", [], .goto (.ofName name)⟩
    let p : Program := ⟨.ofName "M", .ofName "P",
      [⟨.int, .ofName "x"⟩, ⟨.int, .ofName "y"⟩, ⟨.char, .ofName "x"⟩, ⟨.int, .ofName "x"⟩],
      [⟨.ofName "A", [goto "B", goto "D"], false⟩, ⟨.ofName "B", [], true⟩,
        ⟨.ofName "C", [goto "x"], true⟩]⟩
    p.resolve.warnings = [.duplicateDeclaration "x", .duplicateDeclaration "x",
      .multipleInitialStates "B" "C", .unknownGotoTarget "A" "D", .unknownGotoTarget "C" "x"] ∧
    Reports p.Suspect p.resolve.warnings ∧
    ∃ s opening, initialState? p.resolve.states = some s ∧ s.name.name = "B" ∧
      p.resolve.mainFunction =
        opening ++ ("\tmachine->" ++ "B" ++ "();\n\n\treturn 0;\n\x7d\n") := by
  intro goto p
  have hwarnings : p.resolve.warnings = [.duplicateDeclaration "x", .duplicateDeclaration "x",
      .multipleInitialStates "B" "C", .unknownGotoTarget "A" "D", .unknownGotoTarget "C" "x"] := by
    decide
  obtain ⟨hreports, -, hused, -⟩ := resolve_warnings_exact p
  exact ⟨hwarnings, (hreports _).mpr rfl, hused "B" "C" (by simp [hwarnings])⟩

end StateLang
