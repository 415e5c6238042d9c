import StateLang.Proofs.Fault
import StateLang.Proofs.Program.Reading

/-!
# A rule reads only what it passes

What a rule does is settled by the tokens that it passes and the one at which it
stops: wherever they are ahead, the rule gives the same answer or the same fault
and stops at the same token. The height noted before the rule has no say, since
every expression notes its own before it is read. Neither has the length of the
list: its fuel is never used up, because an item passes a token.
-/

namespace StateLang.Parser

variable {α β : Type} {p q r m : Parser} {depth : Nat}

/-- An answer or a fault that leaves the parser at `q`. -/
def leaving (outcome : Except Fault α) (q : Parser) : EStateM.Result Fault Parser α :=
  match outcome with
  | .ok a => .ok a q
  | .error fault => .error fault q

/-- Wherever `ts` and then `t` are ahead, the rule passes `ts` and has this outcome. -/
def Settles (depth : Nat) (rule : ParseM α) (ts : List Token) (t : Token)
    (outcome : Except Fault α) : Prop :=
  ∀ r rest, r.Ready depth → r.ahead = ts ++ t :: rest →
    ∃ q, rule r = leaving outcome q ∧ r.Crosses ts q

/-- What is ahead of `p` starts with tokens that settle the rule. -/
def SettledAt (depth : Nat) (rule : ParseM α) (p : Parser) : Prop :=
  ∃ ts t rest outcome, p.ahead = ts ++ t :: rest ∧ Settles depth rule ts t outcome

/-- A rule that is settled by the tokens it passes and the one at which it stops. -/
def Local (depth : Nat) (rule : ParseM α) : Prop := ∀ p, p.Ready depth → SettledAt depth rule p

/-! ## Rules put together -/

theorem bind_congr {x : ParseM α} {f g : α → ParseM β}
    (h : ∀ a m, x p = .ok a m → f a m = g a m) : (x >>= f) p = (x >>= g) p := by
  cases hx : x p with
  | ok a m => rw [bind_of_ok hx, bind_of_ok hx, h a m hx]
  | error fault m => rw [bind_error_iff.mpr (.inl hx), bind_error_iff.mpr (.inl hx)]

theorem bind_congr_left {x y : ParseM α} (f : α → ParseM β) (h : x p = y p) :
    (x >>= f) p = (y >>= f) p := by
  change EStateM.bind x f p = EStateM.bind y f p
  unfold EStateM.bind
  rw [h]

namespace SettledAt

theorem congr {rule rule' : ParseM α} (h : SettledAt depth rule p)
    (heq : ∀ r, r.Ready depth → rule' r = rule r) : SettledAt depth rule' p := by
  obtain ⟨ts, t, rest, outcome, hahead, hsettles⟩ := h
  refine ⟨ts, t, rest, outcome, hahead, ?_⟩
  intro r rest' hr hr'
  rw [heq r hr]
  exact hsettles r rest' hr hr'

/-- The rule at `p` itself. -/
theorem exists_crosses {rule : ParseM α} (h : SettledAt depth rule p) (hp : p.Ready depth) :
    ∃ ts outcome q, rule p = leaving outcome q ∧ p.Crosses ts q := by
  obtain ⟨ts, t, rest, outcome, hahead, hsettles⟩ := h
  obtain ⟨q, hq, hc⟩ := hsettles p rest hp hahead
  exact ⟨ts, outcome, q, hq, hc⟩

/-- A rule that stays where it is and looks at the current token only. -/
theorem stay {rule : ParseM α} (outcome : Token → Except Fault α)
    (hrule : ∀ r, ∃ h, rule r = leaving (outcome r.current) { r with height := h }) (p : Parser) :
    SettledAt depth rule p := by
  refine ⟨[], p.current, p.upcoming, outcome p.current, rfl, ?_⟩
  intro r rest hr hahead
  obtain ⟨h, hh⟩ := hrule r
  have hcurrent : r.current = p.current := (List.cons.inj hahead).1
  refine ⟨{ r with height := h }, ?_, (Crosses.refl r).withHeight h⟩
  rw [hh, hcurrent]

theorem bind {x : ParseM α} {f : α → ParseM β} (hp : p.Ready depth) (hx : SettledAt depth x p)
    (hf : ∀ a m, x p = .ok a m → m.Ready depth → SettledAt depth (f a) m) :
    SettledAt depth (x >>= f) p := by
  obtain ⟨xs, t, rest, outcome, hahead, hsettles⟩ := hx
  obtain ⟨m, hm, hcm⟩ := hsettles p rest hp hahead
  cases outcome with
  | error fault =>
      refine ⟨xs, t, rest, .error fault, hahead, ?_⟩
      intro r rest' hr hr'
      obtain ⟨q, hq, hc⟩ := hsettles r rest' hr hr'
      exact ⟨q, bind_error_iff.mpr (.inl hq), hc⟩
  | ok a =>
      obtain ⟨ys, u, rest', outcome, hahead', hsettles'⟩ := hf a m hm (hcm.ready hp)
      -- the first rule stops at the token with which the second one starts
      have hmiddle : t :: rest = ys ++ u :: rest' := by
        rw [← hahead']
        exact List.append_cancel_left (hahead.symm.trans hcm.ahead)
      obtain ⟨tail, htail⟩ : ∃ tail, ∀ zs, ys ++ u :: zs = t :: (tail ++ zs) := by
        cases ys with
        | nil => exact ⟨[], fun zs => by rw [(List.cons.inj hmiddle).1]; rfl⟩
        | cons y ys => exact ⟨ys ++ [u], fun zs => by rw [(List.cons.inj hmiddle).1]; simp⟩
      refine ⟨xs ++ ys, u, rest', outcome, ?_, ?_⟩
      · rw [hahead, hmiddle, List.append_assoc]
      · intro r zs hr hr'
        rw [List.append_assoc] at hr'
        obtain ⟨m', hm', hcm'⟩ := hsettles r (tail ++ zs) hr (by rw [hr', htail])
        have hrest : m'.ahead = ys ++ u :: zs :=
          List.append_cancel_left (hcm'.ahead.symm.trans hr')
        obtain ⟨q, hq, hc⟩ := hsettles' m' zs (hcm'.ready hr) hrest
        exact ⟨q, (bind_of_ok hm').trans hq, hcm'.trans hc⟩

/-- A rule after which the height is asked for, where the answer tells the height. -/
theorem bindHeight {x : ParseM α} (f : α → Nat → ParseM β) {height : α → Nat}
    (hp : p.Ready depth) (hx : SettledAt depth x p)
    (hheight : ∀ r a q, r.Ready depth → x r = .ok a q → q.height = height a)
    (hf : ∀ a m, m.Ready depth → SettledAt depth (f a (height a)) m) :
    SettledAt depth (x >>= fun a => get >>= fun s => f a s.height) p := by
  have htold : SettledAt depth (x >>= fun a => f a (height a)) p :=
    bind hp hx fun a m _ hm => hf a m hm
  refine htold.congr fun r hr => bind_congr fun a q hok => ?_
  rw [← hheight r a q hr hok]
  rfl

end SettledAt

namespace Local

theorem pure (a : α) : Local depth (pure a) :=
  fun p _ => .stay (fun _ => .ok a) (fun r => ⟨r.height, rfl⟩) p

theorem peek : Local depth peek :=
  fun p _ => .stay (fun t => .ok t) (fun r => ⟨r.height, rfl⟩) p

theorem failExpected (expected : String) : Local depth (failExpected expected : ParseM α) :=
  fun p _ => .stay (fun t => .error (.mismatch expected t)) (fun r => ⟨r.height, rfl⟩) p

theorem failTooDeep : Local depth (failTooDeep : ParseM α) :=
  fun p _ => .stay (fun t => .error (.grammar "a less deeply nested expression" t.description t.pos))
    (fun r => ⟨r.height, rfl⟩) p

theorem throwInternal (detail : String) : Local depth (throw (.internal detail) : ParseM α) :=
  fun p _ => .stay (fun _ => .error (.internal detail)) (fun r => ⟨r.height, rfl⟩) p

theorem setHeight (height : Nat) : Local depth (setHeight height) :=
  fun p _ => .stay (fun _ => .ok ()) (fun _ => ⟨height, rfl⟩) p

theorem advance : Local depth advance := by
  intro p hp
  by_cases hend : p.current.kind = .endOfFile
  · refine ⟨[], p.current, p.upcoming, .ok p.current, rfl, ?_⟩
    intro r rest hr hahead
    have hcurrent : r.current = p.current := (List.cons.inj hahead).1
    refine ⟨r, ?_, .refl r⟩
    change EStateM.Result.ok r.current r.next = _
    rw [next_of_end (hcurrent ▸ hend), hcurrent]
    rfl
  · have hnext := (next_crosses hp hend).ahead
    refine ⟨[p.current], p.next.current, p.next.upcoming, .ok p.current, hnext, ?_⟩
    intro r rest hr hahead
    have hcurrent : r.current = p.current := (List.cons.inj hahead).1
    refine ⟨r.next, ?_, hcurrent ▸ next_crosses hr (hcurrent ▸ hend)⟩
    change EStateM.Result.ok r.current r.next = _
    rw [hcurrent]
    rfl

theorem bind {x : ParseM α} {f : α → ParseM β} (hx : Local depth x)
    (hf : ∀ a, Local depth (f a)) : Local depth (x >>= f) :=
  fun p hp => .bind hp (hx p hp) fun a m _ hm => hf a m hm

theorem expect (kind : Token.Kind) : Local depth (expect kind) := by
  refine bind peek fun t => ?_
  split
  · exact advance
  · exact failExpected _

theorem keyword (word : Keyword) : Local depth (expectKeyword word) :=
  bind (expect _) fun _ => pure _

theorem mark (mark : Punctuation) : Local depth (expectMark mark) :=
  bind (expect _) fun _ => pure _

theorem expectEnd : Local depth expectEnd := bind (expect _) fun _ => pure _

theorem identifier : Local depth identifier := bind (expect _) fun _ => pure _

theorem accept (kind : Token.Kind) : Local depth (accept kind) := by
  refine bind peek fun t => ?_
  split
  · exact bind advance fun _ => pure _
  · exact pure _

theorem nested {rule : ParseM α} (hrule : Local (depth + 1) rule) : Local depth (nested rule) := by
  intro p hp
  obtain ⟨ts, t, rest, outcome, hahead, hsettles⟩ := hrule _ hp.deeper
  refine ⟨ts, t, rest, outcome, hahead, ?_⟩
  intro r rest' hr hr'
  obtain ⟨q, hq, hc⟩ := hsettles _ rest' hr.deeper hr'
  have hnesting : q.nesting - 1 = r.nesting := by simp [hc.nesting]
  refine ⟨{ q with nesting := q.nesting - 1 }, ?_, ⟨hc.passed, hc.ahead, hnesting, hc.inside⟩⟩
  unfold Parser.nested
  rw [hq]
  cases outcome <;> rfl

end Local

/-! ## Lists -/

/-- A rule that passes a token if it succeeds. -/
def Moves (depth : Nat) (rule : ParseM α) : Prop :=
  ∀ ⦃p a q⦄, p.Ready depth → rule p = .ok a q → ∃ t ts, p.Crosses (t :: ts) q

theorem Reads.moves {rule : ParseM α} {Phrase : List Token → α → Prop}
    {Follow : Token.Kind → Prop} (h : Reads depth rule Phrase Follow)
    (hphrase : ∀ ts a, Phrase ts a → ts ≠ []) : Moves depth rule := by
  intro p a q hp hok
  obtain ⟨ts, hc, hts, -⟩ := h.sound hp hok
  obtain ⟨t, rest, rfl⟩ := List.exists_cons_of_ne_nil (hphrase ts a hts)
  exact ⟨t, rest, hc⟩

section Items

variable {stop : Token.Kind → Bool} {item : ParseM α}

/-- Fuel for every token ahead is as good as any more. -/
theorem itemsFuel_eq (hitem : Moves depth item) {fuel fuel' : List Token} (hp : p.Ready depth)
    (hfuel : p.ahead.length ≤ fuel.length) (hfuel' : p.ahead.length ≤ fuel'.length) :
    itemsFuel stop item fuel p = itemsFuel stop item fuel' p := by
  induction fuel generalizing p fuel' with
  | nil => simp [ahead] at hfuel
  | cons _ fuel ih =>
      cases fuel' with
      | nil => simp [ahead] at hfuel'
      | cons _ fuel' =>
          simp only [itemsFuel, peek_bind]
          by_cases hstop : stop p.current.kind = true
          · rw [if_pos hstop, if_pos hstop]
          · rw [if_neg hstop, if_neg hstop]
            refine bind_congr fun first m hok => bind_congr_left _ ?_
            obtain ⟨t, ts, hc⟩ := hitem hp hok
            have hlt := hc.length_lt
            simp only [List.length_cons] at hfuel hfuel'
            exact ih (hc.ready hp) (by omega) (by omega)

/-- One turn of a list. -/
theorem items_eq (hitem : Moves depth item) (hp : p.Ready depth) :
    items stop item p = (peek >>= fun t => if stop t.kind then pure [] else
      item >>= fun first => items stop item >>= fun rest => pure (first :: rest)) p := by
  change itemsFuel stop item (p.current :: p.upcoming) p = _
  simp only [itemsFuel, peek_bind]
  by_cases hstop : stop p.current.kind = true
  · rw [if_pos hstop, if_pos hstop]
  · rw [if_neg hstop, if_neg hstop]
    refine bind_congr fun first m hok => bind_congr_left _ ?_
    obtain ⟨t, ts, hc⟩ := hitem hp hok
    have hlt : m.ahead.length < p.upcoming.length + 1 := hc.length_lt
    exact itemsFuel_eq hitem (hc.ready hp) (by omega) (Nat.le_refl _)

theorem Local.items (hlocal : Local depth item) (hitem : Moves depth item) :
    Local depth (items stop item) := by
  have hall (n : Nat) : ∀ p : Parser, p.ahead.length ≤ n → p.Ready depth →
      SettledAt depth (Parser.items stop item) p := by
    induction n with
    | zero =>
        intro p hn
        simp [ahead] at hn
    | succ n ih =>
        intro p hn hp
        refine SettledAt.congr (SettledAt.bind hp (Local.peek p hp) ?_) fun r hr =>
          items_eq hitem hr
        intro t m hpeek hm
        cases hpeek
        by_cases hstop : stop p.current.kind = true
        · rw [if_pos hstop]
          exact Local.pure _ p hp
        · rw [if_neg hstop]
          refine .bind hp (hlocal p hp) fun first m hok hm => ?_
          obtain ⟨t, ts, hc⟩ := hitem hp hok
          have hlt := hc.length_lt
          exact .bind hm (ih m (by omega) hm) fun rest q _ hq => Local.pure _ q hq
  exact fun p hp => hall _ p (Nat.le_refl _) hp

end Items

/-! ## Rules that pass a token -/

theorem expr_moves (power : Nat) : Moves depth (expr power) :=
  (expr_reads depth power).moves fun _ _ h => h.1.elim fun _ h => h.2.ne_nil

theorem declaration_moves : Moves depth declaration :=
  Reads.moves declaration_reads fun _ _ h => by cases h; simp

theorem assignment_moves : Moves 0 assignment :=
  Reads.moves assignment_reads fun _ _ h => by cases h; simp

theorem transition_moves : Moves 0 transition :=
  Reads.moves transition_reads fun _ _ h => by cases h; simp

theorem state_moves : Moves 0 state :=
  Reads.moves state_reads fun _ _ h => by cases h; simp

theorem platform_moves : Moves depth platform :=
  Reads.moves platform_reads fun _ _ h => by cases h; simp

/-! ## Heights that the answer tells -/

theorem Ready.next (hp : p.Ready depth) : p.next.Ready depth := by
  by_cases hend : p.current.kind = .endOfFile
  · rw [next_of_end hend]
    exact hp
  · exact (next_crosses hp hend).ready hp

/-- The height of the right operand. -/
def rightHeight : Expr → Nat
  | .binary _ _ right => right.height
  | _ => 0

section Heights

variable {levels : Nat} {operand : Nat → ParseM Expr} {e left : Expr}

theorem startBy_height (hop : ReadsOperands depth levels operand) {rule : StartRule}
    (hp : p.Ready depth) (hok : startBy operand rule p = .ok e q) : q.height = e.height := by
  cases rule with
  | literal =>
      obtain ⟨kind, -, rfl, rfl⟩ := constant_ok_iff.mp hok
      rfl
  | name =>
      obtain ⟨-, rfl, rfl⟩ := startName_ok_iff.mp hok
      rfl
  | group => exact startGroup_height hop hp hok

theorem continueBy_height (hop : ReadsOperands depth levels operand) {rule : ContinueRule}
    (hp : p.Ready depth) (hok : continueBy operand rule left p = .ok e q) :
    q.height = rightHeight e := by
  simp only [continueBy, advance_bind] at hok
  cases hrule : rule.operator? p.current.kind with
  | none =>
      rw [hrule] at hok
      cases hok
  | some op =>
      rw [hrule] at hok
      obtain ⟨right, m, hright, hpure⟩ := bind_ok_iff.mp hok
      obtain ⟨rfl, rfl⟩ := pure_ok_iff.mp hpure
      exact hop.height hp.next hright

end Heights

namespace Local

/-! ## Expressions -/

theorem constant : Local depth constant := by
  refine bind advance fun t => ?_
  cases t.kind.constKind? with
  | none => exact throwInternal _
  | some kind => exact bind (setHeight 1) fun _ => pure _

section Operand

variable {levels : Nat} {operand : Nat → ParseM Expr}

theorem startBy (hoperand : ∀ power, Local depth (operand power)) (rule : StartRule) :
    Local depth (startBy operand rule) := by
  cases rule with
  | literal => exact constant
  | name => exact bind identifier fun _ => bind (setHeight 1) fun _ => pure _
  | group => exact bind (mark _) fun _ => bind (hoperand 0) fun _ => bind (mark _) fun _ => pure _

theorem continueBy (hoperand : ∀ power, Local depth (operand power)) (rule : ContinueRule)
    (left : Expr) : Local depth (continueBy operand rule left) := by
  refine bind advance fun t => ?_
  cases rule.operator? t.kind with
  | none => exact throwInternal _
  | some op => exact bind (hoperand op.power) fun _ => pure _

/-- The loop asks for the height after each right operand, which has just noted its own. -/
theorem climbFuel (hop : ReadsOperands depth levels operand)
    (hoperand : ∀ power, Local depth (operand power)) (power fuel : Nat) (left : Expr)
    (height : Nat) : Local depth (climbFuel operand power fuel left height) := by
  induction fuel generalizing left height with
  | zero => exact failTooDeep
  | succ fuel ih =>
      refine bind peek fun t => ?_
      simp only
      split
      · exact bind (setHeight height) fun _ => pure _
      · cases t.kind.exprRule.continue? with
        | none => exact failExpected _
        | some rule =>
            intro p hp
            refine .bindHeight (fun whole h => if maxDepth < 1 + max height h then Parser.failTooDeep
              else Parser.climbFuel operand power fuel whole (1 + max height h)) hp
              (continueBy hoperand rule left p hp)
              (fun r whole q hr hok => continueBy_height hop hr hok) fun whole m hm => ?_
            split
            · exact failTooDeep m hm
            · exact ih whole _ m hm

theorem exprAt (hop : ReadsOperands depth levels operand)
    (hoperand : ∀ power, Local depth (operand power)) (power : Nat) :
    Local depth (exprAt operand power) := by
  refine bind peek fun t => ?_
  cases t.kind.exprRule.start? with
  | none => exact failExpected _
  | some rule =>
      intro p hp
      exact .bindHeight (Parser.climbFuel operand power maxDepth) hp (startBy hoperand rule p hp)
        (fun r left q hr hok => startBy_height hop hr hok)
        fun left m hm => climbFuel hop hoperand power maxDepth left left.height m hm

end Operand

theorem exprWithin (levels power : Nat) : Local depth (exprWithin levels power) := by
  induction levels generalizing depth power with
  | zero => exact failTooDeep
  | succ levels ih => exact nested (exprAt (exprWithin_readsOperands (depth + 1) levels) ih power)

theorem expr (power : Nat) : Local depth (expr power) := by
  intro p hp
  refine (exprWithin (maxDepth - depth) power p hp).congr fun r hr => ?_
  rw [Parser.expr, hr.nesting]

/-! ## Programs -/

theorem varType : Local depth varType := by
  refine bind peek fun t => ?_
  cases VarType.ofKind? t.kind with
  | none => exact failExpected _
  | some type => exact bind advance fun _ => pure _

theorem declaration : Local depth declaration :=
  bind varType fun _ => bind identifier fun _ => bind (mark _) fun _ => pure _

theorem assignment : Local depth assignment :=
  bind identifier fun _ => bind (mark _) fun _ => bind (expr 0) fun _ => bind (mark _) fun _ =>
    pure _

theorem destination : Local depth destination := by
  refine bind (accept _) fun isGoto => ?_
  cases isGoto with
  | true => exact bind identifier fun _ => pure _
  | false => exact bind (keyword _) fun _ => pure _

theorem transition : Local 0 transition :=
  bind destination fun _ => bind (keyword _) fun _ => bind (expr 0) fun _ => bind (keyword _)
    fun _ => bind (mark _) fun _ => bind (items assignment assignment_moves) fun _ =>
      bind (mark _) fun _ => bind (mark _) fun _ => pure _

theorem state : Local 0 state :=
  bind (accept _) fun _ => bind (keyword _) fun _ => bind (mark _) fun _ => bind identifier
    fun _ => bind (mark _) fun _ => bind (items transition transition_moves) fun _ =>
      bind (mark _) fun _ => pure _

theorem platform : Local depth platform :=
  bind (keyword _) fun _ => bind (mark _) fun _ => bind identifier fun _ => bind (mark _) fun _ =>
    pure _

theorem program : Local 0 program :=
  bind (keyword _) fun _ => bind (mark _) fun _ => bind identifier fun _ => bind (mark _) fun _ =>
    bind platform fun _ => bind (items declaration declaration_moves) fun _ =>
      bind (items state state_moves) fun _ => bind expectEnd fun _ => pure _

end Local

theorem IsRule.isLocal {rule : ParseM α} (h : IsRule rule) : Local 0 rule := by
  cases h with
  | program => exact .program
  | platform => exact .platform
  | declarations => exact .items .declaration declaration_moves
  | declaration => exact .declaration
  | states => exact .items .state state_moves
  | state => exact .state
  | transitions => exact .items .transition transition_moves
  | transition => exact .transition
  | assignments => exact .items .assignment assignment_moves
  | assignment => exact .assignment
  | expr power => exact .expr power
  | expectEnd => exact .expectEnd

end StateLang.Parser
