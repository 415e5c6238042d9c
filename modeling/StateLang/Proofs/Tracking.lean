import StateLang.Proofs.Fault
import StateLang.Proofs.Program.Sentences

/-!
# Rules that keep track of what may come

Before a rule runs, the text ahead is meant to be in one language, and after it
in another. A rule tracks the two if it never loses its way: the tokens it passes
can always be completed, whatever may come after it can follow them, and where it
fails no text of the first language has the token that stands there. A rule
tracks what its parts track one after the other.
-/

namespace StateLang

open Computability Sentences

def Token.kinds (ts : List Token) : List Token.Kind := ts.map (·.kind)

/-- The kinds can be completed to a sentence. -/
def Sentences.Viable (L : Language Token.Kind) (kinds : List Token.Kind) : Prop :=
  ∃ rest, kinds ++ rest ∈ L

namespace Fault

/-- What a fault says should have stood there. -/
def expected? : Fault → Option String
  | lexical _ expected _ => some expected
  | grammar expected _ _ => some expected
  | internal _ => none

/-- A fault that is about the depth of an expression. -/
def IsTooDeep (fault : Fault) : Prop := fault.expected? = some "a less deeply nested expression"

theorem mismatch_expected? (expected : String) (t : Token) :
    (mismatch expected t).expected? = some expected := by
  unfold mismatch
  split <;> rfl

end Fault

/-! ## Descriptions -/

namespace Token.Kind

/-- All kinds. -/
def all : List Kind :=
  [Keyword.name, .platform, .initial, .state, .goto, .when, .performing, .exit, .int, .float,
    .boolean, .string, .char].map keyword ++
  [Literal.int, .float, .string, .char, .true, .false].map literal ++
  [Punctuation.lparen, .rparen, .lbrace, .rbrace, .colon, .comma, .semicolon, .assign].map
    punctuation ++
  [ArithOp.add, .sub, .mul, .div].map (fun op => operator (.arith op)) ++
  [CompareOp.eq, .ne, .lt, .le, .gt, .ge].map (fun op => operator (.compare op)) ++
  [identifier, endOfFile, unknown]

theorem mem_all (kind : Kind) : kind ∈ all := by
  cases kind with
  | keyword word => cases word <;> decide
  | literal sort => cases sort <;> decide
  | punctuation mark => cases mark <;> decide
  | operator op => rcases op with op | op <;> cases op <;> decide
  | _ => decide

theorem descriptions_nodup : (all.map description).Nodup := by decide

theorem description_injective {kind kind' : Kind} (h : kind.description = kind'.description) :
    kind = kind' :=
  List.inj_on_of_nodup_map descriptions_nodup kind.mem_all kind'.mem_all h

/-- What the parser asks for by these names is no kind of token. -/
theorem ne_description {text : String} (h : text ∈
    ["a type", "an expression", "an operator", "a less deeply nested expression"])
    (kind : Kind) : text ≠ kind.description := by
  have hnone : ∀ text ∈
      ["a type", "an expression", "an operator", "a less deeply nested expression"],
      text ∉ all.map description := by decide
  rintro rfl
  exact hnone _ h (List.mem_map_of_mem kind.mem_all)

end Token.Kind

namespace Parser

variable {α β : Type} {p q m : Parser} {depth : Nat} {A B C I : Language Token.Kind}
  {ts : List Token} {w : List Token.Kind} {kind : Token.Kind}

theorem Crosses.head?_eq (h : p.Crosses ts q) (hw : w.head? = some q.current.kind) :
    (Token.kinds ts ++ w).head? = some p.current.kind := by
  cases ts with
  | nil =>
      have hcurrent : p.current.kind = q.current.kind := h.firstKind_eq
      rw [hcurrent]
      exact hw
  | cons t ts =>
      rw [h.current_eq]
      rfl

/-- The tokens passed can be completed, not so with the token that follows them, but with one of a
kind that the fault asks for. -/
structure StuckAt (L : Language Token.Kind) (ts : List Token) (t : Token) (fault : Fault) :
    Prop where
  viable : Viable L (Token.kinds ts)
  refused : ¬ Viable L (Token.kinds ts ++ [t.kind])
  expected : ∀ kind : Token.Kind, fault.expected? = some kind.description →
    Viable L (Token.kinds ts ++ [kind])

/-- What a rule that starts at `p` may give: it passes tokens such that what may come after the
rule may follow them, and nothing else that starts with the next token may; or it is stuck. -/
inductive Tracked (p : Parser) (Before After : Language Token.Kind) :
    EStateM.Result Fault Parser α → Prop
  | ok {ts : List Token} {a : α} {q : Parser} (hc : p.Crosses ts q)
      (hafter : ∀ w ∈ After, Token.kinds ts ++ w ∈ Before)
      (hbefore : ∀ w, w.head? = some q.current.kind → Token.kinds ts ++ w ∈ Before → w ∈ After) :
      Tracked p Before After (.ok a q)
  | stuck {ts : List Token} {fault : Fault} {q : Parser} (hc : p.Crosses ts q)
      (h : StuckAt Before ts q.current fault) : Tracked p Before After (.error fault q)
  | tooDeep {fault : Fault} {q : Parser} (h : fault.IsTooDeep) :
      Tracked p Before After (.error fault q)

/-- Before the rule the text ahead is meant to be in `Before`, after it in `After`. -/
def Tracks (depth : Nat) (rule : ParseM α) (Before After : Language Token.Kind) : Prop :=
  ∀ p, p.Ready depth → Tracked p Before After (rule p)

namespace Tracked

theorem ready {result : EStateM.Result Fault Parser α} {a : α} (h : Tracked p A B result)
    (hok : result = .ok a q) (hp : p.Ready depth) : q.Ready depth := by
  subst hok
  cases h with
  | ok hc => exact hc.ready hp

theorem bind {x : ParseM α} {f : α → ParseM β} (hx : Tracked p A B (x p))
    (hf : ∀ a m, x p = .ok a m → Tracked m B C (f a m)) : Tracked p A C ((x >>= f) p) := by
  generalize hresult : x p = result at hx
  cases hx with
  | @ok ts a m hc hafter hbefore =>
      rw [bind_of_ok hresult]
      have hsecond := hf a m hresult
      generalize f a m = result at hsecond
      cases hsecond with
      | @ok ys b q hc' hafter' hbefore' =>
          refine .ok (hc.trans hc') ?_ ?_
          · intro w hw
            have hmem := hafter _ (hafter' w hw)
            simpa [Token.kinds] using hmem
          · intro w hhead hw
            apply hbefore' w hhead
            apply hbefore _ (hc'.head?_eq hhead)
            simpa [Token.kinds] using hw
      | @stuck ys fault q hc' h =>
          refine .stuck (hc.trans hc') ⟨?_, ?_, ?_⟩
          · obtain ⟨rest, hrest⟩ := h.viable
            refine ⟨rest, ?_⟩
            have hmem := hafter _ hrest
            simpa [Token.kinds] using hmem
          · rintro ⟨rest, hrest⟩
            refine h.refused ⟨rest, ?_⟩
            rw [List.append_assoc]
            apply hbefore _ (hc'.head?_eq rfl)
            simpa [Token.kinds] using hrest
          · intro kind hkind
            obtain ⟨rest, hrest⟩ := h.expected kind hkind
            refine ⟨rest, ?_⟩
            have hmem := hafter _ hrest
            simpa [Token.kinds] using hmem
      | tooDeep h => exact .tooDeep h
  | stuck hc h =>
      rw [bind_error_iff.mpr (.inl hresult)]
      exact .stuck hc h
  | tooDeep h =>
      rw [bind_error_iff.mpr (.inl hresult)]
      exact .tooDeep h

/-- Only texts that start with the parser's token count. -/
theorem widen {result : EStateM.Result Fault Parser α} (h : Tracked p A C result) (hle : A ≤ B)
    (hhead : ∀ w, w.head? = some p.current.kind → w ∈ B → w ∈ A) : Tracked p B C result := by
  cases h with
  | ok hc hafter hbefore =>
      refine .ok hc (fun w hw => hle (hafter w hw)) fun w hw hmem => ?_
      exact hbefore w hw (hhead _ (hc.head?_eq hw) hmem)
  | stuck hc h =>
      refine .stuck hc ⟨?_, ?_, ?_⟩
      · obtain ⟨rest, hrest⟩ := h.viable
        exact ⟨rest, hle hrest⟩
      · rintro ⟨rest, hrest⟩
        refine h.refused ⟨rest, hhead _ ?_ hrest⟩
        rw [List.append_assoc]
        exact hc.head?_eq rfl
      · intro kind hkind
        obtain ⟨rest, hrest⟩ := h.expected kind hkind
        exact ⟨rest, hle hrest⟩
  | tooDeep h => exact .tooDeep h

/-- What may come after a rule may be cut down by what the rule leaves in front of the parser. -/
theorem narrow {result : EStateM.Result Fault Parser α} (h : Tracked p A B result) (hle : C ≤ B)
    (hcut : ∀ a q, result = .ok a q → ∀ w, w.head? = some q.current.kind → w ∈ B → w ∈ C) :
    Tracked p A C result := by
  cases h with
  | ok hc hafter hbefore =>
      refine .ok hc (fun w hw => hafter w (hle hw)) fun w hw hmem => ?_
      exact hcut _ _ rfl w hw (hbefore w hw hmem)
  | stuck hc h => exact .stuck hc h
  | tooDeep h => exact .tooDeep h

theorem skip (a : α) (p : Parser) : Tracked p A A (.ok a p) :=
  .ok (.refl p) (fun _ hw => hw) fun _ _ hw => hw

/-- Passing the token that has to stand there. -/
theorem pass {a : α} (hc : p.Crosses [p.current] q) (hkind : p.current.kind = kind) :
    Tracked p (token kind * A) A (.ok a q) := by
  refine .ok hc (fun w hw => ?_) fun w _ hw => ?_
  · rw [Token.kinds, List.map_singleton, hkind]
    exact cons_mem_token_mul_self hw
  · rw [Token.kinds, List.map_singleton, hkind] at hw
    exact (cons_mem_token_mul.mp hw).2

/-- Failing where no text starts with the parser's token, for want of a token of a kind that some
text starts with, or of none in particular. -/
theorem mismatch [hA : Productive A] {expected : String}
    (hrefused : ∀ w, p.current.kind :: w ∉ A)
    (hexpected : ∀ kind : Token.Kind, expected = kind.description → ∃ w, kind :: w ∈ A) :
    Tracked p A B (.error (.mismatch expected p.current) p : EStateM.Result Fault Parser α) := by
  refine .stuck (.refl p) ⟨hA.nonempty, ?_, ?_⟩
  · rintro ⟨rest, hrest⟩
    exact hrefused rest hrest
  · intro kind hkind
    rw [Fault.mismatch_expected?] at hkind
    exact hexpected kind (Option.some.inj hkind)

end Tracked

namespace Tracks

theorem bind {x : ParseM α} {f : α → ParseM β} (hx : Tracks depth x A B)
    (hf : ∀ a, Tracks depth (f a) B C) : Tracks depth (x >>= f) A C := by
  intro p hp
  exact (hx p hp).bind fun a m hok => hf a m ((hx p hp).ready hok hp)

theorem pure (a : α) : Tracks depth (pure a) A A := fun p _ => .skip a p

theorem expect (hkind : kind ≠ .endOfFile) [hA : Productive A] :
    Tracks depth (expect kind) (token kind * A) A := by
  intro p hp
  simp only [Parser.expect, peek_bind]
  by_cases h : p.current.kind = kind
  · rw [if_pos h]
    exact .pass (next_crosses hp (by rw [h]; exact hkind)) h
  · rw [if_neg h]
    refine .mismatch (fun w hw => h (cons_mem_token_mul.mp hw).1) fun kind' hkind' => ?_
    obtain ⟨w, hw⟩ := hA.nonempty
    rw [Token.Kind.description_injective hkind']
    exact ⟨w, cons_mem_token_mul_self hw⟩

theorem keyword (word : Keyword) [Productive A] :
    Tracks depth (expectKeyword word) (Sentences.keyword word * A) A :=
  bind (expect (by simp)) fun _ => pure _

theorem mark (mark : Punctuation) [Productive A] :
    Tracks depth (expectMark mark) (Sentences.mark mark * A) A :=
  bind (expect (by simp)) fun _ => pure _

theorem identifier [Productive A] :
    Tracks depth identifier (Sentences.identifier * A) A :=
  bind (expect (by simp)) fun _ => pure _

/-- The end is not passed. -/
theorem expectEnd : Tracks depth expectEnd (token .endOfFile) (token .endOfFile) := by
  intro p hp
  by_cases h : p.current.kind = .endOfFile
  · have hok : Parser.expectEnd p = .ok () p :=
      bind_ok_iff.mpr ⟨p.current, p, expect_ok_iff.mpr ⟨h, rfl, next_of_end h⟩, rfl⟩
    rw [hok]
    exact .skip () p
  · have herror : Parser.expectEnd p =
        .error (.mismatch Token.Kind.endOfFile.description p.current) p := by
      refine bind_error_iff.mpr (.inl ?_)
      simp only [Parser.expect, peek_bind, if_neg h, failExpected]
    rw [herror]
    refine .mismatch (fun w hw => h (List.cons.inj hw).1) fun kind hkind => ⟨[], ?_⟩
    rw [Token.Kind.description_injective hkind]
    rfl

/-- A token that may be left out. -/
theorem acceptBind {r : Bool → ParseM α} (hkind : kind ≠ .endOfFile)
    (hwith : Tracks depth (r true) A C) (hwithout : Tracks depth (r false) B C)
    (hne : StartsIn (· ≠ kind) B) : Tracks depth (accept kind >>= r) (token kind * A + B) C := by
  intro p hp
  by_cases h : p.current.kind = kind
  · have hnext := next_crosses hp (by rw [h]; exact hkind)
    have haccept : accept kind p = .ok true p.next := by
      simp only [accept, peek_bind, if_pos h]
      rfl
    have hpass : Tracked p (token kind * A) A (accept kind p) := haccept ▸ .pass hnext h
    have hbind : Tracked p (token kind * A) C ((accept kind >>= r) p) := by
      refine hpass.bind fun a m hok => ?_
      rw [haccept] at hok
      cases hok
      exact hwith p.next (hnext.ready hp)
    refine hbind.widen le_self_add fun w hw hmem => ?_
    rcases hmem with hmem | hmem
    · exact hmem
    · obtain ⟨k, rest, rfl, hk⟩ := hne w hmem
      exact absurd (Option.some.inj hw ▸ h) hk
  · have haccept : accept kind p = .ok false p := by
      simp only [accept, peek_bind, if_neg h]
      rfl
    rw [bind_of_ok haccept]
    refine (hwithout p hp).widen (fun w hw => .inr hw) fun w hw hmem => ?_
    rcases hmem with hmem | hmem
    · obtain ⟨_, rfl, rest, -, rfl⟩ := hmem
      exact absurd (Option.some.inj hw).symm h
    · exact hmem

/-! ## Lists -/

section Items

variable {stop : Token.Kind → Bool} {item : ParseM α}

/-- An item passes a token, since what stands after the list starts no item. -/
theorem moves [hC : Productive C] (hitem : Tracks depth item (I * (I∗ * C)) (I∗ * C))
    (hstart : StartsIn (fun k => stop k = false) I) (hend : StartsIn (fun k => stop k = true) C)
    {a : α} (hp : p.Ready depth) (hok : item p = .ok a m) :
    m.Ready depth ∧ m.ahead.length < p.ahead.length := by
  have htracked := hitem p hp
  rw [hok] at htracked
  cases htracked with
  | @ok ts _ _ hc hafter =>
      refine ⟨hc.ready hp, ?_⟩
      cases ts with
      | nil =>
          obtain ⟨w, hw⟩ := hC.nonempty
          have hitem : w ∈ I * (I∗ * C) := hafter w (le_kstar_mul hw)
          obtain ⟨k, rest, rfl, hk⟩ := hend w hw
          have hk' : stop k = false := hstart.mul.head hitem
          rw [hk] at hk'
          contradiction
      | cons t ts => exact hc.length_lt

theorem itemsFuel [Productive C] (hitem : Tracks depth item (I * (I∗ * C)) (I∗ * C))
    (hstart : StartsIn (fun k => stop k = false) I) (hend : StartsIn (fun k => stop k = true) C)
    {fuel : List Token} (hp : p.Ready depth) (hfuel : p.ahead.length ≤ fuel.length) :
    Tracked p (I∗ * C) C (itemsFuel stop item fuel p) := by
  induction fuel generalizing p with
  | nil => simp [ahead] at hfuel
  | cons _ fuel ih =>
      simp only [Parser.itemsFuel, peek_bind]
      by_cases hstop : stop p.current.kind = true
      · rw [if_pos hstop]
        have hskip : Tracked p C C (.ok ([] : List α) p) := .skip [] p
        refine hskip.widen le_kstar_mul fun w hw hmem => ?_
        rcases kstar_mul_cases hmem with hmem | hmem
        · exact hmem
        · obtain ⟨k, rest, rfl, hk⟩ := hstart.mul w hmem
          rw [Option.some.inj hw, hstop] at hk
          contradiction
      · rw [if_neg hstop]
        have hlist : Tracked p (I * (I∗ * C)) C ((item >>= fun first =>
            Parser.itemsFuel stop item fuel >>= fun rest => Pure.pure (first :: rest)) p) := by
          refine (hitem p hp).bind fun first m hok => ?_
          obtain ⟨hm, hlt⟩ := moves hitem hstart hend hp hok
          simp only [List.length_cons] at hfuel
          exact (ih hm (by omega)).bind fun rest q _ => .skip _ q
        refine hlist.widen mul_kstar_mul_le fun w hw hmem => ?_
        rcases kstar_mul_cases hmem with hmem | hmem
        · obtain ⟨k, rest, rfl, hk⟩ := hend w hmem
          rw [Option.some.inj hw] at hk
          contradiction
        · exact hmem

/-- Items up to a token at which the list stops, if no item starts with such a token and what
follows the list does. -/
theorem items [Productive C] (hitem : Tracks depth item (I * (I∗ * C)) (I∗ * C))
    (hstart : StartsIn (fun k => stop k = false) I) (hend : StartsIn (fun k => stop k = true) C) :
    Tracks depth (items stop item) (I∗ * C) C :=
  fun _ hp => itemsFuel hitem hstart hend hp (Nat.le_refl _)

end Items

end Tracks

end Parser

end StateLang
