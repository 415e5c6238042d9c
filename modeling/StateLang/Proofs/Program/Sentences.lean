import Mathlib.Computability.Language
import Mathlib.Order.CompletePartialOrder
import StateLang.Program.Parser
import StateLang.Proofs.Program.Grammar

/-!
# Sentences of the grammar

The grammar of programs as a language: which sequences of token kinds are
programs. It is the grammar of the phrases without their trees and without the
two limits on expressions, so a text can be completed to a sentence however deep
its expressions are.
-/

open Computability

namespace StateLang.Sentences

/-! ## The grammar -/

/-- One token. -/
def token (kind : Token.Kind) : Language Token.Kind := {[kind]}

abbrev keyword (word : Keyword) : Language Token.Kind := token (.keyword word)

abbrev mark (mark : Punctuation) : Language Token.Kind := token (.punctuation mark)

abbrev identifier : Language Token.Kind := token .identifier

/-- What the grammar of expressions derives at a level. -/
def level (level : Precedence) : Language Token.Kind :=
  {kinds | ∃ ts e n, level.Derives ts e n ∧ ts.map (·.kind) = kinds}

def expression : Language Token.Kind := level .comparison

/-- `"int" | "float" | "boolean" | "string" | "char"` -/
def type : Language Token.Kind :=
  keyword .int + keyword .float + keyword .boolean + keyword .string + keyword .char

/-- `type identifier ";"` -/
def declaration : Language Token.Kind := type * identifier * mark .semicolon

/-- `identifier ":=" expression ";"` -/
def assignment : Language Token.Kind := identifier * mark .assign * expression * mark .semicolon

/-- `"goto" identifier | "exit"` -/
def destination : Language Token.Kind := keyword .goto * identifier + keyword .exit

/-- `destination "when" expression "performing" "{" assignment* "}" ";"` -/
def transition : Language Token.Kind :=
  destination * keyword .when * expression * keyword .performing * mark .lbrace * assignment∗ *
    mark .rbrace * mark .semicolon

/-- `["initial"] "state" ":" identifier "{" transition* "}"` -/
def state : Language Token.Kind :=
  (keyword .initial + 1) * keyword .state * mark .colon * identifier * mark .lbrace *
    transition∗ * mark .rbrace

/-- `"platform" ":" identifier ";"` -/
def platform : Language Token.Kind :=
  keyword .platform * mark .colon * identifier * mark .semicolon

/-- `"name" ":" identifier ";" platform declaration* state*` and the end. -/
def program : Language Token.Kind :=
  keyword .name * mark .colon * identifier * mark .semicolon * platform * declaration∗ * state∗ *
    token .endOfFile

variable {L M : Language Token.Kind} {P : Token.Kind → Prop} {k kind : Token.Kind}
  {w : List Token.Kind}

/-! ## First tokens -/

@[simp] theorem cons_mem_token_mul : k :: w ∈ token kind * L ↔ k = kind ∧ w ∈ L := by
  rw [Language.mem_mul]
  constructor
  · rintro ⟨_, rfl, b, hb, heq⟩
    obtain ⟨rfl, rfl⟩ := List.cons.inj heq
    exact ⟨rfl, hb⟩
  · rintro ⟨rfl, hw⟩
    exact ⟨[k], rfl, w, hw, rfl⟩

theorem cons_mem_token_mul_self (hw : w ∈ L) : kind :: w ∈ token kind * L :=
  cons_mem_token_mul.mpr ⟨rfl, hw⟩

/-- Every sentence starts with a token of `P`. -/
def StartsIn (P : Token.Kind → Prop) (L : Language Token.Kind) : Prop :=
  ∀ w ∈ L, ∃ k rest, w = k :: rest ∧ P k

namespace StartsIn

theorem head (h : StartsIn P L) (hw : k :: w ∈ L) : P k := by
  obtain ⟨_, _, heq, hk⟩ := h _ hw
  rwa [(List.cons.inj heq).1]

theorem mono {Q : Token.Kind → Prop} (h : StartsIn P L) (hpq : ∀ k, P k → Q k) : StartsIn Q L := by
  intro w hw
  obtain ⟨k, rest, heq, hk⟩ := h w hw
  exact ⟨k, rest, heq, hpq k hk⟩

theorem token (hk : P kind) : StartsIn P (token kind) := by
  rintro _ rfl
  exact ⟨kind, [], rfl, hk⟩

theorem mul (h : StartsIn P L) : StartsIn P (L * M) := by
  rintro w ⟨a, ha, b, -, rfl⟩
  obtain ⟨k, rest, rfl, hk⟩ := h a ha
  exact ⟨k, rest ++ b, rfl, hk⟩

theorem add (h : StartsIn P L) (h' : StartsIn P M) : StartsIn P (L + M) := by
  rintro w (hw | hw)
  · exact h w hw
  · exact h' w hw

end StartsIn

/-! ## Repetition -/

theorem le_kstar_mul : M ≤ L∗ * M := fun w hw => ⟨[], Language.nil_mem_kstar L, w, hw, rfl⟩

theorem mul_kstar_mul_le : L * (L∗ * M) ≤ L∗ * M := by
  rw [← mul_assoc]
  exact mul_le_mul_left mul_kstar_le_kstar M

/-- A repetition and what follows it is what follows it, or starts with a member. -/
theorem kstar_mul_cases (hw : w ∈ L∗ * M) : w ∈ M ∨ w ∈ L * (L∗ * M) := by
  rw [← Language.one_add_self_mul_kstar_eq_kstar, one_add_mul, mul_assoc] at hw
  exact hw

theorem StartsIn.kstar_mul (h : StartsIn P L) (h' : StartsIn P M) : StartsIn P (L∗ * M) := by
  intro w hw
  rcases kstar_mul_cases hw with hw | hw
  · exact h' w hw
  · exact h.mul w hw

/-! ## Every part of the grammar has a sentence -/

class Productive (L : Language Token.Kind) : Prop where
  nonempty : ∃ w, w ∈ L

instance : Productive (token kind) := ⟨[kind], rfl⟩

instance [hL : Productive L] [hM : Productive M] : Productive (L * M) := by
  obtain ⟨a, ha⟩ := hL.nonempty
  obtain ⟨b, hb⟩ := hM.nonempty
  exact ⟨a ++ b, Language.append_mem_mul ha hb⟩

instance : Productive L∗ := ⟨[], Language.nil_mem_kstar L⟩

instance [hM : Productive M] : Productive (L + M) := by
  obtain ⟨w, hw⟩ := hM.nonempty
  exact ⟨w, .inr hw⟩

/-! ## Expressions

Which operators group tighter does not matter to what is an expression: it is a
sequence of operands with operators between them. -/

def leaf : Language Token.Kind :=
  {kinds | (∃ sort, kinds = [.literal sort]) ∨ kinds = [.identifier]}

def operand : Language Token.Kind := level .factor

def operator : Language Token.Kind := {kinds | ∃ op, kinds = [.operator op]}

/-- What may follow an operand inside an expression. -/
def operations : Language Token.Kind := (operator * operand)∗

theorem rank_precedence_lt (op : BinaryOp) : op.precedence.rank < Precedence.factor.rank := by
  rcases op with op | op <;> cases op <;> decide

theorem literal_mem_operand (sort : Literal) : [.literal sort] ∈ operand := by
  refine ⟨[⟨.literal sort, "", 0, .start⟩], ?_⟩
  cases sort <;> exact ⟨_, _, .constant rfl, rfl⟩

theorem identifier_mem_operand : [.identifier] ∈ operand :=
  ⟨[⟨.identifier, "", 0, .start⟩], _, _, .name rfl, rfl⟩

theorem group_mem_operand (hw : w ∈ mark .lparen * (expression * mark .rparen)) : w ∈ operand := by
  obtain ⟨_, rfl, _, ⟨_, ⟨ts, e, n, hd, rfl⟩, _, rfl, rfl⟩, rfl⟩ := hw
  refine ⟨⟨.punctuation .lparen, "", 0, .start⟩ :: (ts ++ [⟨.punctuation .rparen, "", 0, .start⟩]),
    e, _, .group rfl hd rfl, ?_⟩
  simp

theorem operand_eq : operand = leaf + mark .lparen * (expression * mark .rparen) := by
  apply le_antisymm
  · rintro _ ⟨ts, e, n, hd, rfl⟩
    generalize hlevel : Precedence.factor = level at hd
    induction hd with
    | @constant t sort ht => exact .inl (.inl ⟨sort, by simp [ht]⟩)
    | name ht => exact .inl (.inr (by simp [ht]))
    | @group opening closing ts e n ho inner hc =>
        have hinner : ts.map (·.kind) ∈ expression := ⟨ts, e, n, inner, rfl⟩
        refine .inr ⟨[.punctuation .lparen], rfl, _, ⟨_, hinner, [.punctuation .rparen], rfl, rfl⟩,
          ?_⟩
        simp [ho, hc]
    | unit _ ih =>
        subst hlevel
        exact ih rfl
    | @binary level op t xs ys l r m n hop =>
        have hlt := rank_precedence_lt op
        rw [hop, hlevel] at hlt
        exact absurd hlt (Nat.lt_irrefl _)
  · rintro w ((⟨sort, rfl⟩ | rfl) | hw)
    · exact literal_mem_operand sort
    · exact identifier_mem_operand
    · exact group_mem_operand hw

/-- An operator and an operand can follow what a level derives if the operator stands at that
level or a tighter one. The induction is on the derivation: an operator of the level joins the
whole, and a tighter one joins its last part. -/
theorem exists_derives_append {loose : Precedence} {op : BinaryOp} {t : Token} {ts ys : List Token}
    {e r : Expr} {n m : Nat} (hd : loose.Derives ts e n) (ht : t.kind = .operator op)
    (hright : Precedence.Derives .factor ys r m) (hop : loose.rank ≤ op.precedence.rank) :
    ∃ e' n', loose.Derives (ts ++ t :: ys) e' n' := by
  have hjoin {level : Precedence} {ts e n} (hd : level.Derives ts e n)
      (hlevel : op.precedence = level) : ∃ e' n', level.Derives (ts ++ t :: ys) e' n' :=
    ⟨_, _, .binary hlevel hd ht (hright.loosen (Precedence.rank_le_three _))⟩
  have htighter {level : Precedence} (hle : level.rank ≤ op.precedence.rank)
      (hne : op.precedence ≠ level) : level.tighter.rank ≤ op.precedence.rank := by
    have hlt := rank_precedence_lt op
    have hfactor : level ≠ .factor := by
      rintro rfl
      omega
    have hrank : level.rank ≠ op.precedence.rank :=
      fun heq => hne (Precedence.rank_injective heq.symm)
    rw [Precedence.tighter_rank hfactor]
    omega
  have hleaf (hle : Precedence.factor.rank ≤ op.precedence.rank) : False :=
    Nat.not_le.mpr (rank_precedence_lt op) hle
  induction hd with
  | constant => exact (hleaf hop).elim
  | name => exact (hleaf hop).elim
  | group => exact (hleaf hop).elim
  | @unit level ts e n inner ih =>
      by_cases heq : op.precedence = level
      · exact hjoin (.unit inner) heq
      · obtain ⟨e', n', h⟩ := ih (htighter hop heq)
        exact ⟨e', n', .unit h⟩
  | @binary level op' t' xs zs l r' k n' hop' left ht' right ihl ihr =>
      by_cases heq : op.precedence = level
      · exact hjoin (.binary hop' left ht' right) heq
      · obtain ⟨e', n', h⟩ := ihr (htighter hop heq)
        rw [List.append_assoc, List.cons_append]
        exact ⟨_, _, .binary hop' left ht' h⟩

theorem expression_mul_operation_le : expression * (operator * operand) ≤ expression := by
  rintro _ ⟨_, ⟨ts, e, n, hd, rfl⟩, _, ⟨_, ⟨op, rfl⟩, _, ⟨ys, r, m, hright, rfl⟩, rfl⟩, rfl⟩
  obtain ⟨e', n', h⟩ := @exists_derives_append .comparison op ⟨.operator op, "", 0, .start⟩ ts ys
    e r n m hd rfl hright (Nat.zero_le _)
  exact ⟨_, e', n', h, by simp⟩

theorem le_mul_operations : L ≤ L * operations := by
  calc L = L * 1 := (mul_one L).symm
    _ ≤ L * operations := mul_le_mul_right one_le_kstar L

theorem operation_closed :
    operand * operations * (operator * (operand * operations)) ≤ operand * operations := by
  calc operand * operations * (operator * (operand * operations))
      = operand * (operations * (operator * operand * operations)) := by simp only [mul_assoc]
    _ ≤ operand * (operations * operations) := by
        exact mul_le_mul_right (mul_le_mul_right mul_kstar_le_kstar _) _
    _ = operand * operations := by rw [operations, kstar_mul_kstar]

theorem derives_mem {l : Precedence} {ts : List Token} {e : Expr} {n : Nat}
    (h : l.Derives ts e n) : ts.map (·.kind) ∈ operand * operations := by
  induction h with
  | constant ht => exact le_mul_operations ⟨_, _, _, .constant ht, rfl⟩
  | name ht => exact le_mul_operations ⟨_, _, _, .name ht, rfl⟩
  | group ho inner hc => exact le_mul_operations ⟨_, _, _, .group ho inner hc, rfl⟩
  | unit _ ih => exact ih
  | @binary level op t xs ys l r m n hop left ht right ihl ihr =>
      rw [List.map_append, List.map_cons, ht]
      exact operation_closed (Language.append_mem_mul ihl ⟨[.operator op], ⟨op, rfl⟩, _, ihr, rfl⟩)

theorem expression_eq : expression = operand * operations := by
  apply le_antisymm
  · rintro _ ⟨ts, e, n, hd, rfl⟩
    exact derives_mem hd
  · have hoperand : operand ≤ expression := by
      rintro _ ⟨ts, e, n, hd, rfl⟩
      exact ⟨ts, e, n, hd.loosen (Nat.zero_le _), rfl⟩
    calc operand * operations ≤ expression * operations := mul_le_mul_left hoperand _
      _ ≤ expression := mul_kstar_le_self expression_mul_operation_le

/-- Where an operand stands: a leaf is one, a parenthesis opens one. -/
theorem cons_mem_operand_mul : k :: w ∈ operand * M ↔
    (((∃ sort, k = .literal sort) ∨ k = .identifier) ∧ w ∈ M) ∨
      k = .punctuation .lparen ∧ w ∈ expression * (mark .rparen * M) := by
  rw [operand_eq, add_mul, mul_assoc, mul_assoc, Language.mem_add, cons_mem_token_mul]
  refine or_congr_left ?_
  constructor
  · rintro ⟨a, ha, b, hb, heq⟩
    rcases ha with ⟨sort, rfl⟩ | rfl
    · obtain ⟨rfl, rfl⟩ := List.cons.inj heq
      exact ⟨.inl ⟨sort, rfl⟩, hb⟩
    · obtain ⟨rfl, rfl⟩ := List.cons.inj heq
      exact ⟨.inr rfl, hb⟩
  · rintro ⟨⟨sort, rfl⟩ | rfl, hw⟩
    · exact ⟨_, .inl ⟨sort, rfl⟩, w, hw, rfl⟩
    · exact ⟨_, .inr rfl, w, hw, rfl⟩

/-- After an operand the expression goes on with an operator, or it is over. -/
theorem cons_mem_operations_mul : k :: w ∈ operations * M ↔
    (∃ op, k = .operator op ∧ w ∈ operand * (operations * M)) ∨ k :: w ∈ M := by
  constructor
  · intro hw
    rcases kstar_mul_cases hw with hw | hw
    · exact .inr hw
    · rw [mul_assoc] at hw
      obtain ⟨_, ⟨op, rfl⟩, b, hb, heq⟩ := hw
      obtain ⟨rfl, rfl⟩ := List.cons.inj heq
      exact .inl ⟨op, rfl, hb⟩
  · rintro (⟨op, rfl, hw⟩ | hw)
    · apply mul_kstar_mul_le
      rw [mul_assoc]
      exact ⟨[.operator op], ⟨op, rfl⟩, w, hw, rfl⟩
    · exact le_kstar_mul hw

instance : Productive operand := ⟨_, identifier_mem_operand⟩

instance : Productive operations := inferInstanceAs (Productive (operator * operand)∗)

instance : Productive expression := by
  rw [expression_eq]
  infer_instance

instance : Productive type := by
  unfold type
  infer_instance

instance : Productive platform := by
  unfold platform
  infer_instance

/-! ## How the parts of a program start -/

theorem type_startsIn : StartsIn (fun k => (VarType.ofKind? k).isSome = true) type :=
  .add (.add (.add (.add (.token rfl) (.token rfl)) (.token rfl)) (.token rfl)) (.token rfl)

theorem cons_mem_type_mul :
    k :: w ∈ type * M ↔ (VarType.ofKind? k).isSome = true ∧ w ∈ M := by
  constructor
  · intro hw
    refine ⟨StartsIn.head (.mul type_startsIn) hw, ?_⟩
    simp only [type, add_mul, Language.mem_add, cons_mem_token_mul] at hw
    rcases hw with (((⟨-, hw⟩ | ⟨-, hw⟩) | ⟨-, hw⟩) | ⟨-, hw⟩) | ⟨-, hw⟩ <;> exact hw
  · rintro ⟨hk, hw⟩
    simp only [type, add_mul, Language.mem_add, cons_mem_token_mul]
    cases k with
    | keyword word => cases word <;> simp [VarType.ofKind?, hw] at hk ⊢
    | _ => simp [VarType.ofKind?] at hk

theorem declaration_startsIn :
    StartsIn (fun k => (VarType.ofKind? k).isSome = true) declaration :=
  .mul (.mul type_startsIn)

theorem assignment_startsIn : StartsIn (· = .identifier) assignment := by
  have htarget : StartsIn (· = .identifier) identifier := .token rfl
  exact htarget.mul.mul.mul

theorem transition_startsIn :
    StartsIn (fun k => k = .keyword .goto ∨ k = .keyword .exit) transition := by
  have hdestination : StartsIn (fun k => k = .keyword .goto ∨ k = .keyword .exit) destination :=
    .add (.mul (.token (.inl rfl))) (.token (.inr rfl))
  exact hdestination.mul.mul.mul.mul.mul.mul.mul

theorem state_startsIn :
    StartsIn (fun k => k = .keyword .initial ∨ k = .keyword .state) state := by
  unfold state
  simp only [mul_assoc, add_mul, one_mul]
  exact .add (.mul (.token (.inl rfl))) (.mul (.token (.inr rfl)))

end StateLang.Sentences
