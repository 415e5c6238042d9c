import StateLang.Parser

/-!
# What a rule of the parser reads

A rule is described by the phrases it reads and the tokens that may follow them.
`Reads` says both directions at once: an answer comes from a phrase that was
passed token by token, and a phrase in the right place is always answered. The
descriptions of sequences and lists are proved here once, so a rule is described
by describing its parts.
-/

namespace StateLang.Parser

variable {α β : Type} {p q m : Parser} {depth : Nat} {a : α} {b : β} {ts : List Token}

/-! ## Running one rule after another -/

theorem bind_ok_iff {x : ParseM α} {f : α → ParseM β} :
    (x >>= f) p = .ok b q ↔ ∃ a m, x p = .ok a m ∧ f a m = .ok b q := by
  change EStateM.bind x f p = _ ↔ _
  unfold EStateM.bind
  cases x p with
  | ok a m => simp [and_assoc]
  | error fault m => simp

theorem bind_of_ok {x : ParseM α} {f : α → ParseM β} (h : x p = .ok a m) :
    (x >>= f) p = f a m := by
  change EStateM.bind x f p = _
  simp [EStateM.bind, h]

@[simp] theorem pure_ok_iff {a' : α} : (pure a : ParseM α) p = .ok a' q ↔ a = a' ∧ p = q := by
  change EStateM.Result.ok a p = _ ↔ _
  simp

@[simp] theorem peek_bind (f : Token → ParseM β) (p : Parser) :
    (peek >>= f) p = f p.current p := rfl

@[simp] theorem advance_bind (f : Token → ParseM β) (p : Parser) :
    (advance >>= f) p = f p.current p.next := rfl

theorem expect_ok_iff {kind : Token.Kind} {t : Token} :
    expect kind p = .ok t q ↔ p.current.kind = kind ∧ p.current = t ∧ p.next = q := by
  simp only [expect, peek_bind]
  by_cases hk : p.current.kind = kind
  · simp [hk, advance]
  · simp [hk, failExpected]

/-! ## Passing tokens -/

def ahead (p : Parser) : List Token := p.current :: p.upcoming

/-- `q` is `p` after the tokens `ts`, with nothing but the height noted otherwise. -/
structure Crosses (p : Parser) (ts : List Token) (q : Parser) : Prop where
  passed : q.passed = ts.reverse ++ p.passed
  ahead : p.ahead = ts ++ q.ahead
  nesting : q.nesting = p.nesting
  inside : ∀ t ∈ ts, t.kind ≠ .endOfFile

/-- In the middle of `depth` expressions, with an end somewhere ahead. -/
structure Ready (depth : Nat) (p : Parser) : Prop where
  nesting : p.nesting = depth
  ends : ∃ t ∈ p.ahead, t.kind = .endOfFile

namespace Crosses

variable {ts xs ys : List Token} {t : Token}

theorem refl (p : Parser) : p.Crosses [] p := ⟨rfl, rfl, rfl, by simp⟩

theorem trans (h₁ : p.Crosses xs m) (h₂ : m.Crosses ys q) : p.Crosses (xs ++ ys) q where
  passed := by simp [h₁.passed, h₂.passed]
  ahead := by simp [h₁.ahead, h₂.ahead]
  nesting := h₂.nesting.trans h₁.nesting
  inside t ht := (List.mem_append.mp ht).elim (h₁.inside t) (h₂.inside t)

theorem ready (h : p.Crosses ts q) (hp : p.Ready depth) : q.Ready depth := by
  obtain ⟨t, ht, hk⟩ := hp.ends
  rw [h.ahead, List.mem_append] at ht
  refine ⟨h.nesting.trans hp.nesting, t, ?_, hk⟩
  exact ht.resolve_left fun hin => h.inside t hin hk

theorem withHeight (h : p.Crosses ts q) (n : Nat) : p.Crosses ts { q with height := n } :=
  ⟨h.passed, h.ahead, h.nesting, h.inside⟩

/-- Somewhere on the way stood a parser between the two parts. -/
theorem split (h : p.Crosses (xs ++ ys) q) : ∃ m, p.Crosses xs m ∧ m.Crosses ys q := by
  have hin := fun t (ht : t ∈ xs) => h.inside t (List.mem_append_left _ ht)
  have hin' := fun t (ht : t ∈ ys) => h.inside t (List.mem_append_right _ ht)
  obtain ⟨first, rest, hf⟩ : ∃ first rest, ys ++ q.ahead = first :: rest := by
    cases ys with
    | nil => exact ⟨q.current, q.upcoming, rfl⟩
    | cons y ys => exact ⟨y, ys ++ q.ahead, rfl⟩
  refine ⟨⟨xs.reverse ++ p.passed, first, rest, p.nesting, p.height⟩, ⟨rfl, ?_, rfl, hin⟩,
    ⟨?_, hf.symm, h.nesting, hin'⟩⟩
  · rw [h.ahead, List.append_assoc, hf]
    rfl
  · rw [h.passed, List.reverse_append, List.append_assoc]

/-- A parser on the way has the rest of the way before it. -/
theorem rest (h : p.Crosses (xs ++ ys) q) (hm : p.Crosses xs m) : m.Crosses ys q where
  passed := by simp [h.passed, hm.passed]
  ahead := by
    have ha := hm.ahead.symm.trans h.ahead
    rw [List.append_assoc] at ha
    exact List.append_cancel_left ha
  nesting := h.nesting.trans hm.nesting.symm
  inside t ht := h.inside t (List.mem_append_right _ ht)

theorem current_eq (h : p.Crosses (t :: ts) q) : p.current = t := by
  have ha := h.ahead
  simp only [Parser.ahead, List.cons_append, List.cons.injEq] at ha
  exact ha.1

theorem cursor_eq (h : p.Crosses ts q) : q.cursor = p.cursor + ts.length := by
  simp [cursor, h.passed, Nat.add_comm]

end Crosses

/-- Before the end there is always a token to move to. -/
theorem next_crosses (hp : p.Ready depth) (hk : p.current.kind ≠ .endOfFile) :
    p.Crosses [p.current] p.next := by
  obtain ⟨t, ht, hend⟩ := hp.ends
  cases hu : p.upcoming with
  | nil =>
      simp only [ahead, hu, List.mem_singleton] at ht
      exact absurd (ht ▸ hend) hk
  | cons u us =>
      have hn : p.next =
          { p with passed := p.current :: p.passed, current := u, upcoming := us } := by
        simp [next, hk, hu]
      rw [hn]
      exact ⟨rfl, by simp [ahead, hu], rfl, by simpa using hk⟩

theorem next_of_end (hk : p.current.kind = .endOfFile) : p.next = p := by simp [next, hk]

@[simp] theorem next_height (p : Parser) : p.next.height = p.height := by
  unfold next
  split
  · rfl
  · split <;> rfl

/-! ## Places in a token list -/

theorem terminated_ends (tokens : List Token) :
    ∃ body last, terminated tokens = body ++ [last] ∧ last.kind = .endOfFile := by
  unfold terminated
  cases hlast : tokens.getLast? with
  | none => exact ⟨[], Token.endAt 0 .start, rfl, rfl⟩
  | some last =>
      by_cases hk : last.kind = .endOfFile
      · obtain ⟨body, hbody⟩ := List.getLast?_eq_some_iff.mp hlast
        exact ⟨body, last, by simp [hk, hbody], hk⟩
      · exact ⟨tokens, Token.endAt tokens.length last.pos, by simp [hk], rfl⟩

/-- A parser of a terminated list has an end ahead, wherever it stands. -/
theorem ready_of_tokens {tokens : List Token} (hp : p.tokens = terminated tokens)
    (hn : p.nesting = depth) : p.Ready depth := by
  obtain ⟨body, last, hbody, hk⟩ := terminated_ends tokens
  refine ⟨hn, last, ?_, hk⟩
  have hahead : p.ahead ≠ [] := by simp [ahead]
  have hlast : p.ahead.getLast? = some last := by
    have hall : (p.passed.reverse ++ p.ahead).getLast? = some last := by
      have htokens : p.passed.reverse ++ p.ahead = body ++ [last] := hp.trans hbody
      rw [htokens, List.getLast?_append]
      rfl
    rw [List.getLast?_append] at hall
    cases hl : p.ahead.getLast? with
    | none => exact absurd (List.getLast?_eq_none_iff.mp hl) hahead
    | some t => simpa [hl] using hall
  exact List.mem_of_getLast? hlast

/-- The tokens between two places of one list are what the parser crosses between them. -/
theorem crosses_of_slice {k : Nat} {t : Token} (hk : p.cursor ≤ k) (ht : p.tokens[k]? = some t)
    (hin : ∀ u ∈ (p.tokens.take k).drop p.cursor, u.kind ≠ .endOfFile) :
    ∃ q, p.Crosses ((p.tokens.take k).drop p.cursor) q ∧ q.current = t := by
  have hahead : p.tokens.drop p.cursor = p.ahead := by
    change (p.passed.reverse ++ p.ahead).drop p.passed.length = _
    rw [List.drop_append_of_le_length (by simp)]
    simp
  have hrest : p.tokens.drop k = t :: p.tokens.drop (k + 1) := by
    obtain ⟨hlt, rfl⟩ := List.getElem?_eq_some_iff.mp ht
    exact List.drop_eq_getElem_cons hlt
  refine ⟨⟨((p.tokens.take k).drop p.cursor).reverse ++ p.passed, t, p.tokens.drop (k + 1),
    p.nesting, p.height⟩, ⟨rfl, ?_, rfl, hin⟩, rfl⟩
  change p.ahead = _ ++ (t :: p.tokens.drop (k + 1))
  rw [← hrest, ← hahead, List.drop_take]
  have hsplit := List.take_append_drop (k - p.cursor) (p.tokens.drop p.cursor)
  rw [List.drop_drop] at hsplit
  rw [show p.cursor + (k - p.cursor) = k by omega] at hsplit
  exact hsplit.symm

theorem Crosses.slice_eq (hc : p.Crosses ts q) :
    (p.tokens.take q.cursor).drop p.cursor = ts ∧ p.tokens[q.cursor]? = some q.current := by
  have htokens : p.tokens = p.passed.reverse ++ (ts ++ q.ahead) := by
    rw [← hc.ahead]
    rfl
  have hcursor : p.cursor = p.passed.reverse.length := by simp [cursor]
  have hcursor' : q.cursor = (p.passed.reverse ++ ts).length := by
    rw [hc.cursor_eq, hcursor, List.length_append]
  constructor
  · rw [htokens, ← List.append_assoc, hcursor', List.take_left', hcursor, List.drop_left']
    · rfl
    · rfl
  · rw [htokens, ← List.append_assoc, hcursor', List.getElem?_append_right (Nat.le_refl _)]
    simp [Parser.ahead]

/-! ## Phrases and what may follow them -/

/-- The kind of the first token of `ts`, or `k` where `ts` has none. -/
def firstKind : List Token → Token.Kind → Token.Kind
  | [], k => k
  | t :: _, _ => t.kind

theorem Crosses.firstKind_eq {ts : List Token} (h : p.Crosses ts q) :
    p.current.kind = firstKind ts q.current.kind := by
  cases ts with
  | nil =>
      have ha := h.ahead
      simp only [Parser.ahead, List.nil_append, List.cons.injEq] at ha
      rw [ha.1]
      rfl
  | cons t ts =>
      rw [h.current_eq]
      rfl

/-- In the middle of `depth` expressions, `rule` reads the phrases of `Phrase` that stand before
a token of `Follow`, and nothing else. -/
structure Reads (depth : Nat) (rule : ParseM α) (Phrase : List Token → α → Prop)
    (Follow : Token.Kind → Prop) : Prop where
  sound : ∀ {p q a}, p.Ready depth → rule p = .ok a q →
    ∃ ts, p.Crosses ts q ∧ Phrase ts a ∧ Follow q.current.kind
  complete : ∀ {p q ts a}, p.Ready depth → p.Crosses ts q → Phrase ts a →
    Follow q.current.kind → ∃ q', rule p = .ok a q' ∧ p.Crosses ts q'

def Anything (_ : Token.Kind) : Prop := True

/-- One phrase after another; the second may depend on what the first says. -/
def Then (First : List Token → α → Prop) (Second : α → List Token → β → Prop)
    (ts : List Token) (b : β) : Prop :=
  ∃ xs a ys, ts = xs ++ ys ∧ First xs a ∧ Second a ys b

def OneToken (Says : Token → α → Prop) (ts : List Token) (a : α) : Prop := ∃ t, ts = [t] ∧ Says t a

def TokenThen (Says : Token → α → Prop) (Second : α → List Token → β → Prop)
    (ts : List Token) (b : β) : Prop :=
  ∃ t a ys, ts = t :: ys ∧ Says t a ∧ Second a ys b

/-- Any number of phrases, one after the other, in order. -/
inductive Many (Phrase : List Token → α → Prop) : List Token → List α → Prop
  | nil : Many Phrase [] []
  | cons {xs ys : List Token} {a : α} {as : List α} (first : Phrase xs a)
      (rest : Many Phrase ys as) : Many Phrase (xs ++ ys) (a :: as)

namespace Reads

variable {rule x : ParseM α} {f : α → ParseM β} {Phrase First : List Token → α → Prop}
  {Second : α → List Token → β → Prop} {Says : Token → α → Prop}
  {Follow Middle : Token.Kind → Prop} {kind : Token.Kind}

theorem congr {Phrase' : List Token → α → Prop} (h : Reads depth rule Phrase Follow)
    (hiff : ∀ ts a, Phrase ts a ↔ Phrase' ts a) : Reads depth rule Phrase' Follow where
  sound hp hok := by
    obtain ⟨ts, hc, ht, hf⟩ := h.sound hp hok
    exact ⟨ts, hc, (hiff _ _).mp ht, hf⟩
  complete hp hc ht hf := h.complete hp hc ((hiff _ _).mpr ht) hf

theorem pure (a : α) : Reads depth (pure a) (fun ts b => ts = [] ∧ b = a) Anything where
  sound hp hok := by
    obtain ⟨rfl, rfl⟩ := pure_ok_iff.mp hok
    exact ⟨[], .refl _, ⟨rfl, rfl⟩, trivial⟩
  complete hp hc ht _ := by
    obtain ⟨rfl, rfl⟩ := ht
    exact ⟨_, rfl, .refl _⟩

/-- What follows the first phrase is the second one, or what follows that if it is empty. -/
theorem bind (hx : Reads depth x First Middle) (hf : ∀ a, Reads depth (f a) (Second a) Follow)
    (hmiddle : ∀ {a ts b k}, Second a ts b → Follow k → Middle (firstKind ts k)) :
    Reads depth (x >>= f) (Then First Second) Follow where
  sound hp hok := by
    obtain ⟨a, m, hxa, hfb⟩ := bind_ok_iff.mp hok
    obtain ⟨xs, hcx, hfirst, -⟩ := hx.sound hp hxa
    obtain ⟨ys, hcy, hsecond, hfollow⟩ := (hf a).sound (hcx.ready hp) hfb
    exact ⟨xs ++ ys, hcx.trans hcy, ⟨xs, a, ys, rfl, hfirst, hsecond⟩, hfollow⟩
  complete hp hc ht hfollow := by
    obtain ⟨xs, a, ys, rfl, hfirst, hsecond⟩ := ht
    obtain ⟨m, hcx, hcy⟩ := hc.split
    have hm : Middle m.current.kind := by
      rw [hcy.firstKind_eq]
      exact hmiddle hsecond hfollow
    obtain ⟨m', hxa, hcx'⟩ := hx.complete hp hcx hfirst hm
    obtain ⟨q', hfb, hcy'⟩ := (hf a).complete (hcx'.ready hp) (hc.rest hcx') hsecond hfollow
    exact ⟨q', (bind_of_ok hxa).trans hfb, hcx'.trans hcy'⟩

/-- After a single token anything may follow. -/
theorem tokenBind (hx : Reads depth x (OneToken Says) Anything)
    (hf : ∀ a, Reads depth (f a) (Second a) Follow) :
    Reads depth (x >>= f) (TokenThen Says Second) Follow := by
  refine (hx.bind hf fun _ _ => trivial).congr fun ts b => ?_
  constructor
  · intro h
    obtain ⟨_, a, ys, rfl, ⟨t, rfl, hs⟩, hsecond⟩ := h
    exact ⟨t, a, ys, rfl, hs, hsecond⟩
  · intro h
    obtain ⟨t, a, ys, rfl, hs, hsecond⟩ := h
    exact ⟨[t], a, ys, rfl, ⟨t, rfl, hs⟩, hsecond⟩

/-- An answer computed from another one. -/
theorem map (hx : Reads depth x Phrase Follow) (g : α → β) :
    Reads depth (x >>= fun a => Pure.pure (g a)) (fun ts b => ∃ a, Phrase ts a ∧ b = g a)
      Follow where
  sound hp hok := by
    obtain ⟨a, m, hxa, hpure⟩ := bind_ok_iff.mp hok
    obtain ⟨rfl, rfl⟩ := pure_ok_iff.mp hpure
    obtain ⟨ts, hc, hphrase, hfollow⟩ := hx.sound hp hxa
    exact ⟨ts, hc, ⟨a, hphrase, rfl⟩, hfollow⟩
  complete hp hc ht hfollow := by
    obtain ⟨a, hphrase, rfl⟩ := ht
    obtain ⟨q', hxa, hc'⟩ := hx.complete hp hc hphrase hfollow
    exact ⟨q', bind_of_ok hxa, hc'⟩

theorem tokenMap (hx : Reads depth x (OneToken Says) Anything) (g : α → β) :
    Reads depth (x >>= fun a => Pure.pure (g a)) (OneToken fun t b => ∃ a, Says t a ∧ b = g a)
      Anything := by
  refine (hx.map g).congr fun ts b => ?_
  constructor
  · intro h
    obtain ⟨a, ⟨t, rfl, hs⟩, rfl⟩ := h
    exact ⟨t, rfl, a, hs, rfl⟩
  · intro h
    obtain ⟨t, rfl, a, hs, rfl⟩ := h
    exact ⟨a, ⟨t, rfl, hs⟩, rfl⟩

/-- The same where the token determines the answer. -/
theorem tokenImage {Is : Token → Prop} {f : Token → α}
    (hx : Reads depth x (OneToken fun t a => Is t ∧ a = f t) Anything) (g : α → β) :
    Reads depth (x >>= fun a => Pure.pure (g a)) (OneToken fun t b => Is t ∧ b = g (f t))
      Anything := by
  refine (hx.tokenMap g).congr fun ts b => ?_
  constructor
  · intro h
    obtain ⟨t, rfl, _, ⟨hs, rfl⟩, rfl⟩ := h
    exact ⟨t, rfl, hs, rfl⟩
  · intro h
    obtain ⟨t, rfl, hs, rfl⟩ := h
    exact ⟨t, rfl, _, ⟨hs, rfl⟩, rfl⟩

theorem expect (hk : kind ≠ .endOfFile) :
    Reads depth (expect kind) (OneToken fun t a => t.kind = kind ∧ a = t) Anything where
  sound hp hok := by
    obtain ⟨hkind, rfl, rfl⟩ := expect_ok_iff.mp hok
    exact ⟨_, next_crosses hp (by rw [hkind]; exact hk), ⟨_, rfl, hkind, rfl⟩, trivial⟩
  complete {p q ts a} hp hc ht _ := by
    obtain ⟨t, rfl, hkind, rfl⟩ := ht
    obtain rfl := hc.current_eq
    exact ⟨p.next, expect_ok_iff.mpr ⟨hkind, rfl, rfl⟩, next_crosses hp (by rw [hkind]; exact hk)⟩

theorem expectKeyword (word : Keyword) :
    Reads depth (expectKeyword word) (OneToken fun t _ => t.kind = .keyword word) Anything :=
  ((expect (by simp)).tokenMap fun _ => ()).congr fun ts a => by simp [OneToken]

theorem expectMark (mark : Punctuation) :
    Reads depth (expectMark mark) (OneToken fun t _ => t.kind = .punctuation mark) Anything :=
  ((expect (by simp)).tokenMap fun _ => ()).congr fun ts a => by simp [OneToken]

/-- Many rules end in a mark after which nothing is left but the answer. -/
theorem markPure (mark : Punctuation) (a : α) :
    Reads depth (Parser.expectMark mark >>= fun _ => Pure.pure a)
      (OneToken fun t b => t.kind = .punctuation mark ∧ b = a) Anything :=
  ((expectMark mark).tokenMap fun _ => a).congr fun ts b => by simp [OneToken]

theorem identifier : Reads depth identifier
    (OneToken fun t v => t.kind = .identifier ∧ v = .ofName t.lexeme) Anything :=
  (expect (by simp)).tokenImage fun t => Variable.ofName t.lexeme

/-- The end is not passed: it is what follows the empty phrase. -/
theorem expectEnd : Reads depth expectEnd (fun ts _ => ts = []) (· = .endOfFile) where
  sound hp hok := by
    obtain ⟨t, m, hend, hpure⟩ := bind_ok_iff.mp hok
    obtain ⟨hkind, -, rfl⟩ := expect_ok_iff.mp hend
    obtain ⟨-, rfl⟩ := pure_ok_iff.mp hpure
    rw [next_of_end hkind]
    exact ⟨[], .refl _, rfl, hkind⟩
  complete {p q ts a} hp hc ht hfollow := by
    subst ht
    have hkind : p.current.kind = .endOfFile := hc.firstKind_eq.trans hfollow
    refine ⟨p, ?_, .refl p⟩
    refine bind_ok_iff.mpr ⟨p.current, p, expect_ok_iff.mpr ⟨hkind, rfl, next_of_end hkind⟩, rfl⟩

/-- A token that may be left out, where what stands without it cannot start with it. -/
theorem acceptBind {r : Bool → ParseM α} {Rest : Bool → List Token → α → Prop}
    (hk : kind ≠ .endOfFile) (hr : ∀ found, Reads depth (r found) (Rest found) Follow)
    (hne : ∀ {ts a k}, Rest false ts a → Follow k → firstKind ts k ≠ kind) :
    Reads depth (accept kind >>= r)
      (fun ts a => (∃ t ys, ts = t :: ys ∧ t.kind = kind ∧ Rest true ys a) ∨ Rest false ts a)
      Follow where
  sound {p q a} hp hok := by
    obtain ⟨found, m, haccept, hrest⟩ := bind_ok_iff.mp hok
    simp only [accept, peek_bind] at haccept
    by_cases hkind : p.current.kind = kind
    · rw [if_pos hkind, advance_bind] at haccept
      obtain ⟨rfl, rfl⟩ := pure_ok_iff.mp haccept
      have hnext := next_crosses hp (by rw [hkind]; exact hk)
      obtain ⟨ys, hc, hphrase, hfollow⟩ := (hr true).sound (hnext.ready hp) hrest
      exact ⟨_, hnext.trans hc, .inl ⟨_, ys, rfl, hkind, hphrase⟩, hfollow⟩
    · rw [if_neg hkind] at haccept
      obtain ⟨rfl, rfl⟩ := pure_ok_iff.mp haccept
      obtain ⟨ts, hc, hphrase, hfollow⟩ := (hr false).sound hp hrest
      exact ⟨ts, hc, .inr hphrase, hfollow⟩
  complete {p q ts a} hp hc ht hfollow := by
    rcases ht with ⟨t, ys, rfl, hkind, hphrase⟩ | hphrase
    · obtain rfl := hc.current_eq
      have hnext := next_crosses hp (by rw [hkind]; exact hk)
      have haccept : accept kind p = .ok true p.next := by
        simp only [accept, peek_bind]
        rw [if_pos hkind]
        rfl
      have hrest : p.next.Crosses ys q := (show p.Crosses ([p.current] ++ ys) q from hc).rest hnext
      obtain ⟨q', hok, hc'⟩ := (hr true).complete (hnext.ready hp) hrest hphrase hfollow
      exact ⟨q', (bind_of_ok haccept).trans hok, hnext.trans hc'⟩
    · have hkind : p.current.kind ≠ kind := by
        rw [hc.firstKind_eq]
        exact hne hphrase hfollow
      have haccept : accept kind p = .ok false p := by
        simp only [accept, peek_bind]
        rw [if_neg hkind]
        rfl
      obtain ⟨q', hok, hc'⟩ := (hr false).complete hp hc hphrase hfollow
      exact ⟨q', (bind_of_ok haccept).trans hok, hc'⟩

end Reads

/-! ## Lists of phrases -/

section Items

variable {stop : Token.Kind → Bool} {item : ParseM α} {Phrase : List Token → α → Prop}

theorem Crosses.length_lt {t : Token} {ts : List Token} (h : p.Crosses (t :: ts) q) :
    q.ahead.length < p.ahead.length := by
  rw [h.ahead, List.length_append, List.length_cons]
  omega

/-- The fuel is never used up: there are at least as many tokens in it as ahead. -/
theorem itemsFuel_sound (hitem : Reads depth item Phrase Anything)
    (hstart : ∀ {ts a}, Phrase ts a → ∃ t rest, ts = t :: rest ∧ stop t.kind = false)
    {fuel : List Token} {as : List α} (hp : p.Ready depth) (hfuel : p.ahead.length ≤ fuel.length)
    (hok : itemsFuel stop item fuel p = .ok as q) :
    ∃ ts, p.Crosses ts q ∧ Many Phrase ts as ∧ stop q.current.kind = true := by
  induction fuel generalizing p as with
  | nil => simp [ahead] at hfuel
  | cons _ fuel ih =>
      simp only [itemsFuel, peek_bind] at hok
      by_cases hstop : stop p.current.kind = true
      · rw [if_pos hstop] at hok
        obtain ⟨rfl, rfl⟩ := pure_ok_iff.mp hok
        exact ⟨[], .refl p, .nil, hstop⟩
      · rw [if_neg hstop] at hok
        obtain ⟨a, m, hfirst, hok⟩ := bind_ok_iff.mp hok
        obtain ⟨rest, q', hrest, hok⟩ := bind_ok_iff.mp hok
        obtain ⟨rfl, rfl⟩ := pure_ok_iff.mp hok
        obtain ⟨xs, hcx, hphrase, -⟩ := hitem.sound hp hfirst
        obtain ⟨t, xs', rfl, -⟩ := hstart hphrase
        have hlt := hcx.length_lt
        simp only [List.length_cons] at hfuel
        obtain ⟨ys, hcy, hmany, hend⟩ := ih (hcx.ready hp) (by omega) hrest
        exact ⟨_, hcx.trans hcy, .cons hphrase hmany, hend⟩

theorem itemsFuel_complete (hitem : Reads depth item Phrase Anything)
    (hstart : ∀ {ts a}, Phrase ts a → ∃ t rest, ts = t :: rest ∧ stop t.kind = false)
    {fuel ts : List Token} {as : List α} (hp : p.Ready depth)
    (hfuel : p.ahead.length ≤ fuel.length) (hc : p.Crosses ts q) (hmany : Many Phrase ts as)
    (hstop : stop q.current.kind = true) :
    ∃ q', itemsFuel stop item fuel p = .ok as q' ∧ p.Crosses ts q' := by
  induction hmany generalizing p fuel with
  | nil =>
      cases fuel with
      | nil => simp [ahead] at hfuel
      | cons _ fuel =>
          have hs : stop p.current.kind = true := by rw [hc.firstKind_eq]; exact hstop
          refine ⟨p, ?_, .refl p⟩
          simp only [itemsFuel, peek_bind]
          rw [if_pos hs]
          rfl
  | @cons xs ys a as first rest ih =>
      cases fuel with
      | nil => simp [ahead] at hfuel
      | cons _ fuel =>
          obtain ⟨m, hcx, -⟩ := hc.split
          obtain ⟨m', hfirst, hcx'⟩ := hitem.complete hp hcx first trivial
          obtain ⟨t, xs', rfl, hs⟩ := hstart first
          have hlt := hcx'.length_lt
          simp only [List.length_cons] at hfuel
          obtain ⟨q', hrest, hcy⟩ := ih (hcx'.ready hp)
            (show m'.ahead.length ≤ fuel.length by omega) (hc.rest hcx')
          have hcurrent : p.current = t := hcx'.current_eq
          refine ⟨q', ?_, hcx'.trans hcy⟩
          simp only [itemsFuel, peek_bind]
          rw [if_neg (by simp [hcurrent, hs]), bind_of_ok hfirst, bind_of_ok hrest]
          rfl

/-- Items are read up to a token at which the list stops, if no item starts with such a token. -/
theorem Reads.items (hitem : Reads depth item Phrase Anything)
    (hstart : ∀ {ts a}, Phrase ts a → ∃ t rest, ts = t :: rest ∧ stop t.kind = false) :
    Reads depth (items stop item) (Many Phrase) (fun kind => stop kind = true) where
  sound hp hok := itemsFuel_sound hitem hstart hp (Nat.le_refl _) hok
  complete hp hc ht hfollow := itemsFuel_complete hitem hstart hp (Nat.le_refl _) hc ht hfollow

end Items

/-! ## Whole token lists -/

theorem read_ok_iff {rule : ParseM α} {tokens : List Token} :
    read rule tokens = .ok a ↔ ∃ q, rule (ofTokens tokens) = .ok a q := by
  unfold read
  cases rule (ofTokens tokens) <;> simp

theorem ok_of_toOption {x : Except Fault α} (h : x.toOption = some a) : x = .ok a := by
  cases x with
  | ok a' => simpa [Except.toOption] using h
  | error fault => simp [Except.toOption] at h

theorem ofTokens_ahead (tokens : List Token) : (ofTokens tokens).ahead = terminated tokens := by
  obtain ⟨body, last, htokens, -⟩ := terminated_ends tokens
  unfold ofTokens
  cases hcase : terminated tokens with
  | nil => simp [hcase] at htokens
  | cons first rest => rfl

theorem ofTokens_passed (tokens : List Token) : (ofTokens tokens).passed = [] := by
  unfold ofTokens
  split <;> rfl

theorem ofTokens_nesting (tokens : List Token) : (ofTokens tokens).nesting = 0 := by
  unfold ofTokens
  split <;> rfl

theorem ofTokens_ready (tokens : List Token) : (ofTokens tokens).Ready 0 := by
  have htokens : (ofTokens tokens).tokens = terminated tokens := by
    change (ofTokens tokens).passed.reverse ++ (ofTokens tokens).ahead = _
    rw [ofTokens_passed, ofTokens_ahead]
    rfl
  exact ready_of_tokens htokens (ofTokens_nesting tokens)

theorem terminated_of_end {body : List Token} {last : Token} (hlast : last.kind = .endOfFile) :
    terminated (body ++ [last]) = body ++ [last] := by simp [terminated, hlast]

/-- A list that has no end but its last token can be cut before its first end in one way only. -/
theorem cut_unique {xs ys body : List Token} {x last : Token}
    (heq : xs ++ x :: ys = body ++ [last]) (hx : x.kind = .endOfFile)
    (hxs : ∀ t ∈ xs, t.kind ≠ .endOfFile) (hlast : last.kind = .endOfFile)
    (hbody : ∀ t ∈ body, t.kind ≠ .endOfFile) : xs = body := by
  have hcut := congrArg (List.takeWhile fun t => decide (t.kind ≠ .endOfFile)) heq
  rw [List.takeWhile_append_of_pos (by simpa using hxs),
    List.takeWhile_append_of_pos (by simpa using hbody)] at hcut
  simpa [hx, hlast] using hcut

/-- A rule that reads up to the end reads a whole list, if the list has no end before its last
token. -/
theorem Reads.read_iff {rule : ParseM α} {Phrase : List Token → α → Prop}
    (hrule : Reads 0 rule Phrase (· = .endOfFile)) {body : List Token} {last : Token}
    (hlast : last.kind = .endOfFile) (hbody : ∀ t ∈ body, t.kind ≠ .endOfFile) :
    read rule (body ++ [last]) = .ok a ↔ Phrase body a := by
  have hready := ofTokens_ready (body ++ [last])
  have hahead : (ofTokens (body ++ [last])).ahead = body ++ [last] := by
    rw [ofTokens_ahead, terminated_of_end hlast]
  rw [read_ok_iff]
  constructor
  · intro h
    obtain ⟨q, hok⟩ := h
    obtain ⟨ts, hc, hphrase, hend⟩ := hrule.sound hready hok
    have hcut : ts ++ q.current :: q.upcoming = body ++ [last] := hc.ahead.symm.trans hahead
    rwa [cut_unique hcut hend hc.inside hlast hbody] at hphrase
  · intro hphrase
    let q : Parser := ⟨body.reverse, last, [], 0, 0⟩
    have hc : (ofTokens (body ++ [last])).Crosses body q :=
      ⟨by simp [q, ofTokens_passed], hahead, (ofTokens_nesting _).symm, hbody⟩
    obtain ⟨q', hok, -⟩ := hrule.complete hready hc hphrase hlast
    exact ⟨q', hok⟩

end StateLang.Parser
