import Mathlib
import PredicateStrength.Proofs.Expr.Grammar

/-!
# What the parser reads

Whatever the parser takes off the front of the tokens has a derivation. The levels that a
derivation counts are the levels that the parser had left, so the proof follows the levels, and
within one level the readers from the tightest strength to the loosest.

Main statement: the parser accepts exactly what the grammar derives (`ofTokens_eq_ok_iff`).
-/
namespace PredicateStrength

namespace Parser

/-- The tokens in front of `rest` form the tree. -/
def Formed (n k : Nat) (ts : List Token) (e : Expr) (rest : List Token) : Prop :=
  ∃ us, ts = us ++ rest ∧ Derives n k (us.map Token.word) e

/-- What the reader takes off forms the tree that it returns. -/
def Sound (n k : Nat) (r : Reader Expr) : Prop :=
  ∀ ts p, r ts = .ok p → Formed n k ts p.value p.rest

/-- A reader of a deeper level: it returns something only if a level is left for it. -/
def SoundInside (n k : Nat) (r : Reader Expr) : Prop :=
  ∀ ts p, r ts = .ok p → ∃ m, n = m + 1 ∧ Formed m k ts p.value p.rest

/-- The readers of the next level are sound where `n` levels are left. -/
structure Level.Sound (n : Nat) (inner : Level) : Prop where
  disjunction : SoundInside n 1 inner.disjunction
  negation : SoundInside n 3 inner.negation
  unary : SoundInside n 10 inner.unary

variable {n k : Nat} {inner : Level} {a b e : Expr} {ts mid rest : List Token} {t u : Token}

theorem sign?_front {s : String} {p : Parsed Unit ts.length} (h : sign? s ts = some p) :
    ∃ t, ts = t :: p.rest ∧ t.word = ⟨.operator, s⟩ := by
  cases ts with
  | nil => cases h
  | cons t ts =>
    rw [sign?] at h
    split at h
    · next found =>
      cases h
      have sign : t.kind = .operator ∧ t.lexeme = s := by
        simpa [Token.isOperator] using found
      exact ⟨t, rfl, by rw [Token.word, sign.1, sign.2]⟩
    · cases h

theorem expect_front {kind : TokenKind} {expected : Expected} {p : Parsed Unit ts.length}
    (h : expect kind expected ts = .ok p) : ∃ t, ts = t :: p.rest ∧ t.kind = kind := by
  cases ts with
  | nil => cases h
  | cons t ts =>
    rw [expect] at h
    split at h
    · next same =>
      cases h
      exact ⟨t, rfl, same⟩
    · cases h

theorem bind_eq_ok {ε α β : Type} {x : Except ε α} {f : α → Except ε β} {b : β}
    (h : x >>= f = .ok b) : ∃ a, x = .ok a ∧ f a = .ok b := by
  cases x with
  | error => cases h
  | ok a => exact ⟨a, rfl, h⟩

theorem Formed.tighter (h : Formed n (k + 1) ts e rest) (positive : 0 < k) (bounded : k < 12) :
    Formed n k ts e rest := by
  obtain ⟨us, rfl, derives⟩ := h
  exact ⟨us, rfl, .tighter positive bounded derives⟩

theorem Formed.between {o : Operator} {j m i : Nat} {back : List Token}
    (first : Formed n j ts a back) (front : back = t :: mid) (second : Formed m k mid b rest)
    (joined : ∀ {vs ws}, Derives n j vs a → Derives m k ws b →
      Derives n i (vs ++ t.word :: ws) (.binary o a b)) :
    Formed n i ts (.binary o a b) rest := by
  obtain ⟨us, rfl, left⟩ := first
  obtain ⟨vs, rfl, right⟩ := second
  exact ⟨us ++ t :: vs, by simp [front], by simpa using joined left right⟩

theorem Formed.behind (h : Formed n k mid e rest) (front : ts = t :: mid)
    (signed : ∀ {ws}, Derives n k ws e → Derives (n + 1) k (t.word :: ws) a) :
    Formed (n + 1) k ts a rest := by
  obtain ⟨us, rfl, derives⟩ := h
  subst front
  exact ⟨t :: us, rfl, signed derives⟩

theorem formed_of_chain {ops : List Operator} {next : Reader Expr}
    (grouped : ∀ o ∈ ops, groupsLeft o = true ∧ o.precedence = k) (sound : Sound n (k + 1) next)
    {start : List Token} {p : Parsed Expr (ts.length + 1)} (h : chain ops next a ts = .ok p)
    (first : Formed n k start a ts) : Formed n k start p.value p.rest := by
  fun_induction chain ops next a ts with
  | case1 | case5 =>
    cases h
    exact first
  | case2 | case3 => cases h
  | case4 lhs ts o found mem rhs read _ _ q more ih =>
    cases h
    obtain ⟨t, front, spelled⟩ := spells_of_operator? found
    obtain ⟨left, rfl⟩ := grouped o.value mem
    exact ih more (first.between front (sound _ _ read) (Derives.left left spelled))

theorem sound_leftAssoc {ops : List Operator} {next : Reader Expr} (sound : Sound n (k + 1) next)
    (grouped : ∀ o ∈ ops, groupsLeft o = true ∧ o.precedence = k) (positive : 0 < k)
    (bounded : k < 12) : Sound n k (leftAssoc ops next) := by
  intro ts p h
  unfold Parser.leftAssoc at h
  split at h
  · cases h
  · next lhs read =>
    split at h
    · cases h
    · next r more =>
      cases h
      exact formed_of_chain grouped sound more ((sound _ _ read).tighter positive bounded)

theorem formed_arguments (sound : inner.Sound n) {p : Parsed (List Expr) ts.length}
    (h : arguments inner ts = .ok p) :
    ∃ m us r, n = m + 1 ∧ ts = us ++ r :: p.rest ∧ r.kind = .rparen ∧
      DerivesAll m (us.map Token.word) p.value := by
  fun_induction arguments inner ts with
  | case1 | case2 | case3 | case6 => cases h
  | case4 ts arg t rest shorter read comma _ q more ih =>
    cases h
    obtain ⟨m, rfl, us, front, first⟩ := sound.disjunction _ _ read
    obtain ⟨m', vs, r, same, rest, close, later⟩ := ih more
    obtain rfl := Nat.succ.inj same
    refine ⟨m, us ++ t :: vs, r, rfl, ?_, close, ?_⟩
    · exact front.trans (by simp only [rest, List.append_assoc, List.cons_append])
    · simpa using DerivesAll.more comma first later
  | case5 ts arg t rest shorter read _ close =>
    cases h
    obtain ⟨m, same, us, front, first⟩ := sound.disjunction _ _ read
    exact ⟨m, us, t, same, front, close, .one first⟩

theorem formed_argumentList (sound : inner.Sound n) {p : Parsed (List Expr) ts.length}
    (h : argumentList inner ts = .ok p) {start : List Token} (open_ : t.kind = .lparen)
    (callee : Formed n 12 start a (t :: ts)) : Formed n 12 start (.call a p.value) p.rest := by
  obtain ⟨us, rfl, derives⟩ := callee
  unfold argumentList at h
  split at h
  · next r closed =>
    cases h
    obtain ⟨r', front, close⟩ := expect_front closed
    refine ⟨us ++ [t, r'], by simp [← front], ?_⟩
    simpa using Derives.apply open_ close derives
  · obtain ⟨m, vs, r, rfl, front, close, args⟩ := formed_arguments sound h
    refine ⟨us ++ t :: (vs ++ [r]), by simp [← front], ?_⟩
    simpa using Derives.call open_ close derives args

theorem formed_of_postfixStep (sound : inner.Sound n) {start : List Token}
    {p : Parsed Expr ts.length} (h : postfixStep inner a ts = .ok (some p))
    (base : Formed n 12 start a ts) : Formed n 12 start p.value p.rest := by
  cases ts with
  | nil => cases h
  | cons t ts =>
    unfold postfixStep at h
    dsimp only at h
    split at h
    · next open_ =>
      obtain ⟨args, read, same⟩ := bind_eq_ok h
      cases same
      exact formed_argumentList sound read open_ base
    · next open_ =>
      obtain ⟨key, read, h⟩ := bind_eq_ok h
      obtain ⟨r, closed, same⟩ := bind_eq_ok h
      cases same
      obtain ⟨m, rfl, vs, front, inside⟩ := sound.disjunction _ _ read
      obtain ⟨t', front', close⟩ := expect_front closed
      obtain ⟨us, rfl, derives⟩ := base
      refine ⟨us ++ t :: (vs ++ [t']), by simp [front, front'], ?_⟩
      simpa using Derives.index open_ close derives inside
    · next dot =>
      split at h
      · cases h
      · next u us =>
        split at h
        · next name =>
          cases h
          obtain ⟨vs, rfl, derives⟩ := base
          refine ⟨vs ++ [t, u], by simp, ?_⟩
          rw [List.map_append]
          exact Derives.member dot name derives
        · cases h
    · cases h

theorem formed_of_postfixes (sound : inner.Sound n) {start : List Token}
    {p : Parsed Expr (ts.length + 1)} (h : postfixes inner a ts = .ok p)
    (base : Formed n 12 start a ts) : Formed n 12 start p.value p.rest := by
  fun_induction postfixes inner a ts with
  | case1 | case3 => cases h
  | case2 =>
    cases h
    exact base
  | case4 node ts q step _ r more ih =>
    cases h
    exact ih more (formed_of_postfixStep sound step base)

theorem sound_primary (sound : inner.Sound n) : Sound n 12 (primary inner) := by
  intro ts p h
  cases ts with
  | nil => cases h
  | cons t ts =>
    unfold primary at h
    dsimp only at h
    split at h
    · next number =>
      cases h
      have word : t.word = ⟨.number, t.lexeme⟩ := by rw [← number]; rfl
      refine ⟨[t], rfl, ?_⟩
      rw [List.map_singleton, word]
      exact .num t.lexeme
    · next identifier =>
      cases h
      have word : t.word = ⟨.identifier, t.lexeme⟩ := by rw [← identifier]; rfl
      refine ⟨[t], rfl, ?_⟩
      rw [List.map_singleton, word]
      exact .name t.lexeme
    · next open_ =>
      obtain ⟨e, read, h⟩ := bind_eq_ok h
      obtain ⟨r, closed, same⟩ := bind_eq_ok h
      cases same
      obtain ⟨m, rfl, us, front, inside⟩ := sound.disjunction _ _ read
      obtain ⟨t', front', close⟩ := expect_front closed
      refine ⟨t :: (us ++ [t']), by simp [front, front'], ?_⟩
      simpa using Derives.paren open_ close inside
    · cases h

theorem sound_access (sound : inner.Sound n) : Sound n 12 (access inner) := by
  intro ts p h
  unfold access at h
  split at h
  · cases h
  · next base read =>
    split at h
    · cases h
    · next r more =>
      cases h
      exact formed_of_postfixes sound more (sound_primary sound _ _ read)

theorem sound_power (sound : inner.Sound n) : Sound n 11 (power inner) := by
  intro ts p h
  obtain ⟨base, read, h⟩ := bind_eq_ok h
  have first := sound_access sound _ _ read
  split at h
  · next rest shorter found =>
    obtain ⟨e, exponent, same⟩ := bind_eq_ok h
    cases same
    obtain ⟨m, rfl, second⟩ := sound.unary _ _ exponent
    obtain ⟨t, front, spelled⟩ := spells_of_operator? found
    exact first.between front second (Derives.pow spelled)
  · cases h
    exact first.tighter (by decide) (by decide)

theorem sound_unary (sound : inner.Sound n) : Sound n 10 (unary inner) := by
  intro ts p h
  unfold unary at h
  split at h
  · next s found =>
    obtain ⟨e, read, same⟩ := bind_eq_ok h
    cases same
    obtain ⟨m, rfl, operand⟩ := sound.unary _ _ read
    obtain ⟨t, front, sign⟩ := sign?_front found
    exact operand.behind front (sign ▸ Derives.neg)
  · exact (sound_power sound _ _ h).tighter (by decide) (by decide)

theorem sound_bitOr (sound : inner.Sound n) : Sound n 5 (bitOr inner) := by
  have products : Sound n 9 (multiplicative inner) :=
    sound_leftAssoc (sound_unary sound) (by decide) (by decide) (by decide)
  have sums : Sound n 8 (additive inner) :=
    sound_leftAssoc products (by decide) (by decide) (by decide)
  have ands : Sound n 7 (bitAnd inner) := sound_leftAssoc sums (by decide) (by decide) (by decide)
  have xors : Sound n 6 (bitXor inner) := sound_leftAssoc ands (by decide) (by decide) (by decide)
  exact sound_leftAssoc xors (by decide) (by decide) (by decide)

theorem sound_comparison (sound : inner.Sound n) : Sound n 4 (comparison inner) := by
  intro ts p h
  obtain ⟨lhs, read, h⟩ := bind_eq_ok h
  have first := sound_bitOr sound _ _ read
  split at h
  · next o found =>
    split at h
    · next relational =>
      obtain ⟨rhs, read', same⟩ := bind_eq_ok h
      cases same
      obtain ⟨t, front, spelled⟩ := spells_of_operator? found
      exact first.between front (sound_bitOr sound _ _ read') (Derives.relation relational spelled)
    · cases h
      exact first.tighter (by decide) (by decide)
  · cases h
    exact first.tighter (by decide) (by decide)

theorem sound_negation (sound : inner.Sound n) : Sound n 3 (negation inner) := by
  intro ts p h
  unfold negation at h
  split at h
  · next s found =>
    obtain ⟨e, read, same⟩ := bind_eq_ok h
    cases same
    obtain ⟨m, rfl, operand⟩ := sound.negation _ _ read
    obtain ⟨t, front, sign⟩ := sign?_front found
    exact operand.behind front (sign ▸ Derives.not)
  · exact (sound_comparison sound _ _ h).tighter (by decide) (by decide)

theorem sound_disjunction (sound : inner.Sound n) : Sound n 1 (disjunction inner) := by
  have conjunctions : Sound n 2 (conjunction inner) :=
    sound_leftAssoc (sound_negation sound) (by decide) (by decide) (by decide)
  exact sound_leftAssoc conjunctions (by decide) (by decide) (by decide)

/-- Each level hands on what it is given: one level less. -/
theorem sound_level (n : Nat) : (level n).Sound n := by
  induction n with
  | zero => constructor <;> intro ts p h <;> cases h
  | succ n ih =>
    constructor <;> intro ts p h
    · exact ⟨n, rfl, sound_disjunction ih _ _ h⟩
    · exact ⟨n, rfl, sound_negation ih _ _ h⟩
    · exact ⟨n, rfl, sound_unary ih _ _ h⟩

end Parser

theorem Expr.parseAll_of_ofTokens {ts : List Token} {e : Expr} (h : Expr.ofTokens ts = .ok e) :
    Parser.parseAll ts = .ok e := by
  unfold Expr.ofTokens at h
  cases result : Parser.parseAll ts with
  | error => rw [result] at h; cases h
  | ok e' =>
    rw [result] at h
    cases h
    rfl

/-- What the parser returns is derived within the nesting limit. -/
theorem Expr.derives_of_ofTokens {ts : List Token} {e : Expr} (h : Expr.ofTokens ts = .ok e) :
    Parser.Derives Parser.maxNesting 1 (ts.map Token.word) e := by
  obtain ⟨p, read, h⟩ := Parser.bind_eq_ok (parseAll_of_ofTokens h)
  obtain ⟨us, front, derives⟩ := Parser.sound_disjunction (Parser.sound_level _) _ _ read
  split at h
  · next last =>
    cases h
    obtain rfl : us = ts := by rw [front, last, List.append_nil]
    exact derives
  · cases h

/-- The parser accepts what the grammar derives within the nesting limit, and nothing else. -/
theorem Expr.ofTokens_eq_ok_iff {ts : List Token} {e : Expr} :
    Expr.ofTokens ts = .ok e ↔ Parser.Derives Parser.maxNesting 1 (ts.map Token.word) e :=
  ⟨derives_of_ofTokens, ofTokens_of_derives⟩

/-- What is read from a text is derived from the words of the text. -/
theorem Expr.exists_tokens_of_ofText {text : String} {e : Expr} (h : Expr.ofText text = .ok e) :
    ∃ ts, Token.ofText text = .ok ts ∧
      Parser.Derives Parser.maxNesting 1 (ts.map Token.word) e := by
  unfold Expr.ofText at h
  cases tokens : Token.ofText text with
  | error => rw [tokens] at h; cases h
  | ok ts =>
    rw [tokens] at h
    cases parsed : Expr.ofTokens ts with
    | error => simp [parsed, Except.mapError, bind, Except.bind] at h
    | ok e' =>
      obtain rfl : e' = e := by simpa [parsed, Except.mapError, bind, Except.bind] using h
      exact ⟨ts, rfl, derives_of_ofTokens parsed⟩

end PredicateStrength
