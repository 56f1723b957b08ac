import Mathlib
import PredicateStrength.Expr.Parser

/-!
# The grammar of predicates

A derivation says which words form a tree, at which binding strength and with how many nesting
levels open inside. It mentions neither what follows the words nor where they stand in the text.

Main statement: the parser reads the tree of every derivation (`ofTokens_of_derives`). A reader of
some strength is followed through what comes behind the words that it reads: operators of its own
strength extend the tree that a left-associative reader has so far, and calls, keys and members
extend the tree that stands in front of them.
-/
namespace PredicateStrength

/-- A token without its place in the text. -/
structure Word where
  kind : TokenKind
  lexeme : String
deriving DecidableEq

def Token.word (t : Token) : Word := ⟨t.kind, t.lexeme⟩

namespace Parser

/-- The operators whose chains group to the left. -/
def groupsLeft (o : Operator) : Bool := !o.isRelational && o ≠ .pow

/-- The word is the operator. -/
def Spells (w : Word) (o : Operator) : Prop := w.kind = .operator ∧ w.lexeme = o.symbol

mutual
/-- `Derives n k ws e`: the words `ws` form the tree `e`. It binds at least as tightly as `k`, and
at most `n` nesting levels are open inside at once. -/
inductive Derives : Nat → Nat → List Word → Expr → Prop
  | tighter {n k ws e} : 0 < k → k < 12 → Derives n (k + 1) ws e → Derives n k ws e
  | left {n o vs w ws a b} : groupsLeft o = true → Spells w o → Derives n o.precedence vs a →
      Derives n (o.precedence + 1) ws b → Derives n o.precedence (vs ++ w :: ws) (.binary o a b)
  | relation {n o vs w ws a b} : o.isRelational = true → Spells w o → Derives n 5 vs a →
      Derives n 5 ws b → Derives n 4 (vs ++ w :: ws) (.binary o a b)
  | not {n ws e} : Derives n 3 ws e → Derives (n + 1) 3 (⟨.operator, "!"⟩ :: ws) (.not e)
  | neg {n ws e} : Derives n 10 ws e → Derives (n + 1) 10 (⟨.operator, "-"⟩ :: ws) (.neg e)
  | pow {n vs w ws a b} : Spells w .pow → Derives (n + 1) 12 vs a → Derives n 10 ws b →
      Derives (n + 1) 11 (vs ++ w :: ws) (.binary .pow a b)
  | num {n} (lexeme) : Derives n 12 [⟨.number, lexeme⟩] (.num lexeme)
  | name {n} (lexeme) : Derives n 12 [⟨.identifier, lexeme⟩] (name lexeme)
  | paren {n l ws r e} : l.kind = .lparen → r.kind = .rparen → Derives n 1 ws e →
      Derives (n + 1) 12 (l :: (ws ++ [r])) e
  | apply {n ws l r f} : l.kind = .lparen → r.kind = .rparen → Derives n 12 ws f →
      Derives n 12 (ws ++ [l, r]) (.call f [])
  | call {n vs l ws r f args} : l.kind = .lparen → r.kind = .rparen → Derives (n + 1) 12 vs f →
      DerivesAll n ws args → Derives (n + 1) 12 (vs ++ l :: (ws ++ [r])) (.call f args)
  | index {n vs l ws r base key} : l.kind = .lbracket → r.kind = .rbracket →
      Derives (n + 1) 12 vs base → Derives n 1 ws key →
      Derives (n + 1) 12 (vs ++ l :: (ws ++ [r])) (.index base key)
  | member {n ws d u base} : d.kind = .dot → u.kind = .identifier → Derives n 12 ws base →
      Derives n 12 (ws ++ [d, u]) (members base u.lexeme)

/-- The words form call arguments, at least one. -/
inductive DerivesAll : Nat → List Word → List Expr → Prop
  | one {n ws e} : Derives n 1 ws e → DerivesAll n ws [e]
  | more {n vs c ws e es} : c.kind = .comma → Derives n 1 vs e → DerivesAll n ws es →
      DerivesAll n (vs ++ c :: ws) (e :: es)
end

/-- A tree starts with a number, a name, a parenthesis or a sign that its strength allows. -/
theorem Derives.head {n k : Nat} {ws : List Word} {e : Expr} (h : Derives n k ws e) :
    ∃ w rest, ws = w :: rest ∧ w.kind ≠ .rparen ∧
      (w.kind = .operator → w.lexeme = "!" ∧ k ≤ 3 ∨ w.lexeme = "-" ∧ k ≤ 10) := by
  induction h using Derives.rec (motive_2 := fun _ _ _ _ => True) with
  | tighter _ _ _ ih =>
    obtain ⟨w, rest, same, kind, sign⟩ := ih
    refine ⟨w, rest, same, kind, fun operator => (sign operator).imp ?_ ?_⟩
    · exact fun h => ⟨h.1, by omega⟩
    · exact fun h => ⟨h.1, by omega⟩
  | not | neg => exact ⟨_, _, rfl, by simp, by simp⟩
  | num | name => exact ⟨_, _, rfl, by simp, by simp⟩
  | paren l => exact ⟨_, _, rfl, by simp [l], by simp [l]⟩
  | left _ _ _ _ ih | call _ _ _ _ ih | index _ _ _ _ ih | member _ _ _ ih | apply _ _ _ ih =>
    obtain ⟨w, rest, rfl, kind, sign⟩ := ih
    exact ⟨w, rest ++ _, rfl, kind, sign⟩
  | relation _ _ _ _ ih | pow _ _ _ ih =>
    obtain ⟨w, rest, rfl, kind, sign⟩ := ih
    refine ⟨w, rest ++ _, rfl, kind, fun operator => (sign operator).imp ?_ ?_⟩
    · exact fun h => ⟨h.1, by omega⟩
    · exact fun h => ⟨h.1, by omega⟩
  | one | more => trivial

theorem DerivesAll.head {n : Nat} {ws : List Word} {es : List Expr} (h : DerivesAll n ws es) :
    ∃ w rest, ws = w :: rest ∧ w.kind ≠ .rparen := by
  cases h with
  | one derives =>
    obtain ⟨w, rest, same, kind, -⟩ := derives.head
    exact ⟨w, rest, same, kind⟩
  | more _ derives =>
    obtain ⟨w, rest, rfl, kind, -⟩ := derives.head
    exact ⟨w, rest ++ _, rfl, kind⟩

theorem Derives.of_le {n k m : Nat} {ws : List Word} {e : Expr} (h : Derives n k ws e)
    (positive : 0 < m) (le : m ≤ k) (bounded : k ≤ 12) : Derives n m ws e := by
  induction le using Nat.decreasingInduction with
  | self => exact h
  | of_succ j below ih => exact .tighter positive (by omega) (ih (by omega))

/-- The reader takes `a` off the front of the tokens and leaves `rest`. -/
def Reads {α : Type} (r : Reader α) (ts : List Token) (a : α) (rest : List Token) : Prop :=
  ∃ p, r ts = .ok p ∧ p.value = a ∧ p.rest = rest

/-- Chained operators extend `lhs` to `e` and leave `rest`. -/
def Chains (ops : List Operator) (next : Reader Expr) (lhs : Expr) (ts : List Token) (e : Expr)
    (rest : List Token) : Prop :=
  ∃ p, chain ops next lhs ts = .ok p ∧ p.value = e ∧ p.rest = rest

/-- Calls, keys and members extend `node` to `e` and leave `rest`. -/
def Extends (inner : Level) (node : Expr) (ts : List Token) (e : Expr) (rest : List Token) : Prop :=
  ∃ p, postfixes inner node ts = .ok p ∧ p.value = e ∧ p.rest = rest

/-- The first of the tokens extends no tree, and if it is an operator, it is weaker than `k`. -/
def Stops (k : Nat) (ts : List Token) : Prop :=
  ∀ t ∈ ts.head?, t.kind ≠ .lparen ∧ t.kind ≠ .lbracket ∧ t.kind ≠ .dot ∧
    ∀ o, Spells t.word o → o.precedence < k

theorem Stops.mono {k m : Nat} {ts : List Token} (h : Stops k ts) (le : k ≤ m) : Stops m ts := by
  intro t mem
  obtain ⟨call, key, member, weaker⟩ := h t mem
  exact ⟨call, key, member, fun o spelled => (weaker o spelled).trans_le le⟩

theorem operator?_of_spells {t : Token} {o : Operator} (h : Spells t.word o) (ts : List Token) :
    operator? (t :: ts) = some ⟨o, ts, Nat.lt_succ_self _⟩ := by
  have kind : t.kind = .operator := h.1
  have lexeme : t.lexeme = o.symbol := h.2
  simp [operator?, kind, lexeme]

theorem spells_of_operator? {ts : List Token} {o : Parsed Operator ts.length}
    (h : operator? ts = some o) : ∃ t, ts = t :: o.rest ∧ Spells t.word o.value := by
  cases ts with
  | nil => cases h
  | cons t ts =>
    rw [operator?] at h
    split at h
    · next kind =>
      obtain ⟨p, symbol, rfl⟩ := Option.map_eq_some_iff.1 h
      exact ⟨t, rfl, kind, Operator.ofSymbol?_eq_some_iff.1 symbol⟩
    · cases h

/-- Where reading stops, no operator at least as strong follows. -/
theorem Stops.operator {k : Nat} {ts : List Token} (h : Stops k ts)
    {o : Parsed Operator ts.length} (next : operator? ts = some o) : o.value.precedence < k := by
  obtain ⟨t, front, spelled⟩ := spells_of_operator? next
  exact (h t (by rw [front]; rfl)).2.2.2 o.value spelled

variable {inner : Level} {a b e : Expr} {ts mid rest : List Token}

variable {ops : List Operator} {next : Reader Expr}

theorem Chains.stop (h : ∀ o, operator? ts = some o → o.value ∉ ops) :
    Chains ops next a ts a ts := by
  rw [Chains, chain]
  split
  · exact ⟨_, rfl, rfl, rfl⟩
  · next o found =>
    rw [if_neg (h o found)]
    exact ⟨_, rfl, rfl, rfl⟩

theorem Chains.step {t : Token} {o : Operator} (spelled : Spells t.word o) (mem : o ∈ ops)
    (operand : Reads next ts b mid) (more : Chains ops next (.binary o a b) mid e rest) :
    Chains ops next a (t :: ts) e rest := by
  obtain ⟨p, operand, rfl, rfl⟩ := operand
  obtain ⟨q, more, rfl, rfl⟩ := more
  rw [Chains, chain, operator?_of_spells spelled]
  simp only [mem, if_true, operand, more]
  exact ⟨_, rfl, rfl, rfl⟩

theorem reads_leftAssoc (first : Reads next ts a mid) (more : Chains ops next a mid e rest) :
    Reads (leftAssoc ops next) ts e rest := by
  obtain ⟨p, first, rfl, rfl⟩ := first
  obtain ⟨q, more, rfl, rfl⟩ := more
  simp only [Reads, leftAssoc, first, more]
  exact ⟨_, rfl, rfl, rfl⟩

theorem Extends.stop {k : Nat} (h : Stops k ts) : Extends inner a ts a ts := by
  rw [Extends, postfixes]
  have none : postfixStep inner a ts = .ok none := by
    cases ts with
    | nil => rfl
    | cons t ts =>
      obtain ⟨call, key, member, -⟩ := h t rfl
      unfold postfixStep
      dsimp only
      split
      · next kind => exact absurd kind call
      · next kind => exact absurd kind key
      · next kind => exact absurd kind member
      · rfl
  simp only [none]
  exact ⟨_, rfl, rfl, rfl⟩

theorem Extends.step {p : Parsed Expr ts.length} (first : postfixStep inner a ts = .ok (some p))
    (more : Extends inner p.value p.rest e rest) : Extends inner a ts e rest := by
  obtain ⟨q, more, rfl, rfl⟩ := more
  rw [Extends, postfixes]
  simp only [first, more]
  exact ⟨_, rfl, rfl, rfl⟩

theorem expect_ok {t : Token} {kind : TokenKind} (h : t.kind = kind) (expected : Expected)
    (ts : List Token) : expect kind expected (t :: ts) = .ok ⟨(), ts, Nat.lt_succ_self _⟩ := by
  rw [expect, if_pos h]

theorem arguments_one {t : Token} (close : t.kind = .rparen)
    (h : Reads inner.disjunction ts e (t :: rest)) :
    Reads (arguments inner) ts [e] rest := by
  obtain ⟨⟨value, left, length⟩, h, rfl, rfl⟩ := h
  rw [Reads, arguments]
  simp only [h, close, reduceCtorEq, if_false, if_true]
  exact ⟨_, rfl, rfl, rfl⟩

theorem arguments_more {t : Token} {es : List Expr} (comma : t.kind = .comma)
    (h : Reads inner.disjunction ts e (t :: mid)) (more : Reads (arguments inner) mid es rest) :
    Reads (arguments inner) ts (e :: es) rest := by
  obtain ⟨⟨value, left, length⟩, h, rfl, rfl⟩ := h
  obtain ⟨p, more, rfl, rfl⟩ := more
  rw [Reads, arguments]
  simp only [h, comma, if_true, more]
  exact ⟨_, rfl, rfl, rfl⟩

theorem argumentList_nil {t : Token} (close : t.kind = .rparen) (ts : List Token) :
    Reads (argumentList inner) (t :: ts) [] ts := by
  rw [Reads, argumentList, expect_ok close]
  exact ⟨_, rfl, rfl, rfl⟩

theorem argumentList_cons {t : Token} {es : List Expr} (operand : t.kind ≠ .rparen)
    (h : Reads (arguments inner) (t :: ts) es rest) :
    Reads (argumentList inner) (t :: ts) es rest := by
  obtain ⟨p, h, rfl, rfl⟩ := h
  rw [Reads, argumentList]
  simp only [expect, operand, if_false, h]
  exact ⟨_, rfl, rfl, rfl⟩

theorem Extends.call {l : Token} {args : List Expr} (open_ : l.kind = .lparen)
    (h : Reads (argumentList inner) ts args mid)
    (more : Extends inner (.call a args) mid e rest) : Extends inner a (l :: ts) e rest := by
  obtain ⟨p, h, rfl, rfl⟩ := h
  refine Extends.step (p := ⟨.call a p.value, p.rest, ?_⟩) ?_ more
  · exact p.length_rest.trans (Nat.lt_succ_self _)
  · unfold postfixStep
    simp only [open_, h]
    rfl

theorem Extends.index {l r : Token} {key : Expr} (open_ : l.kind = .lbracket)
    (close : r.kind = .rbracket) (h : Reads inner.disjunction ts key (r :: mid))
    (more : Extends inner (.index a key) mid e rest) : Extends inner a (l :: ts) e rest := by
  obtain ⟨⟨value, left, length⟩, h, rfl, rfl⟩ := h
  refine Extends.step (p := ⟨.index a value, mid, ?_⟩) ?_ more
  · simp only [List.length_cons] at length ⊢
    omega
  · unfold postfixStep
    simp only [open_, h, bind, Except.bind, expect_ok close]
    rfl

theorem Extends.member {d u : Token} (dot : d.kind = .dot) (name : u.kind = .identifier)
    (more : Extends inner (members a u.lexeme) ts e rest) :
    Extends inner a (d :: u :: ts) e rest := by
  refine Extends.step (p := ⟨members a u.lexeme, ts, ?_⟩) ?_ more
  · simp only [List.length_cons]
    omega
  · unfold postfixStep
    simp only [dot, name, if_true]

theorem reads_number {t : Token} (kind : t.kind = .number) (ts : List Token) :
    Reads (primary inner) (t :: ts) (.num t.lexeme) ts := by
  simp only [Reads, primary, kind]
  exact ⟨_, rfl, rfl, rfl⟩

theorem reads_name {t : Token} (kind : t.kind = .identifier) (ts : List Token) :
    Reads (primary inner) (t :: ts) (name t.lexeme) ts := by
  simp only [Reads, primary, kind]
  exact ⟨_, rfl, rfl, rfl⟩

theorem reads_paren {l r : Token} (open_ : l.kind = .lparen) (close : r.kind = .rparen)
    (h : Reads inner.disjunction ts e (r :: rest)) :
    Reads (primary inner) (l :: ts) e rest := by
  obtain ⟨⟨value, left, length⟩, h, rfl, rfl⟩ := h
  simp only [Reads, primary, open_, h, bind, Except.bind, expect_ok close]
  exact ⟨_, rfl, rfl, rfl⟩

theorem reads_access (first : Reads (primary inner) ts a mid) (more : Extends inner a mid e rest) :
    Reads (access inner) ts e rest := by
  obtain ⟨p, first, rfl, rfl⟩ := first
  obtain ⟨q, more, rfl, rfl⟩ := more
  simp only [Reads, access, first, more]
  exact ⟨_, rfl, rfl, rfl⟩

/-- The token is the sign. -/
theorem sign?_some {t : Token} {s : String} (h : t.word = ⟨.operator, s⟩) (ts : List Token) :
    sign? s (t :: ts) = some ⟨(), ts, Nat.lt_succ_self _⟩ := by
  have kind : t.kind = .operator := congrArg Word.kind h
  have lexeme : t.lexeme = s := congrArg Word.lexeme h
  simp [sign?, Token.isOperator, kind, lexeme]

theorem sign?_none {t : Token} {s : String} (h : t.kind = .operator → t.lexeme ≠ s)
    (ts : List Token) : sign? s (t :: ts) = none := by
  simpa [sign?, Token.isOperator] using h

theorem reads_negation {t : Token} (sign : t.word = ⟨.operator, "!"⟩)
    (h : Reads inner.negation ts e rest) : Reads (negation inner) (t :: ts) (.not e) rest := by
  obtain ⟨p, h, rfl, rfl⟩ := h
  simp only [Reads, negation, sign?_some sign, h, bind, Except.bind]
  exact ⟨_, rfl, rfl, rfl⟩

theorem reads_unsigned {t : Token} (sign : t.kind = .operator → t.lexeme ≠ "!")
    (h : Reads (comparison inner) (t :: ts) e rest) :
    Reads (negation inner) (t :: ts) e rest := by
  obtain ⟨p, h, rfl, rfl⟩ := h
  simp only [Reads, negation, sign?_none sign, h]
  exact ⟨_, rfl, rfl, rfl⟩

theorem reads_minus {t : Token} (sign : t.word = ⟨.operator, "-"⟩)
    (h : Reads inner.unary ts e rest) : Reads (unary inner) (t :: ts) (.neg e) rest := by
  obtain ⟨p, h, rfl, rfl⟩ := h
  simp only [Reads, unary, sign?_some sign, h, bind, Except.bind]
  exact ⟨_, rfl, rfl, rfl⟩

theorem reads_noMinus {t : Token} (sign : t.kind = .operator → t.lexeme ≠ "-")
    (h : Reads (power inner) (t :: ts) e rest) : Reads (unary inner) (t :: ts) e rest := by
  obtain ⟨p, h, rfl, rfl⟩ := h
  simp only [Reads, unary, sign?_none sign, h]
  exact ⟨_, rfl, rfl, rfl⟩

theorem reads_power {t : Token} (spelled : Spells t.word .pow)
    (base : Reads (access inner) ts a (t :: mid)) (exponent : Reads inner.unary mid b rest) :
    Reads (power inner) ts (.binary .pow a b) rest := by
  obtain ⟨⟨base, left, length⟩, readBase, rfl, rfl⟩ := base
  obtain ⟨p, readExponent, rfl, rfl⟩ := exponent
  simp only [Reads, power, readBase, bind, Except.bind, operator?_of_spells spelled,
    readExponent]
  exact ⟨_, rfl, rfl, rfl⟩

theorem reads_noPower (h : Reads (access inner) ts e rest) (stops : Stops 11 rest) :
    Reads (power inner) ts e rest := by
  obtain ⟨p, h, rfl, rfl⟩ := h
  simp only [Reads, power, h, bind, Except.bind]
  split
  · next pow => exact absurd (stops.operator pow) (Nat.lt_irrefl 11)
  · exact ⟨_, rfl, rfl, rfl⟩

theorem reads_comparison {t : Token} {o : Operator} (relational : o.isRelational = true)
    (spelled : Spells t.word o) (lhs : Reads (bitOr inner) ts a (t :: mid))
    (rhs : Reads (bitOr inner) mid b rest) :
    Reads (comparison inner) ts (.binary o a b) rest := by
  obtain ⟨⟨lhs, left, length⟩, readLhs, rfl, rfl⟩ := lhs
  obtain ⟨p, readRhs, rfl, rfl⟩ := rhs
  simp only [Reads, comparison, readLhs, bind, Except.bind, operator?_of_spells spelled,
    relational, if_true, readRhs]
  exact ⟨_, rfl, rfl, rfl⟩

theorem reads_noComparison (h : Reads (bitOr inner) ts e rest) (stops : Stops 4 rest) :
    Reads (comparison inner) ts e rest := by
  obtain ⟨p, h, rfl, rfl⟩ := h
  simp only [Reads, comparison, h, bind, Except.bind]
  split
  · next o found =>
    have weaker := stops.operator found
    have other : o.value.isRelational = false := by
      revert weaker
      cases o.value <;> decide
    rw [if_neg (by simp [other])]
    exact ⟨_, rfl, rfl, rfl⟩
  · exact ⟨_, rfl, rfl, rfl⟩

/-- The reader of trees that bind at least as tightly as the strength. -/
def reader (inner : Level) : Nat → Reader Expr
  | 1 => disjunction inner
  | 2 => conjunction inner
  | 3 => negation inner
  | 4 => comparison inner
  | 5 => bitOr inner
  | 6 => bitXor inner
  | 7 => bitAnd inner
  | 8 => additive inner
  | 9 => multiplicative inner
  | 10 => unary inner
  | 11 => power inner
  | _ => access inner

/-- The operators of a strength whose chains group to the left. -/
def operatorsAt : Nat → List Operator
  | 1 => [.or]
  | 2 => [.and]
  | 5 => [.bitOr]
  | 6 => [.bitXor]
  | 7 => [.bitAnd]
  | 8 => [.add, .sub]
  | 9 => [.mul, .div, .mod]
  | _ => []

theorem reader_eq_leftAssoc (inner : Level) {k : Nat} (left : operatorsAt k ≠ []) :
    reader inner k = leftAssoc (operatorsAt k) (reader inner (k + 1)) := by
  unfold operatorsAt at left ⊢
  split at left <;> first | rfl | exact absurd rfl left

theorem mem_operatorsAt {o : Operator} (left : groupsLeft o = true) :
    o ∈ operatorsAt o.precedence := by
  cases o <;> first | decide | cases left

theorem precedence_of_mem {o : Operator} {k : Nat} (mem : o ∈ operatorsAt k) :
    o.precedence = k := by
  unfold operatorsAt at mem
  split at mem <;> simp only [List.mem_cons, List.not_mem_nil, or_false] at mem
  all_goals rcases mem with rfl | rfl | rfl <;> rfl

/-- What stands behind a tree of some strength extends it to `e'` and leaves `rest'`. -/
inductive Follows (inner : Level) : Nat → Expr → List Token → Expr → List Token → Prop
  | stop {k e rest} : Stops k rest → Follows inner k e rest e rest
  | chain {k e rest e' rest'} : operatorsAt k ≠ [] → Stops (k + 1) rest →
      Chains (operatorsAt k) (reader inner (k + 1)) e rest e' rest' →
      Follows inner k e rest e' rest'
  | extend {e rest e' rest'} : Extends inner e rest e' rest' → Follows inner 12 e rest e' rest'

namespace Follows

variable {k : Nat} {rest' : List Token} {e' : Expr}

theorem chains (left : operatorsAt k ≠ []) (h : Follows inner k e rest e' rest') :
    Stops (k + 1) rest ∧ Chains (operatorsAt k) (reader inner (k + 1)) e rest e' rest' := by
  cases h with
  | stop stops =>
    refine ⟨stops.mono (Nat.le_succ k), Chains.stop fun o found mem => ?_⟩
    have weaker := stops.operator found
    rw [precedence_of_mem mem] at weaker
    omega
  | chain _ stops more => exact ⟨stops, more⟩
  | extend => exact absurd rfl left

theorem extension (h : Follows inner 12 e rest e' rest') : Extends inner e rest e' rest' := by
  cases h with
  | stop stops => exact Extends.stop stops
  | chain left => exact absurd rfl left
  | extend more => exact more

theorem stops (single : operatorsAt k = []) (loose : k ≠ 12)
    (h : Follows inner k e rest e' rest') : Stops k rest ∧ e' = e ∧ rest' = rest := by
  cases h with
  | stop stops => exact ⟨stops, rfl, rfl⟩
  | chain left => exact absurd single left
  | extend => exact absurd rfl loose

end Follows

theorem stops_of_spells {k : Nat} {t : Token} {o : Operator} (spelled : Spells t.word o)
    (weaker : o.precedence < k) (ts : List Token) : Stops k (t :: ts) := by
  have kind : t.kind = .operator := spelled.1
  rintro u ⟨⟩
  refine ⟨by simp [kind], by simp [kind], by simp [kind], fun p spelled' => ?_⟩
  rwa [Operator.symbol_injective (spelled'.2.symm.trans spelled.2)]

theorem stops_of_close {t : Token} (close : t.kind = .rparen ∨ t.kind = .rbracket ∨ t.kind = .comma)
    (k : Nat) (ts : List Token) : Stops k (t :: ts) := by
  rintro u ⟨⟩
  rcases close with kind | kind | kind <;> simp [kind, Spells, Token.word]

/-- No binary operator has the strength of the sign. -/
theorem Stops.unary (h : Stops 11 ts) : Stops 10 ts := by
  intro t mem
  obtain ⟨call, key, member, weaker⟩ := h t mem
  refine ⟨call, key, member, fun o spelled => ?_⟩
  have bound := weaker o spelled
  cases o <;> simp only [Operator.precedence] at bound ⊢ <;> omega

theorem reads_tighter {k : Nat} {t : Token} {rest' : List Token} {e' : Expr} (positive : 0 < k)
    (bounded : k < 12) (sign : t.kind = .operator →
      t.lexeme = "!" ∧ k + 1 ≤ 3 ∨ t.lexeme = "-" ∧ k + 1 ≤ 10)
    (h : ∀ {e' rest'}, Follows inner (k + 1) e rest e' rest' →
      Reads (reader inner (k + 1)) (t :: ts) e' rest')
    (follows : Follows inner k e rest e' rest') : Reads (reader inner k) (t :: ts) e' rest' := by
  by_cases single : operatorsAt k = []
  · obtain ⟨stops, rfl, rfl⟩ := follows.stops single (by omega)
    have tighter := h (.stop (stops.mono (Nat.le_succ k)))
    have strength : k = 3 ∨ k = 4 ∨ k = 10 ∨ k = 11 := by
      interval_cases k <;> simp [operatorsAt] at single ⊢
    rcases strength with rfl | rfl | rfl | rfl
    · refine reads_unsigned (fun operator exclamation => ?_) tighter
      rcases sign operator with ⟨-, weak⟩ | ⟨minus, -⟩
      · omega
      · exact absurd (exclamation.symm.trans minus) (by decide)
    · exact reads_noComparison tighter stops
    · refine reads_noMinus (fun operator minus => ?_) tighter
      rcases sign operator with ⟨-, weak⟩ | ⟨-, weak⟩ <;> omega
    · exact reads_noPower tighter stops
  · obtain ⟨stops, chains⟩ := follows.chains single
    rw [reader_eq_leftAssoc inner single]
    exact reads_leftAssoc (h (.stop stops)) chains

/-- Tokens of two runs of words with a word between them. -/
theorem exists_of_map_word {vs ws : List Word} {w : Word}
    (h : ts.map Token.word = vs ++ w :: ws) :
    ∃ us t us', ts = us ++ t :: us' ∧ us.map Token.word = vs ∧ t.word = w ∧
      us'.map Token.word = ws := by
  obtain ⟨us, later, rfl, first, second⟩ := List.map_eq_append_iff.1 h
  obtain ⟨t, us', rfl, word, last⟩ := List.map_eq_cons_iff.1 second
  exact ⟨us, t, us', rfl, first, word, last⟩

/-- The reader of the strength takes the words as the tree, and what follows them extends it. -/
def Takes (n k : Nat) (ws : List Word) (e : Expr) : Prop :=
  ∀ ts : List Token, ts.map Token.word = ws → ∀ rest e' rest',
    Follows (level n) k e rest e' rest' → Reads (reader (level n) k) (ts ++ rest) e' rest'

/-- The words are taken as call arguments, up to the closing parenthesis. -/
def TakesAll (n : Nat) (ws : List Word) (es : List Expr) : Prop :=
  ∀ ts : List Token, ts.map Token.word = ws → ∀ (r : Token) (rest : List Token), r.kind = .rparen →
    Reads (arguments (level (n + 1))) (ts ++ r :: rest) es rest

section Takes

variable {n k : Nat} {us vs ws : List Word} {l r w : Word} {f base key : Expr} {args es : List Expr}

theorem Takes.tighter (positive : 0 < k) (bounded : k < 12) (derives : Derives n (k + 1) ws e)
    (taken : Takes n (k + 1) ws e) : Takes n k ws e := by
  intro ts words rest e' rest' follows
  obtain ⟨w, ws', rfl, -, sign⟩ := derives.head
  obtain ⟨t, ts, rfl, rfl, -⟩ := List.map_eq_cons_iff.1 words
  exact reads_tighter positive bounded sign (fun follows => taken _ words _ _ _ follows) follows

theorem Takes.left {o : Operator} (left : groupsLeft o = true) (spelled : Spells w o)
    (first : Takes n o.precedence vs a) (second : Takes n (o.precedence + 1) ws b) :
    Takes n o.precedence (vs ++ w :: ws) (.binary o a b) := by
  intro ts words rest e' rest' follows
  obtain ⟨us, t, us', rfl, hus, rfl, hus'⟩ := exists_of_map_word words
  have grouped : operatorsAt o.precedence ≠ [] := List.ne_nil_of_mem (mem_operatorsAt left)
  obtain ⟨stops, chains⟩ := follows.chains grouped
  have operand := second _ hus' _ _ _ (.stop stops)
  have here : Stops (o.precedence + 1) (t :: (us' ++ rest)) :=
    stops_of_spells spelled (Nat.lt_succ_self _) _
  have more := Chains.step spelled (mem_operatorsAt left) operand chains
  simpa using first _ hus (t :: (us' ++ rest)) _ _ (.chain grouped here more)

theorem Takes.relation {o : Operator} (relational : o.isRelational = true) (spelled : Spells w o)
    (first : Takes n 5 vs a) (second : Takes n 5 ws b) :
    Takes n 4 (vs ++ w :: ws) (.binary o a b) := by
  intro ts words rest e' rest' follows
  obtain ⟨us, t, us', rfl, hus, rfl, hus'⟩ := exists_of_map_word words
  obtain ⟨stops, rfl, rfl⟩ := follows.stops rfl (by decide)
  have weaker : o.precedence < 5 := by
    revert relational
    cases o <;> decide
  have lhs := first _ hus (t :: (us' ++ rest')) _ _ (.stop (stops_of_spells spelled weaker _))
  have rhs := second _ hus' _ _ _ (.stop (stops.mono (by decide)))
  simpa [reader] using reads_comparison relational spelled lhs rhs

theorem Takes.not (taken : Takes n 3 ws e) :
    Takes (n + 1) 3 (⟨.operator, "!"⟩ :: ws) (.not e) := by
  intro ts words rest e' rest' follows
  obtain ⟨t, us, rfl, sign, hus⟩ := List.map_eq_cons_iff.1 words
  obtain ⟨stops, rfl, rfl⟩ := follows.stops rfl (by decide)
  exact reads_negation sign (taken _ hus _ _ _ (.stop stops))

theorem Takes.neg (taken : Takes n 10 ws e) :
    Takes (n + 1) 10 (⟨.operator, "-"⟩ :: ws) (.neg e) := by
  intro ts words rest e' rest' follows
  obtain ⟨t, us, rfl, sign, hus⟩ := List.map_eq_cons_iff.1 words
  obtain ⟨stops, rfl, rfl⟩ := follows.stops rfl (by decide)
  exact reads_minus sign (taken _ hus _ _ _ (.stop stops))

theorem Takes.pow (spelled : Spells w .pow) (first : Takes (n + 1) 12 vs a)
    (second : Takes n 10 ws b) : Takes (n + 1) 11 (vs ++ w :: ws) (.binary .pow a b) := by
  intro ts words rest e' rest' follows
  obtain ⟨us, t, us', rfl, hus, rfl, hus'⟩ := exists_of_map_word words
  obtain ⟨stops, rfl, rfl⟩ := follows.stops rfl (by decide)
  have here : Stops 12 (t :: (us' ++ rest')) := stops_of_spells spelled (by decide) _
  have operand := first _ hus (t :: (us' ++ rest')) _ _ (.stop here)
  have exponent := second _ hus' _ _ _ (.stop stops.unary)
  simpa [reader] using reads_power spelled operand exponent

/-- A word that is a tree by itself, with whatever extends it. -/
theorem takes_word (read : ∀ {inner} (t : Token) (ts : List Token), t.word = w →
    Reads (primary inner) (t :: ts) e ts) : Takes n 12 [w] e := by
  intro ts words rest e' rest' follows
  obtain ⟨t, us, rfl, word, hus⟩ := List.map_eq_cons_iff.1 words
  obtain rfl := List.map_eq_nil_iff.1 hus
  exact reads_access (read t rest word) follows.extension

theorem takes_num (lexeme : String) : Takes n 12 [⟨.number, lexeme⟩] (.num lexeme) := by
  refine takes_word fun t ts word => ?_
  have same : t.lexeme = lexeme := congrArg Word.lexeme word
  exact same ▸ reads_number (congrArg Word.kind word) ts

theorem takes_name (lexeme : String) : Takes n 12 [⟨.identifier, lexeme⟩] (name lexeme) := by
  refine takes_word fun t ts word => ?_
  have same : t.lexeme = lexeme := congrArg Word.lexeme word
  exact same ▸ reads_name (congrArg Word.kind word) ts

theorem Takes.paren (open_ : l.kind = .lparen) (close : r.kind = .rparen) (taken : Takes n 1 ws e) :
    Takes (n + 1) 12 (l :: (ws ++ [r])) e := by
  intro ts words rest e' rest' follows
  obtain ⟨t, us, rfl, rfl, hus⟩ := List.map_eq_cons_iff.1 words
  obtain ⟨vs, u, vs', rfl, hvs, rfl, hvs'⟩ := exists_of_map_word hus
  obtain rfl := List.map_eq_nil_iff.1 hvs'
  have inside := taken _ hvs (u :: rest) _ _ (.stop (stops_of_close (.inl close) 1 _))
  simpa [reader] using reads_access (reads_paren open_ close inside) follows.extension

theorem Takes.apply (open_ : l.kind = .lparen) (close : r.kind = .rparen)
    (callee : Takes n 12 ws f) : Takes n 12 (ws ++ [l, r]) (.call f []) := by
  intro ts words rest e' rest' follows
  obtain ⟨us, t, us', rfl, hus, rfl, hus'⟩ := exists_of_map_word words
  obtain ⟨u, vs, rfl, rfl, hvs⟩ := List.map_eq_cons_iff.1 hus'
  obtain rfl := List.map_eq_nil_iff.1 hvs
  have call := Extends.call open_ (argumentList_nil close rest) follows.extension
  simpa using callee _ hus (t :: u :: rest) _ _ (.extend call)

theorem Takes.call (open_ : l.kind = .lparen) (close : r.kind = .rparen)
    (callee : Takes (n + 1) 12 vs f) (derives : DerivesAll n ws args)
    (inside : TakesAll n ws args) :
    Takes (n + 1) 12 (vs ++ l :: (ws ++ [r])) (.call f args) := by
  intro ts words rest e' rest' follows
  obtain ⟨us, t, us', rfl, hus, rfl, hus'⟩ := exists_of_map_word words
  obtain ⟨xs, u, ys, rfl, hxs, rfl, hys⟩ := exists_of_map_word hus'
  obtain rfl := List.map_eq_nil_iff.1 hys
  -- the list of arguments is not empty, so it does not start with the closing parenthesis
  obtain ⟨w, tail, front, operand⟩ := derives.head
  obtain ⟨x, xs', rfl, rfl, -⟩ := List.map_eq_cons_iff.1 (hxs.trans front)
  have arguments := argumentList_cons operand (inside _ hxs u rest close)
  have call := Extends.call open_ arguments follows.extension
  simpa using callee _ hus (t :: (x :: xs' ++ u :: rest)) _ _ (.extend call)

theorem Takes.index (open_ : l.kind = .lbracket) (close : r.kind = .rbracket)
    (taken : Takes (n + 1) 12 vs base) (inside : Takes n 1 ws key) :
    Takes (n + 1) 12 (vs ++ l :: (ws ++ [r])) (.index base key) := by
  intro ts words rest e' rest' follows
  obtain ⟨us, t, us', rfl, hus, rfl, hus'⟩ := exists_of_map_word words
  obtain ⟨xs, u, ys, rfl, hxs, rfl, hys⟩ := exists_of_map_word hus'
  obtain rfl := List.map_eq_nil_iff.1 hys
  have key := inside _ hxs (u :: rest) _ _ (.stop (stops_of_close (.inr (.inl close)) 1 _))
  have index := Extends.index open_ close key follows.extension
  simpa using taken _ hus (t :: (xs ++ u :: rest)) _ _ (.extend index)

theorem Takes.member {d u : Word} (dot : d.kind = .dot) (field : u.kind = .identifier)
    (taken : Takes n 12 ws base) : Takes n 12 (ws ++ [d, u]) (members base u.lexeme) := by
  intro ts words rest e' rest' follows
  obtain ⟨us, t, us', rfl, hus, rfl, hus'⟩ := exists_of_map_word words
  obtain ⟨v, vs, rfl, rfl, hvs⟩ := List.map_eq_cons_iff.1 hus'
  obtain rfl := List.map_eq_nil_iff.1 hvs
  have member := Extends.member dot field follows.extension
  simpa using taken _ hus (t :: v :: rest) _ _ (.extend member)

theorem Takes.last (taken : Takes n 1 ws e) : TakesAll n ws [e] := by
  intro ts words r rest close
  exact arguments_one close
    (taken _ words (r :: rest) _ _ (.stop (stops_of_close (.inl close) 1 _)))

theorem Takes.more (comma : w.kind = .comma) (taken : Takes n 1 vs e) (others : TakesAll n ws es) :
    TakesAll n (vs ++ w :: ws) (e :: es) := by
  intro ts words r rest close
  obtain ⟨us, t, us', rfl, hus, rfl, hus'⟩ := exists_of_map_word words
  have operand := taken _ hus (t :: (us' ++ r :: rest)) _ _
    (.stop (stops_of_close (.inr (.inr comma)) 1 _))
  simpa using arguments_more comma operand (others _ hus' r rest close)

end Takes

/-- The reader of the strength takes the tokens of a derivation, and what follows extends it. -/
theorem reads_of_derives {n k : Nat} {ws : List Word} (h : Derives n k ws e) : Takes n k ws e := by
  induction h using Derives.rec (motive_2 := fun n ws es _ => TakesAll n ws es) with
  | tighter positive bounded derives ih => exact ih.tighter positive bounded derives
  | left left spelled _ _ first second => exact .left left spelled first second
  | relation relational spelled _ _ first second => exact .relation relational spelled first second
  | not _ ih => exact ih.not
  | neg _ ih => exact ih.neg
  | pow spelled _ _ first second => exact .pow spelled first second
  | num lexeme => exact takes_num lexeme
  | name lexeme => exact takes_name lexeme
  | paren open_ close _ ih => exact ih.paren open_ close
  | apply open_ close _ callee => exact callee.apply open_ close
  | call open_ close _ derives callee inside => exact callee.call open_ close derives inside
  | index open_ close _ _ base key => exact base.index open_ close key
  | member dot field _ ih => exact ih.member dot field
  | one _ ih => exact ih.last
  | more comma _ _ first others => exact first.more comma others

end Parser

/-- The parser reads the tree of every derivation within the nesting limit. -/
theorem Expr.ofTokens_of_derives {ts : List Token} {e : Expr}
    (h : Parser.Derives Parser.maxNesting 1 (ts.map Token.word) e) : Expr.ofTokens ts = .ok e := by
  have stops : Parser.Stops 1 [] := fun t mem => by cases mem
  have reads : Parser.Reads (Parser.disjunction (Parser.level Parser.maxNesting)) ts e [] := by
    simpa [Parser.reader] using Parser.reads_of_derives h ts rfl [] _ _ (.stop stops)
  obtain ⟨p, read, rfl, rest⟩ := reads
  simp only [Expr.ofTokens, Parser.parseAll, read, bind, Except.bind, rest]
  rfl

end PredicateStrength
