import Mathlib
import PredicateStrength.Proofs.Expr.Lookahead
import PredicateStrength.Proofs.Expr.Reading

/-!
# Where a syntax error points

What a reader took before it failed can be continued to a tree of its strength. Only the nesting
limit is an exception: behind it no operand fits. The proof follows the levels, and within one
level the readers, as the one for what they read does.

Main statement: the tokens in front of the place of a syntax error are the front of an accepted
list, and no accepted list goes on with the token at that place (`ofTokens_error_at`).
-/
namespace PredicateStrength

namespace Parser

/-- The tokens in front of `rest` begin a tree. -/
def Begun (n k : Nat) (ts rest : List Token) : Prop :=
  ∃ us more e, ts = us ++ rest ∧ Derives n k (us.map Token.word ++ more) e

/-- Where the reader fails, a tree has begun, unless it fails for the nesting. -/
def Foresees (n k : Nat) (r : Reader Expr) : Prop :=
  ∀ ts rest x, reading r ts = (rest, .error x) → x ≠ .shallowerInput → Begun n k ts rest

/-- A reader of a deeper level: it fails for another reason only if a level is left for it. -/
def ForeseesInside (n k : Nat) (r : Reader Expr) : Prop :=
  ∀ ts rest x, reading r ts = (rest, .error x) → x ≠ .shallowerInput →
    ∃ m, n = m + 1 ∧ Begun m k ts rest

/-- The readers of the next level foresee where `n` levels are left. -/
structure Level.Foresees (n : Nat) (inner : Level) : Prop where
  disjunction : ForeseesInside n 1 inner.disjunction
  negation : ForeseesInside n 3 inner.negation
  unary : ForeseesInside n 10 inner.unary

variable {α β : Type} {n k m : Nat} {inner : Level} {a e : Expr} {ts mid rest start : List Token}
  {t : Token} {x : Expected}

theorem andThen_eq_error {f : Reading α} {g : α → Reading β}
    (h : f.andThen g ts = (rest, .error x)) :
    f ts = (rest, .error x) ∨ ∃ a mid, f ts = (mid, .ok a) ∧ g a mid = (rest, .error x) := by
  unfold Reading.andThen at h
  split at h
  · next read =>
    cases h
    exact .inl read
  · next mid a read => exact .inr ⟨a, mid, read, h⟩

theorem map_eq_error {f : Reading α} {g : α → β} (h : f.map g ts = (rest, .error x)) :
    f ts = (rest, .error x) := by
  obtain failed | ⟨_, _, _, failed⟩ := andThen_eq_error h
  · exact failed
  · cases failed

theorem front_eq_error {more : Token → Option (Reading α)} {other : Reading α}
    (h : Reading.front more other ts = (rest, .error x)) :
    (∃ t us later, ts = t :: us ∧ more t = some later ∧ later us = (rest, .error x)) ∨
      other ts = (rest, .error x) := by
  cases ts with
  | nil => exact .inr h
  | cons t ts =>
    rw [Reading.front] at h
    split at h
    · next later found => exact .inl ⟨t, ts, later, rfl, found, h⟩
    · exact .inr h

theorem rest_of_stop {y : Expected}
    (h : Reading.stop (.error y) ts = ((rest, .error x) : List Token × Except Expected α)) :
    rest = ts :=
  (congrArg Prod.fst h).symm

theorem rest_of_expect {kind : TokenKind} {expected : Expected}
    (h : reading (expect kind expected) ts = (rest, .error x)) : rest = ts := by
  rw [reading_expect] at h
  obtain ⟨t, us, later, -, found, failed⟩ | failed := front_eq_error h
  · obtain ⟨-, rfl⟩ := ofKind_eq_some found
    cases failed
  · exact rest_of_stop failed

theorem Sound.formed {r : Reader Expr} (sound : Sound n k r) (h : reading r ts = (rest, .ok e)) :
    Formed n k ts e rest := by
  obtain ⟨p, read, rfl, rfl⟩ := reading_eq_ok h
  exact sound ts p read

theorem SoundInside.formed {r : Reader Expr} (sound : SoundInside n k r)
    (h : reading r ts = (rest, .ok e)) : ∃ m, n = m + 1 ∧ Formed m k ts e rest := by
  obtain ⟨p, read, rfl, rfl⟩ := reading_eq_ok h
  exact sound ts p read

/-- Nothing is the front of a number. -/
theorem begun_here (positive : 0 < k) (bounded : k ≤ 12) : Begun n k ts ts :=
  ⟨[], _, _, rfl, (Derives.num "0").of_le positive bounded le_rfl⟩

theorem Formed.begun (h : Formed n k ts e rest) : Begun n k ts rest := by
  obtain ⟨us, front, derives⟩ := h
  exact ⟨us, [], e, front, by rwa [List.append_nil]⟩

theorem Begun.tighter (h : Begun n (k + 1) ts rest) (positive : 0 < k) (bounded : k < 12) :
    Begun n k ts rest := by
  obtain ⟨us, more, e, front, derives⟩ := h
  exact ⟨us, more, e, front, .tighter positive bounded derives⟩

theorem Begun.between {o : Operator} {j i : Nat} (first : Formed n j ts a (t :: mid))
    (second : Begun m k mid rest)
    (joined : ∀ {vs ws b}, Derives n j vs a → Derives m k ws b →
      Derives n i (vs ++ t.word :: ws) (.binary o a b)) : Begun n i ts rest := by
  obtain ⟨us, rfl, left⟩ := first
  obtain ⟨vs, more, b, rfl, right⟩ := second
  exact ⟨us ++ t :: vs, more, _, by simp, by simpa using joined left right⟩

theorem Begun.behind {f : Expr → Expr} (h : Begun n k ts rest)
    (signed : ∀ {ws e}, Derives n k ws e → Derives (n + 1) k (t.word :: ws) (f e)) :
    Begun (n + 1) k (t :: ts) rest := by
  obtain ⟨us, more, e, rfl, derives⟩ := h
  exact ⟨t :: us, more, f e, rfl, signed derives⟩

/-- What stands in brackets has begun, and so has the tree whose last token closes them. -/
theorem Begun.enclosed {r : Word} {f : Expr → Expr} (inside : Begun m 1 ts rest)
    (us : List Token) (front : start = us ++ t :: ts)
    (closed : ∀ {ws e}, Derives m 1 ws e →
      Derives n 12 (us.map Token.word ++ t.word :: (ws ++ [r])) (f e)) :
    Begun n 12 start rest := by
  obtain ⟨vs, more, e, rfl, derives⟩ := inside
  exact ⟨us ++ t :: vs, more ++ [r], f e, by simp [front], by simpa using closed derives⟩

theorem begun_of_chain {ops : List Operator} {next : Reader Expr}
    (grouped : ∀ o ∈ ops, groupsLeft o = true ∧ o.precedence = k) (sound : Sound n (k + 1) next)
    (foresees : Foresees n (k + 1) next) (other : x ≠ .shallowerInput)
    (h : reading (chain ops next a) ts = (rest, .error x)) (first : Formed n k start a ts) :
    Begun n k start rest := by
  -- On the tokens that are left; the tree so far is the first operand of the next.
  induction length : ts.length using Nat.strong_induction_on generalizing a ts with
  | _ _ ih =>
    rw [reading_chain] at h
    obtain ⟨t, us, later, rfl, found, failed⟩ | failed := front_eq_error h
    · obtain ⟨o, spelled, mem, rfl⟩ := ofOperator_eq_some found
      obtain ⟨left, rfl⟩ := grouped o (of_decide_eq_true mem)
      obtain failed | ⟨b, mid, read, failed⟩ := andThen_eq_error failed
      · exact Begun.between first (foresees _ _ _ failed other) (Derives.left left spelled)
      · have operand := sound.formed read
        have shorter := length_lt_of_reading read
        refine ih mid.length ?_ failed ?_ rfl
        · rw [← length, List.length_cons]
          omega
        · exact first.between rfl operand (Derives.left left spelled)
    · cases failed

/-- Chains stand in chains, so what the looser one needs of its operands stays together. -/
theorem sound_and_foresees_leftAssoc (ops : List Operator) {next : Reader Expr}
    (operand : Sound n (k + 1) next ∧ Foresees n (k + 1) next)
    (grouped : ∀ o ∈ ops, groupsLeft o = true ∧ o.precedence = k) (positive : 0 < k)
    (bounded : k < 12) : Sound n k (leftAssoc ops next) ∧ Foresees n k (leftAssoc ops next) := by
  obtain ⟨sound, foresees⟩ := operand
  refine ⟨sound_leftAssoc sound grouped positive bounded, fun ts rest x h other => ?_⟩
  rw [reading_leftAssoc] at h
  obtain failed | ⟨lhs, mid, read, failed⟩ := andThen_eq_error h
  · exact (foresees _ _ _ failed other).tighter positive bounded
  · exact begun_of_chain grouped sound foresees other failed
      ((sound.formed read).tighter positive bounded)

/-- The tokens in front of `rest` begin call arguments. -/
def ArgumentsBegun (n : Nat) (ts rest : List Token) : Prop :=
  ∃ us more es, ts = us ++ rest ∧ DerivesAll n (us.map Token.word ++ more) es

theorem Begun.arguments (h : Begun n 1 ts rest) : ArgumentsBegun n ts rest := by
  obtain ⟨us, more, e, front, derives⟩ := h
  exact ⟨us, more, [e], front, .one derives⟩

theorem ArgumentsBegun.more (h : ArgumentsBegun n mid rest) (comma : t.kind = .comma)
    (first : Formed n 1 ts a (t :: mid)) : ArgumentsBegun n ts rest := by
  obtain ⟨us, rfl, derives⟩ := first
  obtain ⟨vs, more, es, rfl, later⟩ := h
  exact ⟨us ++ t :: vs, more, a :: es, by simp, by simpa using DerivesAll.more comma derives later⟩

theorem begun_arguments (sound : inner.Sound n) (foresees : inner.Foresees n)
    (other : x ≠ .shallowerInput) (h : reading (arguments inner) ts = (rest, .error x)) :
    ∃ m, n = m + 1 ∧ ArgumentsBegun m ts rest := by
  induction length : ts.length using Nat.strong_induction_on generalizing ts with
  | _ _ ih =>
    rw [reading_arguments] at h
    obtain failed | ⟨arg, mid, read, failed⟩ := andThen_eq_error h
    · obtain ⟨m, same, begun⟩ := foresees.disjunction _ _ _ failed other
      exact ⟨m, same, begun.arguments⟩
    · obtain ⟨m, rfl, first⟩ := sound.disjunction.formed read
      obtain ⟨t, us, later, rfl, found, failed⟩ | failed := front_eq_error failed
      · unfold behindArgument at found
        split at found
        · next comma =>
          cases found
          have shorter := length_lt_of_reading read
          rw [List.length_cons] at shorter
          obtain ⟨m', same, begun⟩ := ih us.length (by omega) (map_eq_error failed) rfl
          obtain rfl := Nat.succ.inj same
          exact ⟨m, rfl, begun.more comma first⟩
        · cases found
          cases failed
        · cases found
      · rw [rest_of_stop failed]
        exact ⟨m, rfl, first.begun.arguments⟩

theorem begun_argumentList (sound : inner.Sound n) (foresees : inner.Foresees n)
    (other : x ≠ .shallowerInput) (h : reading (argumentList inner) ts = (rest, .error x))
    (open_ : t.kind = .lparen) (callee : Formed n 12 start a (t :: ts)) :
    Begun n 12 start rest := by
  rw [reading_argumentList] at h
  obtain ⟨_, _, _, -, found, failed⟩ | failed := front_eq_error h
  · obtain ⟨-, rfl⟩ := ofKind_eq_some found
    cases failed
  · obtain ⟨m, rfl, vs, more, es, rfl, args⟩ := begun_arguments sound foresees other failed
    obtain ⟨us, rfl, derives⟩ := callee
    have call := Derives.call (l := t.word) (r := ⟨.rparen, ")"⟩) open_ rfl derives args
    exact ⟨us ++ t :: vs, more ++ [⟨.rparen, ")"⟩], .call a es, by simp, by simpa using call⟩

theorem begun_of_closed (sound : inner.Sound n) (foresees : inner.Foresees n)
    (other : x ≠ .shallowerInput) {kind : TokenKind} {expected : Expected} {f : Expr → α}
    (h : closed inner kind expected f ts = (rest, .error x)) :
    ∃ m, n = m + 1 ∧ Begun m 1 ts rest := by
  obtain failed | ⟨e, mid, read, failed⟩ := andThen_eq_error h
  · exact foresees.disjunction _ _ _ failed other
  · obtain ⟨m, same, inside⟩ := sound.disjunction.formed read
    rw [rest_of_expect (map_eq_error failed)]
    exact ⟨m, same, inside.begun⟩

theorem begun_behindNode (sound : inner.Sound n) (foresees : inner.Foresees n)
    (other : x ≠ .shallowerInput)
    (h : Reading.front (behindNode inner a) (.stop (.ok none)) ts = (rest, .error x))
    (base : Formed n 12 start a ts) : Begun n 12 start rest := by
  obtain ⟨t, us, later, rfl, found, failed⟩ | failed := front_eq_error h
  · unfold behindNode at found
    split at found
    · next open_ =>
      cases found
      exact begun_argumentList sound foresees other (map_eq_error failed) open_ base
    · next open_ =>
      cases found
      obtain ⟨m, rfl, inside⟩ := begun_of_closed sound foresees other failed
      obtain ⟨vs, front, derives⟩ := base
      exact inside.enclosed vs front (Derives.index (r := ⟨.rbracket, "]"⟩) open_ rfl derives)
    · next dot =>
      cases found
      obtain ⟨_, _, _, -, found, failed⟩ | failed := front_eq_error failed
      · obtain ⟨-, rfl⟩ := ofKind_eq_some found
        cases failed
      · -- Any name would do behind the dot.
        obtain ⟨vs, rfl, derives⟩ := base
        rw [rest_of_stop failed]
        have member := Derives.member (d := t.word) (u := ⟨.identifier, "x"⟩) dot rfl derives
        exact ⟨vs ++ [t], [⟨.identifier, "x"⟩], members a "x", by simp, by simpa using member⟩
    · cases found
  · cases failed

theorem begun_of_postfixes (sound : inner.Sound n) (foresees : inner.Foresees n)
    (other : x ≠ .shallowerInput) (h : reading (postfixes inner a) ts = (rest, .error x))
    (base : Formed n 12 start a ts) : Begun n 12 start rest := by
  induction length : ts.length using Nat.strong_induction_on generalizing a ts with
  | _ _ ih =>
    rw [reading_postfixes] at h
    obtain failed | ⟨step, mid, read, failed⟩ := andThen_eq_error h
    · exact begun_behindNode sound foresees other failed base
    · cases step with
      | none => cases failed
      | some more =>
        have shorter := length ▸ length_lt_of_behindNode read
        obtain ⟨p, step, rfl, rfl⟩ := postfixStep_of_behindNode read
        exact ih _ shorter failed (formed_of_postfixStep sound step base) rfl

theorem foresees_primary (sound : inner.Sound n) (foresees : inner.Foresees n) :
    Foresees n 12 (primary inner) := by
  intro ts rest x h other
  rw [reading_primary] at h
  obtain ⟨t, us, later, rfl, found, failed⟩ | failed := front_eq_error h
  · unfold atPrimary at found
    split at found
    · cases found
      cases failed
    · cases found
      cases failed
    · next open_ =>
      cases found
      obtain ⟨m, rfl, inside⟩ := begun_of_closed sound foresees other failed
      exact inside.enclosed [] rfl (Derives.paren (r := ⟨.rparen, ")"⟩) open_ rfl)
    · cases found
  · have nothing : rest = ts := by
      cases ts <;> exact (congrArg Prod.fst failed).symm
    rw [nothing]
    exact begun_here (by decide) le_rfl

theorem foresees_access (sound : inner.Sound n) (foresees : inner.Foresees n) :
    Foresees n 12 (access inner) := by
  intro ts rest x h other
  rw [reading_access] at h
  obtain failed | ⟨base, mid, read, failed⟩ := andThen_eq_error h
  · exact foresees_primary sound foresees _ _ _ failed other
  · exact begun_of_postfixes sound foresees other failed ((sound_primary sound).formed read)

theorem foresees_power (sound : inner.Sound n) (foresees : inner.Foresees n) :
    Foresees n 11 (power inner) := by
  intro ts rest x h other
  rw [reading_power] at h
  obtain failed | ⟨base, mid, read, failed⟩ := andThen_eq_error h
  · exact (foresees_access sound foresees _ _ _ failed other).tighter (by decide) (by decide)
  · have first := (sound_access sound).formed read
    obtain ⟨t, us, later, rfl, found, failed⟩ | failed := front_eq_error failed
    · obtain ⟨o, spelled, pow, rfl⟩ := ofOperator_eq_some found
      obtain rfl := of_decide_eq_true pow
      obtain ⟨m, rfl, second⟩ := foresees.unary _ _ _ (map_eq_error failed) other
      exact Begun.between first second (Derives.pow spelled)
    · cases failed

theorem foresees_unary (sound : inner.Sound n) (foresees : inner.Foresees n) :
    Foresees n 10 (unary inner) := by
  intro ts rest x h other
  rw [reading_unary] at h
  obtain ⟨t, us, later, rfl, found, failed⟩ | failed := front_eq_error h
  · obtain ⟨sign, rfl⟩ := ofSign_eq_some found
    obtain ⟨m, rfl, operand⟩ := foresees.unary _ _ _ (map_eq_error failed) other
    exact operand.behind (sign ▸ Derives.neg)
  · exact (foresees_power sound foresees _ _ _ failed other).tighter (by decide) (by decide)

theorem foresees_bitOr (sound : inner.Sound n) (foresees : inner.Foresees n) :
    Foresees n 5 (bitOr inner) := by
  have products := sound_and_foresees_leftAssoc [.mul, .div, .mod]
    ⟨sound_unary sound, foresees_unary sound foresees⟩ (by decide) (by decide) (by decide)
  have sums :=
    sound_and_foresees_leftAssoc [.add, .sub] products (by decide) (by decide) (by decide)
  have ands := sound_and_foresees_leftAssoc [.bitAnd] sums (by decide) (by decide) (by decide)
  have xors := sound_and_foresees_leftAssoc [.bitXor] ands (by decide) (by decide) (by decide)
  exact (sound_and_foresees_leftAssoc [.bitOr] xors (by decide) (by decide) (by decide)).2

theorem foresees_comparison (sound : inner.Sound n) (foresees : inner.Foresees n) :
    Foresees n 4 (comparison inner) := by
  intro ts rest x h other
  rw [reading_comparison] at h
  obtain failed | ⟨lhs, mid, read, failed⟩ := andThen_eq_error h
  · exact (foresees_bitOr sound foresees _ _ _ failed other).tighter (by decide) (by decide)
  · have first := (sound_bitOr sound).formed read
    obtain ⟨t, us, later, rfl, found, failed⟩ | failed := front_eq_error failed
    · obtain ⟨o, spelled, relational, rfl⟩ := ofOperator_eq_some found
      have second := foresees_bitOr sound foresees _ _ _ (map_eq_error failed) other
      exact Begun.between first second (Derives.relation relational spelled)
    · cases failed

theorem foresees_negation (sound : inner.Sound n) (foresees : inner.Foresees n) :
    Foresees n 3 (negation inner) := by
  intro ts rest x h other
  rw [reading_negation] at h
  obtain ⟨t, us, later, rfl, found, failed⟩ | failed := front_eq_error h
  · obtain ⟨sign, rfl⟩ := ofSign_eq_some found
    obtain ⟨m, rfl, operand⟩ := foresees.negation _ _ _ (map_eq_error failed) other
    exact operand.behind (sign ▸ Derives.not)
  · exact (foresees_comparison sound foresees _ _ _ failed other).tighter (by decide) (by decide)

theorem foresees_disjunction (sound : inner.Sound n) (foresees : inner.Foresees n) :
    Foresees n 1 (disjunction inner) := by
  have conjunctions := sound_and_foresees_leftAssoc [.and]
    ⟨sound_negation sound, foresees_negation sound foresees⟩ (by decide) (by decide) (by decide)
  exact (sound_and_foresees_leftAssoc [.or] conjunctions (by decide) (by decide) (by decide)).2

/-- Each level hands on what it is given: one level less. Past the last level every failure is for
the nesting. -/
theorem foresees_level (n : Nat) : (level n).Foresees n := by
  induction n with
  | zero =>
    constructor <;> intro ts rest x h other <;> cases h <;> exact absurd rfl other
  | succ n ih =>
    have sound := sound_level n
    constructor <;> intro ts rest x h other
    · exact ⟨n, rfl, foresees_disjunction sound ih _ _ _ h other⟩
    · exact ⟨n, rfl, foresees_negation sound ih _ _ _ h other⟩
    · exact ⟨n, rfl, foresees_unary sound ih _ _ _ h other⟩

theorem reading_of_parseAll (h : parseAll ts = .ok e) :
    reading (disjunction (level maxNesting)) ts = ([], .ok e) := by
  obtain ⟨p, read, h⟩ := bind_eq_ok h
  split at h
  · next last =>
    cases h
    simp only [reading, read, last]
  · cases h

/-- Reading all the tokens fails where a tree breaks off, or behind a tree. -/
theorem reading_of_parseAll_error {f : Failure} (h : parseAll ts = .error f) :
    reading (disjunction (level maxNesting)) ts = (f.rest, .error f.expected) ∨
      ∃ e, reading (disjunction (level maxNesting)) ts = (f.rest, .ok e) := by
  unfold parseAll at h
  cases read : disjunction (level maxNesting) ts with
  | error g =>
    rw [read] at h
    cases h
    exact .inl (by simp only [reading, read])
  | ok p =>
    rw [read] at h
    dsimp only [bind, Except.bind] at h
    split at h
    · cases h
    · cases h
      exact .inr ⟨p.value, by simp only [reading, read]⟩

theorem begun_of_parseAll_error {f : Failure} (h : parseAll ts = .error f)
    (other : f.expected ≠ .shallowerInput) : Begun maxNesting 1 ts f.rest := by
  have sound := sound_level maxNesting
  obtain failed | ⟨e, read⟩ := reading_of_parseAll_error h
  · exact foresees_disjunction sound (foresees_level _) _ _ _ failed other
  · exact ((sound_disjunction sound).formed read).begun

/-- Reading stops at the failure in every list that is the same up to there and one token on. -/
theorem alike_of_parseAll_error {f : Failure} (h : parseAll ts = .error f) :
    ∃ us, ts = us ++ f.rest ∧ ∃ o, ∀ rest' : List Token, rest'.head? = f.rest.head? →
      reading (disjunction (level maxNesting)) (us ++ rest') = (rest', o) := by
  obtain ⟨us, rest, o, rfl, alike⟩ := oneAhead_disjunction (oneAhead_level maxNesting) ts
  have stopped := reading_of_parseAll_error h
  rw [alike rest rfl] at stopped
  obtain rfl : rest = f.rest := by
    obtain same | ⟨e, same⟩ := stopped <;> exact congrArg Prod.fst same
  exact ⟨us, rfl, o, alike⟩

theorem Failure.toSyntaxError_expected (ts : List Token) (f : Failure) :
    (f.toSyntaxError ts).expected = f.expected.text := by
  unfold Failure.toSyntaxError
  split <;> rfl

end Parser

/-- Some accepted list starts with the tokens. -/
def Expr.OpensAccepted (us : List Token) : Prop :=
  ∃ accepted e, us <+: accepted ∧ Expr.ofTokens accepted = .ok e

namespace Parser

variable {us rest : List Token}

theorem exists_tokens (ws : List Word) : ∃ us : List Token, us.map Token.word = ws :=
  ⟨ws.map fun w => ⟨w.lexeme, w.kind, 0⟩, by simp [Function.comp_def, Token.word]⟩

theorem Begun.opensAccepted (h : Begun maxNesting 1 (us ++ rest) rest) : Expr.OpensAccepted us := by
  obtain ⟨vs, more, e, front, derives⟩ := h
  obtain rfl := List.append_cancel_right front
  obtain ⟨later, words⟩ := exists_tokens more
  refine ⟨us ++ later, e, List.prefix_append us later, Expr.ofTokens_of_derives ?_⟩
  rwa [List.map_append, words]

/-- Where reading stops in front of a token, it stops there in every list that starts so far alike,
and none of them is accepted. -/
theorem not_opensAccepted {t : Token} (alike : ∃ o, ∀ rest' : List Token, rest'.head? = some t →
      reading (disjunction (level maxNesting)) (us ++ rest') = (rest', o)) :
    ¬ Expr.OpensAccepted (us ++ [t]) := by
  obtain ⟨o, alike⟩ := alike
  rintro ⟨accepted, e, ⟨more, rfl⟩, read⟩
  have all := reading_of_parseAll (Expr.parseAll_of_ofTokens read)
  rw [List.append_assoc, alike ([t] ++ more) rfl] at all
  cases all

end Parser

theorem Expr.parseAll_of_ofTokens_error {ts : List Token} {err : SyntaxError}
    (h : Expr.ofTokens ts = .error err) :
    ∃ f, Parser.parseAll ts = .error f ∧ err = f.toSyntaxError ts := by
  unfold Expr.ofTokens at h
  cases result : Parser.parseAll ts with
  | error f =>
    rw [result] at h
    cases h
    exact ⟨f, rfl, rfl⟩
  | ok => rw [result] at h; cases h

/-- A syntax error other than the nesting limit is reported at the first impossible token: what
stands in front of it is the front of an accepted list, and with it, it is not. -/
theorem Expr.ofTokens_error_at {ts : List Token} {err : SyntaxError}
    (rejected : Expr.ofTokens ts = .error err)
    (other : err.expected ≠ Parser.Expected.shallowerInput.text) :
    ∃ i x, i ≤ ts.length ∧ Parser.parseAll ts = .error ⟨ts.drop i, x⟩ ∧
      err = Parser.Failure.toSyntaxError ts ⟨ts.drop i, x⟩ ∧ Expr.OpensAccepted (ts.take i) ∧
      (i < ts.length → ¬ Expr.OpensAccepted (ts.take (i + 1))) := by
  obtain ⟨⟨rest, x⟩, failed, rfl⟩ := parseAll_of_ofTokens_error rejected
  have reason : x ≠ .shallowerInput := by
    rintro rfl
    exact other (Parser.Failure.toSyntaxError_expected _ _)
  have begun := Parser.begun_of_parseAll_error failed reason
  obtain ⟨us, same, alike⟩ := Parser.alike_of_parseAll_error failed
  dsimp only at same begun alike
  subst same
  refine ⟨us.length, x, ?_, ?_, ?_, ?_, fun inside => ?_⟩
  · simp
  · rw [List.drop_left, failed]
  · rw [List.drop_left]
  · rw [List.take_left]
    exact begun.opensAccepted
  · cases rest with
    | nil => simp at inside
    | cons t rest =>
      have front : (us ++ t :: rest).take (us.length + 1) = us ++ [t] := by
        rw [List.take_length_add_append]
        rfl
      rw [front]
      exact Parser.not_opensAccepted alike

/-- A second comparison inside a parenthesis, a key and a call. -/
theorem Expr.ofTokens_error_at_nestedComparison :
    ∃ ts err, Token.ofText "f(x[(a<b<c)])" = .ok ts ∧ Expr.ofTokens ts = .error err ∧
      err = ⟨8, "')'", "'<'"⟩ ∧ err.expected ≠ Parser.Expected.shallowerInput.text ∧
      ∃ i x, i ≤ ts.length ∧ Parser.parseAll ts = .error ⟨ts.drop i, x⟩ ∧
        err = Parser.Failure.toSyntaxError ts ⟨ts.drop i, x⟩ ∧ Expr.OpensAccepted (ts.take i) ∧
        (i < ts.length → ¬ Expr.OpensAccepted (ts.take (i + 1))) := by
  obtain ⟨ts, tokens, rejected⟩ : ∃ ts, Token.ofText "f(x[(a<b<c)])" = .ok ts ∧
      Expr.ofTokens ts = .error ⟨8, "')'", "'<'"⟩ :=
    ⟨[⟨"f", .identifier, 0⟩, ⟨"(", .lparen, 1⟩, ⟨"x", .identifier, 2⟩, ⟨"[", .lbracket, 3⟩,
      ⟨"(", .lparen, 4⟩, ⟨"a", .identifier, 5⟩, ⟨"<", .operator, 6⟩, ⟨"b", .identifier, 7⟩,
      ⟨"<", .operator, 8⟩, ⟨"c", .identifier, 9⟩, ⟨")", .rparen, 10⟩, ⟨"]", .rbracket, 11⟩,
      ⟨")", .rparen, 12⟩], by cbv, by cbv⟩
  have other : "')'" ≠ Parser.Expected.shallowerInput.text := by decide
  exact ⟨ts, _, tokens, rejected, rfl, other, Expr.ofTokens_error_at rejected other⟩

end PredicateStrength
