import Mathlib
import PredicateStrength.Proofs.Expr.Grammar

/-!
# One token of lookahead

The readers as programs of three pieces: stop here, read one thing and go on with its value, take
the token in front if it is one of these. What the three pieces keep, every reader keeps.

Main statement: a reader takes a front of the tokens, and how it ends depends on that front and on
the one token behind it, on nothing further (`oneAhead_disjunction`).
-/
namespace PredicateStrength.Parser

/-- What a reader leaves of the tokens, and its value or what it expected there. -/
abbrev Reading (α : Type) := List Token → List Token × Except Expected α

variable {α β : Type} {bound : List Token → Nat}

/-- The reader without the proof that it takes a token. -/
def reading (r : (ts : List Token) → Except Failure (Parsed α (bound ts))) : Reading α := fun ts =>
  match r ts with
  | .error f => (f.rest, .error f.expected)
  | .ok p => (p.rest, .ok p.value)

namespace Reading

/-- Takes nothing. -/
def stop (o : Except Expected α) : Reading α := fun ts => (ts, o)

/-- Goes on with the value behind what the first reading took. -/
def andThen (first : Reading α) (later : α → Reading β) : Reading β := fun ts =>
  match first ts with
  | (rest, .error x) => (rest, .error x)
  | (rest, .ok a) => later a rest

/-- Applies `g` to the value of the reading. -/
def map (f : Reading α) (g : α → β) : Reading β := f.andThen fun a => .stop (.ok (g a))

/-- Takes the token in front and goes on as it says; leaves another one where it is. -/
def front (more : Token → Option (Reading α)) (other : Reading α) : Reading α
  | [] => other []
  | t :: ts =>
    match more t with
    | some later => later ts
    | none => other (t :: ts)

end Reading

/-- Goes on behind a token of the kind. -/
def ofKind (kind : TokenKind) (more : Reading α) (t : Token) : Option (Reading α) :=
  if t.kind = kind then some more else none

/-- Goes on behind the sign. -/
def ofSign (s : String) (more : Reading α) (t : Token) : Option (Reading α) :=
  if t.isOperator s then some more else none

/-- Goes on behind an operator that satisfies `p`. -/
def ofOperator (p : Operator → Bool) (more : Operator → Reading α) (t : Token) :
    Option (Reading α) :=
  if t.kind = .operator then ((Operator.ofSymbol? t.lexeme).filter p).map more else none

variable {inner : Level} {ts rest : List Token} {t : Token}

theorem ofKind_eq_some {kind : TokenKind} {more later : Reading α}
    (h : ofKind kind more t = some later) : t.kind = kind ∧ later = more := by
  unfold ofKind at h
  split at h
  · next same => exact ⟨same, (Option.some.inj h).symm⟩
  · cases h

theorem ofSign_eq_some {s : String} {more later : Reading α} (h : ofSign s more t = some later) :
    t.word = ⟨.operator, s⟩ ∧ later = more := by
  unfold ofSign at h
  split at h
  · next sign =>
    obtain ⟨kind, lexeme⟩ : t.kind = .operator ∧ t.lexeme = s := by
      simpa [Token.isOperator] using sign
    exact ⟨by rw [Token.word, kind, lexeme], (Option.some.inj h).symm⟩
  · cases h

theorem ofOperator_eq_some {p : Operator → Bool} {more : Operator → Reading α} {later : Reading α}
    (h : ofOperator p more t = some later) :
    ∃ o, Spells t.word o ∧ p o = true ∧ later = more o := by
  unfold ofOperator at h
  split at h
  · next kind =>
    obtain ⟨o, found, rfl⟩ := Option.map_eq_some_iff.1 h
    obtain ⟨symbol, sat⟩ := Option.filter_eq_some_iff.1 found
    exact ⟨o, ⟨kind, Operator.ofSymbol?_eq_some_iff.1 symbol⟩, sat, rfl⟩
  · cases h

theorem reading_eq_ok {r : (ts : List Token) → Except Failure (Parsed α (bound ts))} {a : α}
    (h : reading r ts = (rest, .ok a)) : ∃ p, r ts = .ok p ∧ p.value = a ∧ p.rest = rest := by
  unfold reading at h
  split at h
  · cases h
  · next p found =>
    cases h
    exact ⟨p, found, rfl, rfl⟩

theorem length_lt_of_reading {r : (ts : List Token) → Except Failure (Parsed α (bound ts))} {a : α}
    (h : reading r ts = (rest, .ok a)) : rest.length < bound ts := by
  obtain ⟨p, -, -, rfl⟩ := reading_eq_ok h
  exact p.length_rest

theorem reading_expect (kind : TokenKind) (expected : Expected) :
    reading (expect kind expected) =
      .front (ofKind kind (.stop (.ok ()))) (.stop (.error expected)) := by
  funext ts
  cases ts with
  | nil => rfl
  | cons t ts =>
    unfold reading expect Reading.front ofKind
    by_cases same : t.kind = kind <;> simp only [same, if_true, if_false] <;> rfl

theorem front_operator (p : Operator → Bool) (more : Operator → Reading α) (other : Reading α) :
    Reading.front (ofOperator p more) other ts =
      match operator? ts with
      | some o => if p o.value then more o.value o.rest else other ts
      | none => other ts := by
  cases ts with
  | nil => rfl
  | cons t ts =>
    unfold Reading.front ofOperator operator?
    dsimp only
    by_cases kind : t.kind = .operator
    · simp only [kind, if_true]
      cases Operator.ofSymbol? t.lexeme with
      | none => rfl
      | some o => cases sat : p o <;> simp [Option.filter, sat]
    · simp only [kind, if_false]

theorem front_sign (s : String) (more other : Reading α) :
    Reading.front (ofSign s more) other ts =
      match sign? s ts with
      | some p => more p.rest
      | none => other ts := by
  cases ts with
  | nil => rfl
  | cons t ts =>
    unfold Reading.front ofSign sign?
    dsimp only
    cases t.isOperator s <;> rfl

theorem reading_chain (ops : List Operator) (next : Reader Expr) (lhs : Expr) :
    reading (chain ops next lhs) = .front (ofOperator (· ∈ ops) fun o =>
      (reading next).andThen fun rhs => reading (chain ops next (.binary o lhs rhs)))
      (.stop (.ok lhs)) := by
  funext ts
  rw [front_operator]
  unfold reading
  rw [chain]
  cases operator? ts with
  | none => rfl
  | some o =>
    by_cases mem : o.value ∈ ops
    · simp only [mem, if_true, decide_true, Reading.andThen]
      cases next o.rest with
      | error => rfl
      | ok rhs =>
        dsimp only
        cases chain ops next (.binary o.value lhs rhs.value) rhs.rest <;> rfl
    · simp only [mem, if_false, decide_false]
      rfl

theorem reading_leftAssoc (ops : List Operator) (next : Reader Expr) :
    reading (leftAssoc ops next) =
      (reading next).andThen fun lhs => reading (chain ops next lhs) := by
  funext ts
  simp only [reading, leftAssoc, Reading.andThen]
  cases next ts with
  | error => rfl
  | ok lhs =>
    dsimp only
    cases chain ops next lhs.value lhs.rest <;> rfl

/-- What the token behind a call argument says. -/
def behindArgument (inner : Level) (arg : Expr) (t : Token) : Option (Reading (List Expr)) :=
  match t.kind with
  | .comma => some ((reading (arguments inner)).map (arg :: ·))
  | .rparen => some (.stop (.ok [arg]))
  | _ => none

theorem reading_arguments (inner : Level) :
    reading (arguments inner) = (reading inner.disjunction).andThen fun arg =>
      .front (behindArgument inner arg) (.stop (.error .closeArguments)) := by
  funext ts
  unfold reading
  rw [arguments]
  simp only [Reading.andThen]
  rcases inner.disjunction ts with f | ⟨arg, rest, h⟩
  · rfl
  · cases rest with
    | nil => rfl
    | cons t rest =>
      obtain ⟨lexeme, kind, pos⟩ := t
      unfold Reading.front behindArgument
      cases kind
      case comma =>
        simp only [if_true, Reading.map, Reading.andThen, reading]
        cases arguments inner rest <;> rfl
      all_goals rfl

theorem reading_argumentList (inner : Level) :
    reading (argumentList inner) =
      .front (ofKind .rparen (.stop (.ok []))) (reading (arguments inner)) := by
  funext ts
  cases ts with
  | nil => rfl
  | cons t ts =>
    unfold reading argumentList expect Reading.front ofKind
    by_cases close : t.kind = .rparen <;> simp only [close, if_true, if_false]
    rfl

/-- A tree up to the closing bracket. -/
def closed (inner : Level) (kind : TokenKind) (expected : Expected) (f : Expr → α) : Reading α :=
  (reading inner.disjunction).andThen fun e => (reading (expect kind expected)).map fun _ => f e

/-- What the token behind a tree says: a call, an index read, a member access, or nothing. -/
def behindNode (inner : Level) (node : Expr) (t : Token) : Option (Reading (Option Expr)) :=
  match t.kind with
  | .lparen => some ((reading (argumentList inner)).map fun args => some (.call node args))
  | .lbracket => some (closed inner .rbracket .closeBracket fun key => some (.index node key))
  | .dot => some (.front (fun u =>
      ofKind .identifier (.stop (.ok (some (members node u.lexeme)))) u) (.stop (.error .memberName)))
  | _ => none

/-- One call, index read or member access, if there is one. -/
theorem front_behindNode (inner : Level) (node : Expr) (ts : List Token) :
    Reading.front (behindNode inner node) (.stop (.ok none)) ts =
      match postfixStep inner node ts with
      | .error f => (f.rest, .error f.expected)
      | .ok none => (ts, .ok none)
      | .ok (some p) => (p.rest, .ok (some p.value)) := by
  cases ts with
  | nil => rfl
  | cons t ts =>
    obtain ⟨lexeme, kind, pos⟩ := t
    unfold postfixStep Reading.front behindNode
    cases kind
    case lparen =>
      simp only [Reading.map, Reading.andThen, reading, bind, Except.bind]
      cases argumentList inner ts <;> rfl
    case lbracket =>
      simp only [closed, Reading.map, Reading.andThen, reading, bind, Except.bind]
      cases inner.disjunction ts with
      | error => rfl
      | ok key =>
        dsimp only
        cases expect .rbracket .closeBracket key.rest <;> rfl
    case dot =>
      cases ts with
      | nil => rfl
      | cons u us =>
        simp only [Reading.front, ofKind]
        by_cases name : u.kind = .identifier <;> simp only [name, if_true, if_false] <;> rfl
    all_goals rfl

theorem postfixStep_of_behindNode {node more : Expr}
    (h : Reading.front (behindNode inner node) (.stop (.ok none)) ts = (rest, .ok (some more))) :
    ∃ p, postfixStep inner node ts = .ok (some p) ∧ p.value = more ∧ p.rest = rest := by
  rw [front_behindNode] at h
  split at h
  · cases h
  · cases h
  · next p found =>
    cases h
    exact ⟨p, found, rfl, rfl⟩

theorem length_lt_of_behindNode {node more : Expr}
    (h : Reading.front (behindNode inner node) (.stop (.ok none)) ts = (rest, .ok (some more))) :
    rest.length < ts.length := by
  obtain ⟨p, -, -, rfl⟩ := postfixStep_of_behindNode h
  exact p.length_rest

theorem reading_postfixes (inner : Level) (node : Expr) :
    reading (postfixes inner node) =
      (Reading.front (behindNode inner node) (.stop (.ok none))).andThen fun
        | none => .stop (.ok node)
        | some more => reading (postfixes inner more) := by
  funext ts
  simp only [Reading.andThen, front_behindNode]
  unfold reading
  rw [postfixes]
  cases postfixStep inner node ts with
  | error => rfl
  | ok step =>
    cases step with
    | none => rfl
    | some p =>
      dsimp only
      cases postfixes inner p.value p.rest <;> rfl

/-- What the token in front of a tree says. -/
def atPrimary (inner : Level) (t : Token) : Option (Reading Expr) :=
  match t.kind with
  | .number => some (.stop (.ok (.num t.lexeme)))
  | .identifier => some (.stop (.ok (name t.lexeme)))
  | .lparen => some (closed inner .rparen .closeParen id)
  | _ => none

/-- Nothing that starts a tree is in front. -/
def noPrimary : Reading Expr
  | [] => ([], .error .operand)
  | t :: ts => (t :: ts, .error .primary)

theorem reading_primary (inner : Level) :
    reading (primary inner) = .front (atPrimary inner) noPrimary := by
  funext ts
  cases ts with
  | nil => rfl
  | cons t ts =>
    obtain ⟨lexeme, kind, pos⟩ := t
    unfold reading primary Reading.front atPrimary
    cases kind
    case lparen =>
      simp only [closed, Reading.map, Reading.andThen, reading, bind, Except.bind]
      cases inner.disjunction ts with
      | error => rfl
      | ok e =>
        dsimp only
        cases expect .rparen .closeParen e.rest <;> rfl
    all_goals rfl

theorem reading_access (inner : Level) :
    reading (access inner) = (reading (primary inner)).andThen fun base =>
      reading (postfixes inner base) := by
  funext ts
  simp only [reading, access, Reading.andThen]
  cases primary inner ts with
  | error => rfl
  | ok base =>
    dsimp only
    cases postfixes inner base.value base.rest <;> rfl

theorem reading_power (inner : Level) :
    reading (power inner) = (reading (access inner)).andThen fun base =>
      .front (ofOperator (· = .pow) fun _ => (reading inner.unary).map (.binary .pow base))
        (.stop (.ok base)) := by
  funext ts
  simp only [reading, power, Reading.map, Reading.andThen, bind, Except.bind, front_operator]
  cases access inner ts with
  | error => rfl
  | ok base =>
    dsimp only
    cases operator? base.rest with
    | none => rfl
    | some o =>
      obtain ⟨o, rest, _⟩ := o
      by_cases pow : o = .pow
      · subst pow
        simp only [if_true, decide_true]
        cases inner.unary rest <;> rfl
      · simp only [pow, decide_false]
        cases o <;> first | rfl | exact absurd rfl pow

theorem reading_unary (inner : Level) :
    reading (unary inner) =
      .front (ofSign "-" ((reading inner.unary).map .neg)) (reading (power inner)) := by
  funext ts
  simp only [reading, unary, front_sign]
  cases sign? "-" ts with
  | none => rfl
  | some s =>
    simp only [Reading.map, Reading.andThen, reading, bind, Except.bind]
    cases inner.unary s.rest <;> rfl

theorem reading_comparison (inner : Level) :
    reading (comparison inner) = (reading (bitOr inner)).andThen fun lhs =>
      .front (ofOperator (·.isRelational) fun o => (reading (bitOr inner)).map (.binary o lhs))
        (.stop (.ok lhs)) := by
  funext ts
  simp only [reading, comparison, Reading.map, Reading.andThen, bind, Except.bind, front_operator]
  cases bitOr inner ts with
  | error => rfl
  | ok lhs =>
    dsimp only
    cases operator? lhs.rest with
    | none => rfl
    | some o =>
      dsimp only
      by_cases relational : o.value.isRelational = true
      · simp only [relational, if_true]
        cases bitOr inner o.rest <;> rfl
      · simp only [relational]
        rfl

theorem reading_negation (inner : Level) :
    reading (negation inner) =
      .front (ofSign "!" ((reading inner.negation).map .not)) (reading (comparison inner)) := by
  funext ts
  simp only [reading, negation, front_sign]
  cases sign? "!" ts with
  | none => rfl
  | some s =>
    simp only [Reading.map, Reading.andThen, reading, bind, Except.bind]
    cases inner.negation s.rest <;> rfl

/-- The reading takes a front of the tokens. Whatever follows that front, as long as it begins with
the same token, the reading takes the same front and ends alike. -/
def OneAhead (f : Reading α) (ts : List Token) : Prop :=
  ∃ us rest o, ts = us ++ rest ∧ ∀ rest' : List Token, rest'.head? = rest.head? →
    f (us ++ rest') = (rest', o)

theorem OneAhead.congr {f g : Reading α} (h : OneAhead g ts)
    (same : ∀ ts' : List Token, ts'.head? = ts.head? → f ts' = g ts') : OneAhead f ts := by
  obtain ⟨us, rest, o, rfl, alike⟩ := h
  refine ⟨us, rest, o, rfl, fun rest' head => ?_⟩
  rw [same _ (by simp only [List.head?_append, head]), alike rest' head]

theorem oneAhead_stop (o : Except Expected α) : OneAhead (.stop o) ts :=
  ⟨[], ts, o, rfl, fun _ _ => rfl⟩

theorem OneAhead.andThen {f : Reading α} {g : α → Reading β} (first : OneAhead f ts)
    (later : ∀ a rest, f ts = (rest, .ok a) → OneAhead (g a) rest) : OneAhead (f.andThen g) ts := by
  obtain ⟨us, mid, o, rfl, alike⟩ := first
  have here := alike mid rfl
  cases o with
  | error x =>
    refine ⟨us, mid, .error x, rfl, fun rest' head => ?_⟩
    simp only [Reading.andThen, alike rest' head]
  | ok a =>
    obtain ⟨vs, rest, o, rfl, alike'⟩ := later a mid here
    refine ⟨us ++ vs, rest, o, by rw [List.append_assoc], fun rest' head => ?_⟩
    -- If the second reading takes nothing, the token it sees is also the one the first sees.
    have second : (vs ++ rest').head? = (vs ++ rest).head? := by simp only [List.head?_append, head]
    simp only [Reading.andThen, List.append_assoc, alike _ second, alike' rest' head]

theorem OneAhead.map {f : Reading α} (h : OneAhead f ts) (g : α → β) : OneAhead (f.map g) ts :=
  h.andThen fun _ _ _ => oneAhead_stop _

theorem OneAhead.behind {f g : Reading α} (h : OneAhead g ts) (same : ∀ ts', f (t :: ts') = g ts') :
    OneAhead f (t :: ts) := by
  obtain ⟨us, rest, o, rfl, alike⟩ := h
  exact ⟨t :: us, rest, o, rfl, fun rest' head => (same _).trans (alike rest' head)⟩

theorem oneAhead_front {more : Token → Option (Reading α)} {other : Reading α}
    (taken : ∀ t us later, ts = t :: us → more t = some later → OneAhead later us)
    (left : OneAhead other ts) : OneAhead (.front more other) ts := by
  cases ts with
  | nil =>
    refine left.congr fun ts' head => ?_
    rw [List.head?_nil, List.head?_eq_none_iff] at head
    rw [head, Reading.front]
  | cons t ts =>
    cases found : more t with
    | some later =>
      refine (taken t ts later rfl found).behind fun ts' => ?_
      simp only [Reading.front, found]
    | none =>
      -- The token stays, so it is the first that the other reading looks at.
      refine left.congr fun ts' head => ?_
      obtain ⟨us, rfl⟩ := List.head?_eq_some_iff.1 head
      simp only [Reading.front, found]

/-- All readers of the level look one token ahead. -/
structure Level.OneAhead (inner : Level) : Prop where
  disjunction : ∀ ts, Parser.OneAhead (reading inner.disjunction) ts
  negation : ∀ ts, Parser.OneAhead (reading inner.negation) ts
  unary : ∀ ts, Parser.OneAhead (reading inner.unary) ts

theorem oneAhead_expect (kind : TokenKind) (expected : Expected) :
    OneAhead (reading (expect kind expected)) ts := by
  rw [reading_expect]
  refine oneAhead_front (fun t us later _ found => ?_) (oneAhead_stop _)
  obtain ⟨-, rfl⟩ := ofKind_eq_some found
  exact oneAhead_stop _

theorem oneAhead_closed (inside : inner.OneAhead) (kind : TokenKind) (expected : Expected)
    (f : Expr → α) : OneAhead (closed inner kind expected f) ts :=
  (inside.disjunction ts).andThen fun _ _ _ => (oneAhead_expect kind expected).map _

theorem oneAhead_chain {ops : List Operator} {next : Reader Expr}
    (operand : ∀ ts, OneAhead (reading next) ts) (lhs : Expr) (ts : List Token) :
    OneAhead (reading (chain ops next lhs)) ts := by
  induction length : ts.length using Nat.strong_induction_on generalizing lhs ts with
  | _ n ih =>
    rw [reading_chain]
    refine oneAhead_front (fun t us later front found => ?_) (oneAhead_stop _)
    obtain ⟨o, -, -, rfl⟩ := ofOperator_eq_some found
    refine (operand us).andThen fun rhs rest read => ih rest.length ?_ _ _ rfl
    have shorter := length_lt_of_reading read
    rw [← length, front, List.length_cons]
    omega

theorem oneAhead_leftAssoc {ops : List Operator} {next : Reader Expr}
    (operand : ∀ ts, OneAhead (reading next) ts) (ts : List Token) :
    OneAhead (reading (leftAssoc ops next)) ts := by
  rw [reading_leftAssoc]
  exact (operand ts).andThen fun lhs rest _ => oneAhead_chain operand lhs rest

theorem oneAhead_arguments (inside : inner.OneAhead) (ts : List Token) :
    OneAhead (reading (arguments inner)) ts := by
  induction length : ts.length using Nat.strong_induction_on generalizing ts with
  | _ n ih =>
    rw [reading_arguments]
    refine (inside.disjunction ts).andThen fun arg rest read => ?_
    refine oneAhead_front (fun t us later front found => ?_) (oneAhead_stop _)
    unfold behindArgument at found
    split at found
    · cases found
      refine (ih us.length ?_ us rfl).map _
      have shorter := length_lt_of_reading read
      rw [front, List.length_cons] at shorter
      omega
    · cases found
      exact oneAhead_stop _
    · cases found

theorem oneAhead_argumentList (inside : inner.OneAhead) (ts : List Token) :
    OneAhead (reading (argumentList inner)) ts := by
  rw [reading_argumentList]
  refine oneAhead_front (fun t us later _ found => ?_) (oneAhead_arguments inside ts)
  obtain ⟨-, rfl⟩ := ofKind_eq_some found
  exact oneAhead_stop _

theorem oneAhead_behindNode (inside : inner.OneAhead) (node : Expr) (ts : List Token) :
    OneAhead (.front (behindNode inner node) (.stop (.ok none))) ts := by
  refine oneAhead_front (fun t us later _ found => ?_) (oneAhead_stop _)
  unfold behindNode at found
  split at found
  · cases found
    exact (oneAhead_argumentList inside us).map _
  · cases found
    exact oneAhead_closed inside _ _ _
  · cases found
    refine oneAhead_front (fun u vs later _ found => ?_) (oneAhead_stop _)
    obtain ⟨-, rfl⟩ := ofKind_eq_some found
    exact oneAhead_stop _
  · cases found

theorem oneAhead_postfixes (inside : inner.OneAhead) (node : Expr) (ts : List Token) :
    OneAhead (reading (postfixes inner node)) ts := by
  induction length : ts.length using Nat.strong_induction_on generalizing node ts with
  | _ n ih =>
    rw [reading_postfixes]
    refine (oneAhead_behindNode inside node ts).andThen fun step rest read => ?_
    cases step with
    | none => exact oneAhead_stop _
    | some more => exact ih rest.length (length ▸ length_lt_of_behindNode read) more rest rfl

theorem oneAhead_primary (inside : inner.OneAhead) (ts : List Token) :
    OneAhead (reading (primary inner)) ts := by
  rw [reading_primary]
  refine oneAhead_front (fun t us later _ found => ?_) ?_
  · unfold atPrimary at found
    split at found
    · cases found
      exact oneAhead_stop _
    · cases found
      exact oneAhead_stop _
    · cases found
      exact oneAhead_closed inside _ _ _
    · cases found
  · cases ts with
    | nil =>
      refine (oneAhead_stop (.error .operand)).congr fun ts' head => ?_
      rw [List.head?_nil, List.head?_eq_none_iff] at head
      rw [head, noPrimary, Reading.stop]
    | cons t ts =>
      refine (oneAhead_stop (.error .primary)).congr fun ts' head => ?_
      obtain ⟨us, rfl⟩ := List.head?_eq_some_iff.1 head
      rfl

theorem oneAhead_power (inside : inner.OneAhead) (ts : List Token) :
    OneAhead (reading (power inner)) ts := by
  rw [reading_power, reading_access]
  refine .andThen ?_ fun base rest _ => ?_
  · exact (oneAhead_primary inside ts).andThen fun base rest _ =>
      oneAhead_postfixes inside base rest
  · refine oneAhead_front (fun t us later _ found => ?_) (oneAhead_stop _)
    obtain ⟨o, -, -, rfl⟩ := ofOperator_eq_some found
    exact (inside.unary us).map _

theorem oneAhead_unary (inside : inner.OneAhead) (ts : List Token) :
    OneAhead (reading (unary inner)) ts := by
  rw [reading_unary]
  refine oneAhead_front (fun t us later _ found => ?_) (oneAhead_power inside ts)
  obtain ⟨-, rfl⟩ := ofSign_eq_some found
  exact (inside.unary us).map _

theorem oneAhead_bitOr (inside : inner.OneAhead) (ts : List Token) :
    OneAhead (reading (bitOr inner)) ts :=
  oneAhead_leftAssoc (oneAhead_leftAssoc (oneAhead_leftAssoc (oneAhead_leftAssoc
    (oneAhead_leftAssoc (oneAhead_unary inside))))) ts

theorem oneAhead_negation (inside : inner.OneAhead) (ts : List Token) :
    OneAhead (reading (negation inner)) ts := by
  rw [reading_negation, reading_comparison]
  refine oneAhead_front (fun t us later _ found => ?_) ?_
  · obtain ⟨-, rfl⟩ := ofSign_eq_some found
    exact (inside.negation us).map _
  · refine (oneAhead_bitOr inside ts).andThen fun lhs rest _ => ?_
    refine oneAhead_front (fun t us later _ found => ?_) (oneAhead_stop _)
    obtain ⟨o, -, -, rfl⟩ := ofOperator_eq_some found
    exact (oneAhead_bitOr inside us).map _

theorem oneAhead_disjunction (inside : inner.OneAhead) (ts : List Token) :
    OneAhead (reading (disjunction inner)) ts :=
  oneAhead_leftAssoc (oneAhead_leftAssoc (oneAhead_negation inside)) ts

theorem oneAhead_level (n : Nat) : (level n).OneAhead := by
  induction n with
  | zero => constructor <;> exact fun ts => oneAhead_stop (.error .shallowerInput)
  | succ n ih => exact ⟨oneAhead_disjunction ih, oneAhead_negation ih, oneAhead_unary ih⟩

end PredicateStrength.Parser
