import PredicateStrength.Expr.Basic
import PredicateStrength.Token.Lexer

/-!
Reading a tree from tokens. Lowest binding first: `||`, `&&`, `!`, at most one comparison, `|`,
`^`, `&`, `+ -`, `* / %`, unary `-`, `**` with its exponent on the right, then calls, index reads
and members. Parentheses, brackets, call arguments, `!`, unary `-` and exponents open a nesting
level each; their number is limited.

A parser returns the tokens that follow what it read and a proof that there are fewer of them, so
every loop is a recursion on the number of tokens. The parsers of one nesting level are built from
those of the next deeper one (`Level`), so the levels are a recursion on the levels left.
-/
namespace PredicateStrength

namespace Parser

/-- Nesting levels that may be open at once. -/
def maxNesting : Nat := 128

/-- What would have been accepted where reading stopped. -/
inductive Expected where
  | operand
  | primary
  | closeArguments
  | closeBracket
  | closeParen
  | memberName
  | shallowerInput
  | endOfInput
  | endOfComparison
deriving DecidableEq, Repr

def Expected.text : Expected → String
  | .operand => "operand"
  | .primary => "number, identifier or '('"
  | .closeArguments => "',' or ')'"
  | .closeBracket => "']'"
  | .closeParen => "')'"
  | .memberName => "member name after '.'"
  | .shallowerInput => "shallower input (nesting too deep)"
  | .endOfInput => "end of input"
  | .endOfComparison => "'&&', '||' or end of input (relations do not chain)"

/-- Where reading stopped, as the tokens from there on, and what was expected there. -/
structure Failure where
  rest : List Token
  expected : Expected
deriving DecidableEq, Repr

/-- A value read from the front of some tokens, and those that follow: fewer than `bound`. -/
structure Parsed (α : Type) (bound : Nat) where
  value : α
  rest : List Token
  length_rest : rest.length < bound

/-- The same reading seen from more tokens. -/
def Parsed.relax {α : Type} {m n : Nat} (p : Parsed α m) (h : m ≤ n) : Parsed α n :=
  ⟨p.value, p.rest, Nat.lt_of_lt_of_le p.length_rest h⟩

/-- Reads a value from the front of the tokens; takes at least one of them. -/
abbrev Reader (α : Type) := (ts : List Token) → Except Failure (Parsed α ts.length)

/-- The readers of the next nesting level. -/
structure Level where
  disjunction : Reader Expr
  negation : Reader Expr
  unary : Reader Expr

/-- Past the last level nothing is read. -/
def Level.exhausted : Level where
  disjunction ts := .error ⟨ts, .shallowerInput⟩
  negation ts := .error ⟨ts, .shallowerInput⟩
  unary ts := .error ⟨ts, .shallowerInput⟩

/-- The binary operator at the front. -/
def operator? : (ts : List Token) → Option (Parsed Operator ts.length)
  | [] => none
  | t :: ts =>
    if t.kind = .operator then
      (Operator.ofSymbol? t.lexeme).map fun o => ⟨o, ts, Nat.lt_succ_self _⟩
    else none

/-- The operator spelled `s` at the front. -/
def sign? (s : String) : (ts : List Token) → Option (Parsed Unit ts.length)
  | [] => none
  | t :: ts => if t.isOperator s then some ⟨(), ts, Nat.lt_succ_self _⟩ else none

/-- Take one token of the given kind. -/
def expect (kind : TokenKind) (expected : Expected) :
    (ts : List Token) → Except Failure (Parsed Unit ts.length)
  | [] => .error ⟨[], expected⟩
  | t :: ts =>
    if t.kind = kind then .ok ⟨(), ts, Nat.lt_succ_self _⟩ else .error ⟨t :: ts, expected⟩

/-- Operators of one binding strength behind a first operand, grouped to the left. -/
def chain (ops : List Operator) (next : Reader Expr) (lhs : Expr) (ts : List Token) :
    Except Failure (Parsed Expr (ts.length + 1)) :=
  match operator? ts with
  | none => .ok ⟨lhs, ts, Nat.lt_succ_self _⟩
  | some o =>
    if o.value ∈ ops then
      match next o.rest with
      | .error e => .error e
      | .ok rhs =>
        have ho := o.length_rest
        have hr := rhs.length_rest
        match chain ops next (.binary o.value lhs rhs.value) rhs.rest with
        | .error e => .error e
        | .ok r => .ok (r.relax (by omega))
    else .ok ⟨lhs, ts, Nat.lt_succ_self _⟩
termination_by ts.length
decreasing_by omega

/-- Operands of one binding strength joined by the given operators. -/
def leftAssoc (ops : List Operator) (next : Reader Expr) : Reader Expr := fun ts =>
  match next ts with
  | .error e => .error e
  | .ok lhs =>
    match chain ops next lhs.value lhs.rest with
    | .error e => .error e
    | .ok r => .ok (r.relax lhs.length_rest)

/-- The parts of a name at its dots. -/
def splitDots : List Char → List (List Char)
  | [] => [[]]
  | c :: cs =>
    match c, splitDots cs with
    | '.', parts => [] :: parts
    | c, part :: parts => (c :: part) :: parts
    | c, [] => [[c]]

/-- A member path behind `base`; a dotted name is a chain of members. -/
def members (base : Expr) (path : String) : Expr :=
  (splitDots path.toList).foldl (fun e part => .member e (String.ofList part)) base

/-- Call arguments, at least one, and the closing parenthesis. -/
def arguments (inner : Level) (ts : List Token) : Except Failure (Parsed (List Expr) ts.length) :=
  match inner.disjunction ts with
  | .error e => .error e
  | .ok ⟨_, [], _⟩ => .error ⟨[], .closeArguments⟩
  | .ok ⟨arg, t :: rest, h⟩ =>
    if t.kind = .comma then
      have : rest.length + 1 < ts.length := h
      match arguments inner rest with
      | .error e => .error e
      | .ok r => .ok ⟨arg :: r.value, r.rest, by have := r.length_rest; omega⟩
    else if t.kind = .rparen then .ok ⟨[arg], rest, by simp at h; omega⟩
    else .error ⟨t :: rest, .closeArguments⟩
termination_by ts.length

/-- Call arguments, possibly none, and the closing parenthesis. -/
def argumentList (inner : Level) (ts : List Token) :
    Except Failure (Parsed (List Expr) ts.length) :=
  match expect .rparen .closeArguments ts with
  | .ok r => .ok ⟨[], r.rest, r.length_rest⟩
  | .error _ => arguments inner ts

/-- What a call, an index read or a member access makes of the tree in front of it. -/
def postfixStep (inner : Level) (node : Expr) :
    (ts : List Token) → Except Failure (Option (Parsed Expr ts.length))
  | [] => .ok none
  | t :: ts =>
    match t.kind with
    | .lparen => do
      let r ← argumentList inner ts
      return some ⟨.call node r.value, r.rest, by have := r.length_rest; simp; omega⟩
    | .lbracket => do
      let key ← inner.disjunction ts
      let r ← expect .rbracket .closeBracket key.rest
      return some ⟨.index node key.value, r.rest, by
        have := key.length_rest; have := r.length_rest; simp; omega⟩
    | .dot =>
      match ts with
      | [] => .error ⟨[], .memberName⟩
      | u :: us =>
        if u.kind = .identifier then
          .ok (some ⟨members node u.lexeme, us, by simp only [List.length_cons]; omega⟩)
        else .error ⟨u :: us, .memberName⟩
    | _ => .ok none

/-- Calls, index reads and members behind a tree. -/
def postfixes (inner : Level) (node : Expr) (ts : List Token) :
    Except Failure (Parsed Expr (ts.length + 1)) :=
  match postfixStep inner node ts with
  | .error e => .error e
  | .ok none => .ok ⟨node, ts, Nat.lt_succ_self _⟩
  | .ok (some p) =>
    have hp := p.length_rest
    match postfixes inner p.value p.rest with
    | .error e => .error e
    | .ok r => .ok (r.relax (by omega))
termination_by ts.length

/-- A name that is not a truth value stands for itself. -/
def name (lexeme : String) : Expr :=
  if lexeme = "true" then .bool true else if lexeme = "false" then .bool false else .ident lexeme

/-- A numeral, a name or a tree in parentheses. -/
def primary (inner : Level) : Reader Expr
  | [] => .error ⟨[], .operand⟩
  | t :: ts =>
    match t.kind with
    | .number => .ok ⟨.num t.lexeme, ts, Nat.lt_succ_self _⟩
    | .identifier => .ok ⟨name t.lexeme, ts, Nat.lt_succ_self _⟩
    | .lparen => do
      let e ← inner.disjunction ts
      let r ← expect .rparen .closeParen e.rest
      return ⟨e.value, r.rest, by have := e.length_rest; have := r.length_rest; simp; omega⟩
    | _ => .error ⟨t :: ts, .primary⟩

/-- A primary tree with its calls, index reads and members. -/
def access (inner : Level) : Reader Expr := fun ts =>
  match primary inner ts with
  | .error e => .error e
  | .ok base =>
    match postfixes inner base.value base.rest with
    | .error e => .error e
    | .ok r => .ok (r.relax base.length_rest)

/-- A power; the exponent may carry signs and be a power itself. -/
def power (inner : Level) : Reader Expr := fun ts => do
  let base ← access inner ts
  match operator? base.rest with
  | some ⟨.pow, rest, h⟩ =>
    let e ← inner.unary rest
    return ⟨.binary .pow base.value e.value, e.rest, by
      have := base.length_rest; have := e.length_rest; omega⟩
  | _ => return base

/-- A number with its signs. -/
def unary (inner : Level) : Reader Expr := fun ts =>
  match sign? "-" ts with
  | some s => do
    let e ← inner.unary s.rest
    return ⟨.neg e.value, e.rest, by have := s.length_rest; have := e.length_rest; omega⟩
  | none => power inner ts

def multiplicative (inner : Level) : Reader Expr := leftAssoc [.mul, .div, .mod] (unary inner)

def additive (inner : Level) : Reader Expr := leftAssoc [.add, .sub] (multiplicative inner)

def bitAnd (inner : Level) : Reader Expr := leftAssoc [.bitAnd] (additive inner)

def bitXor (inner : Level) : Reader Expr := leftAssoc [.bitXor] (bitAnd inner)

def bitOr (inner : Level) : Reader Expr := leftAssoc [.bitOr] (bitXor inner)

/-- At most one comparison. -/
def comparison (inner : Level) : Reader Expr := fun ts => do
  let lhs ← bitOr inner ts
  match operator? lhs.rest with
  | some o =>
    if o.value.isRelational then
      let rhs ← bitOr inner o.rest
      return ⟨.binary o.value lhs.value rhs.value, rhs.rest, by
        have := lhs.length_rest; have := o.length_rest; have := rhs.length_rest; omega⟩
    else return lhs
  | none => return lhs

/-- A truth value with its negations. -/
def negation (inner : Level) : Reader Expr := fun ts =>
  match sign? "!" ts with
  | some s => do
    let e ← inner.negation s.rest
    return ⟨.not e.value, e.rest, by have := s.length_rest; have := e.length_rest; omega⟩
  | none => comparison inner ts

def conjunction (inner : Level) : Reader Expr := leftAssoc [.and] (negation inner)

def disjunction (inner : Level) : Reader Expr := leftAssoc [.or] (conjunction inner)

/-- The readers behind `n` more openings. -/
def level : Nat → Level
  | 0 => .exhausted
  | n + 1 =>
    let inner := level n
    { disjunction := disjunction inner, negation := negation inner, unary := unary inner }

/-- Read one tree from all the tokens. -/
def parseAll (ts : List Token) : Except Failure Expr := do
  let r ← disjunction (level maxNesting) ts
  match r.rest with
  | [] => return r.value
  | rest =>
    let afterComparison := (operator? rest).any fun o => o.value.isRelational
    .error ⟨rest, if afterComparison then .endOfComparison else .endOfInput⟩

/-- The report of a failure in reading `ts`. A failure behind the last token is placed at its
end. -/
def Failure.toSyntaxError (ts : List Token) (f : Failure) : SyntaxError :=
  match f.rest with
  | t :: _ => ⟨t.pos, f.expected.text, "'" ++ t.lexeme ++ "'"⟩
  | [] => ⟨(ts.getLast?.map Token.stop).getD 0, f.expected.text, "end of input"⟩

end Parser

namespace Expr

/-- The tree that the tokens form. -/
def ofTokens (ts : List Token) : Except SyntaxError Expr :=
  (Parser.parseAll ts).mapError (·.toSyntaxError ts)

/-- The tree of a text. -/
def ofText (text : String) : Except PredicateError Expr := do
  let ts ← (Token.ofText text).mapError .lex
  (ofTokens ts).mapError .parse

end Expr
end PredicateStrength
