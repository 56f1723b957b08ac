import Mathlib
import PredicateStrength.Proofs.Expr.Reading
import PredicateStrength.Proofs.Expr.Text

/-!
# Derivations as data

The grammar of predicates, production by production:

    Or      := And ('||' And)*              Add     := Mul (('+' | '-') Mul)*
    And     := Not ('&&' Not)*              Mul     := Unary (('*' | '/' | '%') Unary)*
    Not     := '!' Not | Rel                Unary   := '-' Unary | Pow
    Rel     := BitOr (RELOP BitOr)?         Pow     := Postfix ('**' Unary)?
    BitOr   := BitXor ('|' BitXor)*         Postfix := Primary ('(' args? ')' | '[' Or ']'
    BitXor  := BitAnd ('^' BitAnd)*                             | '.' Identifier)*
    BitAnd  := Add ('&' Add)*               Primary := Number | Identifier | '(' Or ')'

A derivation is a value: it has terminals, a number of nesting levels and a tree. The relation
`Derives`, which the reader is compared with, says the same without the phrases, so the two are
translated into each other. Two derivations of the same terminals are equal, by induction on the
first one with what follows the phrase on either side: nothing that follows may extend the phrase.

Main statement: the parser accepts exactly the token lists with a derivation of at most 128
levels, returns its tree, and there is no second derivation (`ofTokens_iff_derivation`).
-/
namespace PredicateStrength

/-- What the grammar sees of a token. Brackets, dots and commas are told by their kind alone. -/
inductive Terminal where
  | number (lexeme : String)
  | name (lexeme : String)
  | sign (lexeme : String)
  | lparen
  | rparen
  | lbracket
  | rbracket
  | dot
  | comma
deriving DecidableEq

def Word.terminal (w : Word) : Terminal :=
  match w.kind with
  | .number => .number w.lexeme
  | .identifier => .name w.lexeme
  | .operator => .sign w.lexeme
  | .lparen => .lparen
  | .rparen => .rparen
  | .lbracket => .lbracket
  | .rbracket => .rbracket
  | .dot => .dot
  | .comma => .comma

namespace Terminal

/-- The strength of the phrase that goes on with the terminal; zero if there is none. -/
def reach : Terminal → Nat
  | .sign lexeme => ((Operator.ofSymbol? lexeme).map Operator.precedence).getD 0
  | .lparen | .lbracket | .dot => 12
  | .number _ | .name _ | .rparen | .rbracket | .comma => 0

@[simp] theorem reach_symbol (o : Operator) : (sign o.symbol).reach = o.precedence := by
  simp [reach]

/-- The strength of the signs is not that of an operator. -/
theorem reach_ne (t : Terminal) : t.reach ≠ 10 := by
  cases t with
  | sign lexeme =>
    rw [reach]
    cases Operator.ofSymbol? lexeme with
    | none => simp
    | some o => exact o.precedence_ne
  | _ => simp [reach]

end Terminal

def Token.terminal (t : Token) : Terminal := t.word.terminal

namespace Word

variable {w : Word} {s : String} {o : Operator}

theorem terminal_eq_number : w.terminal = .number s ↔ w = ⟨.number, s⟩ := by
  rcases w with ⟨_ | _ | _ | _ | _ | _ | _ | _ | _, lexeme⟩ <;> simp [Word.terminal]

theorem terminal_eq_name : w.terminal = .name s ↔ w = ⟨.identifier, s⟩ := by
  rcases w with ⟨_ | _ | _ | _ | _ | _ | _ | _ | _, lexeme⟩ <;> simp [Word.terminal]

theorem terminal_eq_sign : w.terminal = .sign s ↔ w = ⟨.operator, s⟩ := by
  rcases w with ⟨_ | _ | _ | _ | _ | _ | _ | _ | _, lexeme⟩ <;> simp [Word.terminal]

theorem terminal_eq_lparen : w.terminal = .lparen ↔ w.kind = .lparen := by
  rcases w with ⟨_ | _ | _ | _ | _ | _ | _ | _ | _, lexeme⟩ <;> simp [Word.terminal]

theorem terminal_eq_rparen : w.terminal = .rparen ↔ w.kind = .rparen := by
  rcases w with ⟨_ | _ | _ | _ | _ | _ | _ | _ | _, lexeme⟩ <;> simp [Word.terminal]

theorem terminal_eq_lbracket : w.terminal = .lbracket ↔ w.kind = .lbracket := by
  rcases w with ⟨_ | _ | _ | _ | _ | _ | _ | _ | _, lexeme⟩ <;> simp [Word.terminal]

theorem terminal_eq_rbracket : w.terminal = .rbracket ↔ w.kind = .rbracket := by
  rcases w with ⟨_ | _ | _ | _ | _ | _ | _ | _ | _, lexeme⟩ <;> simp [Word.terminal]

theorem terminal_eq_dot : w.terminal = .dot ↔ w.kind = .dot := by
  rcases w with ⟨_ | _ | _ | _ | _ | _ | _ | _ | _, lexeme⟩ <;> simp [Word.terminal]

theorem terminal_eq_comma : w.terminal = .comma ↔ w.kind = .comma := by
  rcases w with ⟨_ | _ | _ | _ | _ | _ | _ | _ | _, lexeme⟩ <;> simp [Word.terminal]

theorem spells_iff : Parser.Spells w o ↔ w.terminal = .sign o.symbol := by
  rw [terminal_eq_sign]
  rcases w with ⟨kind, lexeme⟩
  simp [Parser.Spells]

end Word

namespace Parser

/-- The phrases that repeat one of a few operators between operands of the next phrase. -/
inductive Chain where
  | or
  | and
  | bitOr
  | bitXor
  | bitAnd
  | add
  | mul
deriving DecidableEq

/-- The phrases of the grammar, except the primary one. -/
inductive Phrase where
  | chain (c : Chain)
  | not
  | rel
  | unary
  | pow
  | access
deriving DecidableEq

namespace Chain

def operators : Chain → List Operator
  | .or => [.or]
  | .and => [.and]
  | .bitOr => [.bitOr]
  | .bitXor => [.bitXor]
  | .bitAnd => [.bitAnd]
  | .add => [.add, .sub]
  | .mul => [.mul, .div, .mod]

def operand : Chain → Phrase
  | .or => .chain .and
  | .and => .not
  | .bitOr => .chain .bitXor
  | .bitXor => .chain .bitAnd
  | .bitAnd => .chain .add
  | .add => .chain .mul
  | .mul => .unary

/-- The binding strength of the operators. -/
def strength : Chain → Nat
  | .or => 1
  | .and => 2
  | .bitOr => 5
  | .bitXor => 6
  | .bitAnd => 7
  | .add => 8
  | .mul => 9

end Chain

/-- How tightly the phrase binds. -/
def Phrase.strength : Phrase → Nat
  | .chain c => c.strength
  | .not => 3
  | .rel => 4
  | .unary => 10
  | .pow => 11
  | .access => 12

mutual
/-- A derivation of a phrase, one constructor for each way to form it. -/
inductive Derivation : Phrase → Type
  | chain {c} (first : Derivation c.operand) (more : Operands c) : Derivation (.chain c)
  | not (e : Derivation .not) : Derivation .not
  | positive (e : Derivation .rel) : Derivation .not
  | relation (o : Operator) (relational : o.isRelational = true)
      (lhs rhs : Derivation (.chain .bitOr)) : Derivation .rel
  | single (e : Derivation (.chain .bitOr)) : Derivation .rel
  | neg (e : Derivation .unary) : Derivation .unary
  | unsigned (e : Derivation .pow) : Derivation .unary
  | pow (base : Derivation .access) (exponent : Derivation .unary) : Derivation .pow
  | plain (e : Derivation .access) : Derivation .pow
  | access (base : Primary) (steps : Steps) : Derivation .access

/-- The repeated part of a chain: operators with the operands behind them. -/
inductive Operands : Chain → Type
  | done {c} : Operands c
  | more {c} (o : Operator) (mem : o ∈ c.operators) (e : Derivation c.operand)
      (rest : Operands c) : Operands c

/-- Calls, index reads and members behind a primary. -/
inductive Steps : Type
  | done
  | apply (rest : Steps)
  | call (args : Arguments) (rest : Steps)
  | index (key : Derivation (.chain .or)) (rest : Steps)
  | member (field : String) (rest : Steps)

/-- Call arguments, at least one. -/
inductive Arguments : Type
  | last (e : Derivation (.chain .or))
  | more (e : Derivation (.chain .or)) (rest : Arguments)

inductive Primary : Type
  | number (lexeme : String)
  | name (lexeme : String)
  | paren (e : Derivation (.chain .or))
end

mutual
/-- The terminals of the derivation, in their order. -/
@[simp] def Derivation.terminals : {p : Phrase} → Derivation p → List Terminal
  | _, .chain first more => first.terminals ++ more.terminals
  | _, .not e => .sign "!" :: e.terminals
  | _, .positive e => e.terminals
  | _, .relation o _ lhs rhs => lhs.terminals ++ .sign o.symbol :: rhs.terminals
  | _, .single e => e.terminals
  | _, .neg e => .sign "-" :: e.terminals
  | _, .unsigned e => e.terminals
  | _, .pow base exponent =>
    base.terminals ++ .sign (Operator.symbol .pow) :: exponent.terminals
  | _, .plain e => e.terminals
  | _, .access base steps => base.terminals ++ steps.terminals

@[simp] def Operands.terminals : {c : Chain} → Operands c → List Terminal
  | _, .done => []
  | _, .more o _ e rest => .sign o.symbol :: (e.terminals ++ rest.terminals)

@[simp] def Steps.terminals : Steps → List Terminal
  | .done => []
  | .apply rest => .lparen :: .rparen :: rest.terminals
  | .call args rest => .lparen :: (args.terminals ++ .rparen :: rest.terminals)
  | .index key rest => .lbracket :: (key.terminals ++ .rbracket :: rest.terminals)
  | .member field rest => .dot :: .name field :: rest.terminals

@[simp] def Arguments.terminals : Arguments → List Terminal
  | .last e => e.terminals
  | .more e rest => e.terminals ++ .comma :: rest.terminals

@[simp] def Primary.terminals : Primary → List Terminal
  | .number lexeme => [.number lexeme]
  | .name lexeme => [.name lexeme]
  | .paren e => .lparen :: (e.terminals ++ [.rparen])
end

mutual
/-- Levels open at once: parentheses, brackets, call arguments, negations, signs and exponents. -/
@[simp] def Derivation.depth : {p : Phrase} → Derivation p → Nat
  | _, .chain first more => max first.depth more.depth
  | _, .not e => e.depth + 1
  | _, .positive e => e.depth
  | _, .relation _ _ lhs rhs => max lhs.depth rhs.depth
  | _, .single e => e.depth
  | _, .neg e => e.depth + 1
  | _, .unsigned e => e.depth
  | _, .pow base exponent => max base.depth (exponent.depth + 1)
  | _, .plain e => e.depth
  | _, .access base steps => max base.depth steps.depth

@[simp] def Operands.depth : {c : Chain} → Operands c → Nat
  | _, .done => 0
  | _, .more _ _ e rest => max e.depth rest.depth

@[simp] def Steps.depth : Steps → Nat
  | .done => 0
  | .apply rest => rest.depth
  | .call args rest => max args.depth rest.depth
  | .index key rest => max (key.depth + 1) rest.depth
  | .member _ rest => rest.depth

@[simp] def Arguments.depth : Arguments → Nat
  | .last e => e.depth + 1
  | .more e rest => max (e.depth + 1) rest.depth

@[simp] def Primary.depth : Primary → Nat
  | .number _ => 0
  | .name _ => 0
  | .paren e => e.depth + 1
end

mutual
/-- The tree of the derivation: chains group to the left, powers to the right. -/
@[simp] def Derivation.tree : {p : Phrase} → Derivation p → Expr
  | _, .chain first more => more.tree first.tree
  | _, .not e => .not e.tree
  | _, .positive e => e.tree
  | _, .relation o _ lhs rhs => .binary o lhs.tree rhs.tree
  | _, .single e => e.tree
  | _, .neg e => .neg e.tree
  | _, .unsigned e => e.tree
  | _, .pow base exponent => .binary .pow base.tree exponent.tree
  | _, .plain e => e.tree
  | _, .access base steps => steps.tree base.tree

/-- The chain behind the operand `lhs`. -/
@[simp] def Operands.tree : {c : Chain} → Operands c → Expr → Expr
  | _, .done, lhs => lhs
  | _, .more o _ e rest, lhs => rest.tree (.binary o lhs e.tree)

@[simp] def Steps.tree : Steps → Expr → Expr
  | .done, base => base
  | .apply rest, base => rest.tree (.call base [])
  | .call args rest, base => rest.tree (.call base args.trees)
  | .index key rest, base => rest.tree (.index base key.tree)
  | .member field rest, base => rest.tree (members base field)

@[simp] def Arguments.trees : Arguments → List Expr
  | .last e => [e.tree]
  | .more e rest => e.tree :: rest.trees

@[simp] def Primary.tree : Primary → Expr
  | .number lexeme => .num lexeme
  | .name lexeme => Parser.name lexeme
  | .paren e => e.tree
end

/-- A derivation of the whole token list. -/
def Derivation.Yields {p : Phrase} (d : Derivation p) (ts : List Token) : Prop :=
  d.terminals = ts.map Token.terminal

namespace Chain

variable {c c' : Chain} {o : Operator}

theorem strength_operand (c : Chain) : c.operand.strength = c.strength + 1 := by
  cases c <;> rfl

theorem strength_bounds (c : Chain) : 0 < c.strength ∧ c.strength < 12 := by
  cases c <;> decide

theorem precedence_of_mem (mem : o ∈ c.operators) : o.precedence = c.strength := by
  revert mem
  cases c <;> cases o <;> decide

theorem groupsLeft_of_mem (mem : o ∈ c.operators) : groupsLeft o = true := by
  revert mem
  cases c <;> cases o <;> decide

theorem mem_operators (left : groupsLeft o = true) (same : c.strength = o.precedence) :
    o ∈ c.operators := by
  revert left same
  cases c <;> cases o <;> decide

end Chain

variable {p : Phrase} {c : Chain} {o : Operator} {n : Nat} {ws : List Word}

theorem Phrase.strength_injective {q : Phrase} (same : p.strength = q.strength) : p = q := by
  revert same
  rcases p with (_ | _ | _ | _ | _ | _ | _) | _ | _ | _ | _ | _ <;>
    rcases q with (_ | _ | _ | _ | _ | _ | _) | _ | _ | _ | _ | _ <;> decide

theorem Phrase.exists_tighter (p : Phrase) (bounded : p.strength < 12) :
    ∃ q : Phrase, q.strength = p.strength + 1 := by
  cases p with
  | chain c => exact ⟨c.operand, c.strength_operand⟩
  | not => exact ⟨.rel, rfl⟩
  | rel => exact ⟨.chain .bitOr, rfl⟩
  | unary => exact ⟨.pow, rfl⟩
  | pow => exact ⟨.access, rfl⟩
  | access => exact absurd bounded (lt_irrefl 12)

/-- Operators that group to the left belong to a chain. -/
theorem Phrase.eq_chain_of_strength (left : groupsLeft o = true)
    (same : p.strength = o.precedence) : ∃ c : Chain, p = .chain c ∧ o ∈ c.operators := by
  cases p with
  | chain c => exact ⟨c, rfl, c.mem_operators left same⟩
  | _ =>
    exfalso
    revert left same
    cases o <;> decide

/-- Words whose terminals have one in the middle. -/
theorem exists_of_map_terminal {front back : List Terminal} {t : Terminal}
    (h : ws.map Word.terminal = front ++ t :: back) :
    ∃ us w vs, ws = us ++ w :: vs ∧ us.map Word.terminal = front ∧ w.terminal = t ∧
      vs.map Word.terminal = back := by
  obtain ⟨us, later, rfl, first, second⟩ := List.map_eq_append_iff.1 h
  obtain ⟨w, vs, rfl, middle, last⟩ := List.map_eq_cons_iff.1 second
  exact ⟨us, w, vs, rfl, first, middle, last⟩

/-- Where a level is open, one is left for it. -/
theorem exists_level {k : Nat} (h : k + 1 ≤ n) : ∃ m, n = m + 1 ∧ k ≤ m :=
  ⟨n - 1, by omega, by omega⟩

theorem Arguments.depth_pos (d : Arguments) : 0 < d.depth := by
  cases d with
  | last => exact Nat.succ_pos _
  | more => exact lt_max_of_lt_left (Nat.succ_pos _)

mutual
/-- What a derivation derives, within every number of levels that it does not exceed. -/
theorem derives_of_derivation : ∀ {p : Phrase} (d : Derivation p) {n : Nat} {ws : List Word},
    d.depth ≤ n → ws.map Word.terminal = d.terminals → Derives n p.strength ws d.tree
  | _, .chain (c := c) first more, n, ws, deep, words => by
    obtain ⟨us, vs, rfl, front, back⟩ := List.map_eq_append_iff.1 words
    have deep := max_le_iff.1 deep
    have lhs := derives_of_derivation first deep.1 front
    rw [c.strength_operand] at lhs
    exact derives_of_operands more deep.2 back (.tighter c.strength_bounds.1 c.strength_bounds.2 lhs)
  | _, .not e, n, ws, deep, words => by
    obtain ⟨w, us, rfl, sign, operand⟩ := List.map_eq_cons_iff.1 words
    obtain ⟨m, rfl, inner⟩ := exists_level deep
    rw [Word.terminal_eq_sign.1 sign]
    exact .not (derives_of_derivation e inner operand)
  | _, .positive e, n, ws, deep, words =>
    .tighter (by decide) (by decide) (derives_of_derivation e deep words)
  | _, .relation o relational lhs rhs, n, ws, deep, words => by
    obtain ⟨us, w, vs, rfl, front, sign, back⟩ := exists_of_map_terminal words
    have deep := max_le_iff.1 deep
    exact .relation relational (Word.spells_iff.2 sign) (derives_of_derivation lhs deep.1 front)
      (derives_of_derivation rhs deep.2 back)
  | _, .single e, n, ws, deep, words =>
    .tighter (by decide) (by decide) (derives_of_derivation e deep words)
  | _, .neg e, n, ws, deep, words => by
    obtain ⟨w, us, rfl, sign, operand⟩ := List.map_eq_cons_iff.1 words
    obtain ⟨m, rfl, inner⟩ := exists_level deep
    rw [Word.terminal_eq_sign.1 sign]
    exact .neg (derives_of_derivation e inner operand)
  | _, .unsigned e, n, ws, deep, words =>
    .tighter (by decide) (by decide) (derives_of_derivation e deep words)
  | _, .pow base exponent, n, ws, deep, words => by
    obtain ⟨us, w, vs, rfl, front, sign, back⟩ := exists_of_map_terminal words
    have deep := max_le_iff.1 deep
    obtain ⟨m, rfl, inside⟩ := exists_level deep.2
    exact .pow (Word.spells_iff.2 sign) (derives_of_derivation base deep.1 front)
      (derives_of_derivation exponent inside back)
  | _, .plain e, n, ws, deep, words =>
    .tighter (by decide) (by decide) (derives_of_derivation e deep words)
  | _, .access base steps, n, ws, deep, words => by
    obtain ⟨us, vs, rfl, front, back⟩ := List.map_eq_append_iff.1 words
    have deep := max_le_iff.1 deep
    exact derives_of_steps steps deep.2 back (derives_of_primary base deep.1 front)

theorem derives_of_operands : ∀ {c : Chain} (d : Operands c) {n : Nat} {us ws : List Word}
    {lhs : Expr}, d.depth ≤ n → ws.map Word.terminal = d.terminals →
      Derives n c.strength us lhs → Derives n c.strength (us ++ ws) (d.tree lhs)
  | _, .done, n, us, ws, lhs, _, words, first => by
    obtain rfl := List.map_eq_nil_iff.1 words
    rwa [List.append_nil]
  | c, .more o mem e rest, n, us, ws, lhs, deep, words, first => by
    obtain ⟨w, later, rfl, sign, tail⟩ := List.map_eq_cons_iff.1 words
    obtain ⟨vs, xs, rfl, middle, back⟩ := List.map_eq_append_iff.1 tail
    have deep := max_le_iff.1 deep
    have operand := derives_of_derivation e deep.1 middle
    rw [c.strength_operand] at operand
    have joined : Derives n c.strength (us ++ w :: vs) (.binary o lhs e.tree) := by
      rw [← c.precedence_of_mem mem] at first operand ⊢
      exact .left (c.groupsLeft_of_mem mem) (Word.spells_iff.2 sign) first operand
    simpa using derives_of_operands rest deep.2 back joined

theorem derives_of_steps : ∀ (d : Steps) {n : Nat} {us ws : List Word} {base : Expr},
    d.depth ≤ n → ws.map Word.terminal = d.terminals → Derives n 12 us base →
      Derives n 12 (us ++ ws) (d.tree base)
  | .done, n, us, ws, base, _, words, first => by
    obtain rfl := List.map_eq_nil_iff.1 words
    rwa [List.append_nil]
  | .apply rest, n, us, ws, base, deep, words, first => by
    obtain ⟨l, later, rfl, open_, tail⟩ := List.map_eq_cons_iff.1 words
    obtain ⟨r, vs, rfl, close, back⟩ := List.map_eq_cons_iff.1 tail
    have applied := Derives.apply (Word.terminal_eq_lparen.1 open_)
      (Word.terminal_eq_rparen.1 close) first
    simpa using derives_of_steps rest deep back applied
  | .call args rest, n, us, ws, base, deep, words, first => by
    obtain ⟨l, later, rfl, open_, tail⟩ := List.map_eq_cons_iff.1 words
    obtain ⟨vs, r, xs, rfl, middle, close, back⟩ := exists_of_map_terminal tail
    have deep := max_le_iff.1 deep
    obtain ⟨m, rfl, -⟩ := exists_level (args.depth_pos.trans_le deep.1)
    have called := Derives.call (Word.terminal_eq_lparen.1 open_) (Word.terminal_eq_rparen.1 close)
      first (derivesAll_of_arguments args deep.1 middle)
    simpa using derives_of_steps rest deep.2 back called
  | .index key rest, n, us, ws, base, deep, words, first => by
    obtain ⟨l, later, rfl, open_, tail⟩ := List.map_eq_cons_iff.1 words
    obtain ⟨vs, r, xs, rfl, middle, close, back⟩ := exists_of_map_terminal tail
    have deep := max_le_iff.1 deep
    obtain ⟨m, rfl, inside⟩ := exists_level deep.1
    have indexed := Derives.index (Word.terminal_eq_lbracket.1 open_)
      (Word.terminal_eq_rbracket.1 close) first
      (derives_of_derivation key inside middle)
    simpa using derives_of_steps rest deep.2 back indexed
  | .member field rest, n, us, ws, base, deep, words, first => by
    obtain ⟨d, later, rfl, dot, tail⟩ := List.map_eq_cons_iff.1 words
    obtain ⟨u, vs, rfl, name, back⟩ := List.map_eq_cons_iff.1 tail
    obtain rfl := Word.terminal_eq_name.1 name
    have accessed := Derives.member (u := ⟨.identifier, field⟩) (Word.terminal_eq_dot.1 dot) rfl
      first
    simpa using derives_of_steps rest deep back accessed

theorem derivesAll_of_arguments : ∀ (d : Arguments) {n : Nat} {ws : List Word},
    d.depth ≤ n + 1 → ws.map Word.terminal = d.terminals → DerivesAll n ws d.trees
  | .last e, n, ws, deep, words =>
    .one (derives_of_derivation e (Nat.le_of_succ_le_succ deep) words)
  | .more e rest, n, ws, deep, words => by
    obtain ⟨us, w, vs, rfl, front, comma, back⟩ := exists_of_map_terminal words
    have deep := max_le_iff.1 deep
    exact .more (Word.terminal_eq_comma.1 comma)
      (derives_of_derivation e (Nat.le_of_succ_le_succ deep.1) front)
      (derivesAll_of_arguments rest deep.2 back)

theorem derives_of_primary : ∀ (d : Primary) {n : Nat} {ws : List Word},
    d.depth ≤ n → ws.map Word.terminal = d.terminals → Derives n 12 ws d.tree
  | .number lexeme, n, ws, _, words => by
    obtain ⟨w, later, rfl, number, tail⟩ := List.map_eq_cons_iff.1 words
    obtain rfl := List.map_eq_nil_iff.1 tail
    rw [Word.terminal_eq_number.1 number]
    exact .num lexeme
  | .name lexeme, n, ws, _, words => by
    obtain ⟨w, later, rfl, name, tail⟩ := List.map_eq_cons_iff.1 words
    obtain rfl := List.map_eq_nil_iff.1 tail
    rw [Word.terminal_eq_name.1 name]
    exact .name lexeme
  | .paren e, n, ws, deep, words => by
    obtain ⟨l, later, rfl, open_, tail⟩ := List.map_eq_cons_iff.1 words
    obtain ⟨us, r, vs, rfl, inside, close, nothing⟩ := exists_of_map_terminal tail
    obtain rfl := List.map_eq_nil_iff.1 nothing
    obtain ⟨m, rfl, inner⟩ := exists_level deep
    exact .paren (Word.terminal_eq_lparen.1 open_) (Word.terminal_eq_rparen.1 close)
      (derives_of_derivation e inner inside)
end

namespace Operands

/-- One chain part behind the other. -/
def append : {c : Chain} → Operands c → Operands c → Operands c
  | _, .done, later => later
  | _, .more o mem e rest, later => .more o mem e (rest.append later)

theorem terminals_append : ∀ {c : Chain} (d later : Operands c),
    (d.append later).terminals = d.terminals ++ later.terminals
  | _, .done, _ => rfl
  | _, .more _ _ _ rest, later => by simp [append, rest.terminals_append later]

theorem depth_append : ∀ {c : Chain} (d later : Operands c),
    (d.append later).depth = max d.depth later.depth
  | _, .done, later => (Nat.zero_max later.depth).symm
  | _, .more _ _ _ rest, later => by simp [append, rest.depth_append later, max_assoc]

theorem tree_append : ∀ {c : Chain} (d later : Operands c) (lhs : Expr),
    (d.append later).tree lhs = later.tree (d.tree lhs)
  | _, .done, _, _ => rfl
  | _, .more _ _ _ rest, later, _ => by simp [append, rest.tree_append later]

end Operands

namespace Steps

def append : Steps → Steps → Steps
  | .done, later => later
  | .apply rest, later => .apply (rest.append later)
  | .call args rest, later => .call args (rest.append later)
  | .index key rest, later => .index key (rest.append later)
  | .member field rest, later => .member field (rest.append later)

theorem terminals_append : ∀ d later : Steps,
    (d.append later).terminals = d.terminals ++ later.terminals
  | .done, _ => rfl
  | .apply rest, later | .call _ rest, later | .index _ rest, later | .member _ rest, later => by
    simp [append, rest.terminals_append later]

theorem depth_append : ∀ d later : Steps, (d.append later).depth = max d.depth later.depth
  | .done, later => (Nat.zero_max later.depth).symm
  | .apply rest, later | .call _ rest, later | .index _ rest, later | .member _ rest, later => by
    simp [append, rest.depth_append later, max_assoc]

theorem tree_append : ∀ (d later : Steps) (base : Expr),
    (d.append later).tree base = later.tree (d.tree base)
  | .done, _, _ => rfl
  | .apply rest, later, _ | .call _ rest, later, _ | .index _ rest, later, _
  | .member _ rest, later, _ => by simp [append, rest.tree_append later]

end Steps

/-- There is a derivation of the phrase for the words and the tree within `n` levels. -/
def Derivable (n : Nat) (p : Phrase) (ws : List Word) (e : Expr) : Prop :=
  ∃ d : Derivation p, d.terminals = ws.map Word.terminal ∧ d.depth ≤ n ∧ d.tree = e

namespace Derivable

variable {q : Phrase} {us vs : List Word} {w l r : Word} {a b e : Expr} {args : List Expr}

/-- A phrase may stand where the next looser one is expected. -/
theorem looser (next : q.strength = p.strength + 1) (h : Derivable n q ws e) :
    Derivable n p ws e := by
  obtain ⟨d, terminals, deep, rfl⟩ := h
  cases p with
  | chain c =>
    obtain rfl := Phrase.strength_injective (next.trans c.strength_operand.symm)
    exact ⟨.chain d .done, by simp [terminals], max_le deep (Nat.zero_le n), rfl⟩
  | not =>
    obtain rfl : q = .rel := Phrase.strength_injective next
    exact ⟨.positive d, terminals, deep, rfl⟩
  | rel =>
    obtain rfl : q = .chain .bitOr := Phrase.strength_injective next
    exact ⟨.single d, terminals, deep, rfl⟩
  | unary =>
    obtain rfl : q = .pow := Phrase.strength_injective next
    exact ⟨.unsigned d, terminals, deep, rfl⟩
  | pow =>
    obtain rfl : q = .access := Phrase.strength_injective next
    exact ⟨.plain d, terminals, deep, rfl⟩
  | access =>
    exfalso
    revert next
    rcases q with (_ | _ | _ | _ | _ | _ | _) | _ | _ | _ | _ | _ <;> decide

theorem chain (mem : o ∈ c.operators) (spelled : w.terminal = .sign o.symbol)
    (first : Derivable n (.chain c) us a) (second : Derivable n c.operand vs b) :
    Derivable n (.chain c) (us ++ w :: vs) (.binary o a b) := by
  obtain ⟨⟨e, more⟩, front, deep, rfl⟩ := first
  obtain ⟨d, back, inner, rfl⟩ := second
  have deep := max_le_iff.1 deep
  refine ⟨.chain e (more.append (.more o mem d .done)), ?_, ?_, ?_⟩
  · rw [Derivation.terminals] at front
    simp [Operands.terminals_append, ← front, back, spelled]
  · simp [Operands.depth_append, deep, inner]
  · simp [Operands.tree_append]

/-- What stands behind an access extends it. -/
theorem step (more : Steps) (first : Derivable n .access us a)
    (back : more.terminals = vs.map Word.terminal) (deep : more.depth ≤ n) :
    Derivable n .access (us ++ vs) (more.tree a) := by
  obtain ⟨d, front, outer, rfl⟩ := first
  cases d with | access base steps => ?_
  have outer := max_le_iff.1 outer
  refine ⟨.access base (steps.append more), ?_, ?_, ?_⟩
  · rw [Derivation.terminals] at front
    simp [Steps.terminals_append, ← front, back]
  · simp [Steps.depth_append, outer, deep]
  · simp [Steps.tree_append]

theorem primary {d : Primary} (terminals : d.terminals = ws.map Word.terminal)
    (deep : d.depth ≤ n) : Derivable n .access ws d.tree :=
  ⟨.access d .done, by simp [terminals], max_le deep (Nat.zero_le n), rfl⟩

theorem relation (relational : o.isRelational = true) (spelled : Spells w o)
    (first : Derivable n (.chain .bitOr) us a) (second : Derivable n (.chain .bitOr) vs b) :
    Derivable n .rel (us ++ w :: vs) (.binary o a b) := by
  obtain ⟨d, front, outer, rfl⟩ := first
  obtain ⟨d', back, inner, rfl⟩ := second
  exact ⟨.relation _ relational d d', by simp [front, back, Word.spells_iff.1 spelled],
    max_le outer inner, rfl⟩

theorem not (h : Derivable n .not ws e) :
    Derivable (n + 1) .not (⟨.operator, "!"⟩ :: ws) (.not e) := by
  obtain ⟨d, back, inner, rfl⟩ := h
  exact ⟨.not d, by simp [back, Word.terminal], Nat.succ_le_succ inner, rfl⟩

theorem neg (h : Derivable n .unary ws e) :
    Derivable (n + 1) .unary (⟨.operator, "-"⟩ :: ws) (.neg e) := by
  obtain ⟨d, back, inner, rfl⟩ := h
  exact ⟨.neg d, by simp [back, Word.terminal], Nat.succ_le_succ inner, rfl⟩

theorem pow (spelled : Spells w .pow) (first : Derivable (n + 1) .access us a)
    (second : Derivable n .unary vs b) :
    Derivable (n + 1) .pow (us ++ w :: vs) (.binary .pow a b) := by
  obtain ⟨d, front, outer, rfl⟩ := first
  obtain ⟨d', back, inner, rfl⟩ := second
  exact ⟨.pow d d', by simp [front, back, Word.spells_iff.1 spelled],
    max_le outer (Nat.succ_le_succ inner), rfl⟩

theorem paren (open_ : l.kind = .lparen) (close : r.kind = .rparen)
    (h : Derivable n (.chain .or) ws e) : Derivable (n + 1) .access (l :: (ws ++ [r])) e := by
  obtain ⟨d, inside, inner, rfl⟩ := h
  refine primary (d := .paren d) ?_ (Nat.succ_le_succ inner)
  simp [inside, Word.terminal, open_, close]

theorem apply (open_ : l.kind = .lparen) (close : r.kind = .rparen)
    (callee : Derivable n .access ws e) : Derivable n .access (ws ++ [l, r]) (.call e []) := by
  refine callee.step (.apply .done) ?_ (Nat.zero_le n)
  simp [Word.terminal, open_, close]

theorem index (open_ : l.kind = .lbracket) (close : r.kind = .rbracket)
    (base : Derivable (n + 1) .access us a) (key : Derivable n (.chain .or) vs b) :
    Derivable (n + 1) .access (us ++ l :: (vs ++ [r])) (.index a b) := by
  obtain ⟨d, inside, inner, rfl⟩ := key
  refine base.step (.index d .done) ?_ (max_le (Nat.succ_le_succ inner) (Nat.zero_le _))
  simp [inside, Word.terminal, open_, close]

theorem member (dot : l.kind = .dot) (name : r.kind = .identifier)
    (base : Derivable n .access ws e) :
    Derivable n .access (ws ++ [l, r]) (members e r.lexeme) := by
  refine base.step (.member r.lexeme .done) ?_ (Nat.zero_le n)
  simp [Word.terminal, dot, name]

end Derivable

/-- There is a derivation of the arguments for the words and the trees within `n` levels. -/
def DerivableAll (n : Nat) (ws : List Word) (es : List Expr) : Prop :=
  ∃ d : Arguments, d.terminals = ws.map Word.terminal ∧ d.depth ≤ n ∧ d.trees = es

namespace Derivable

variable {q : Phrase} {us vs : List Word} {w l r : Word} {a e : Expr} {args : List Expr}

theorem call (open_ : l.kind = .lparen) (close : r.kind = .rparen)
    (callee : Derivable n .access us a) (inside : DerivableAll n vs args) :
    Derivable n .access (us ++ l :: (vs ++ [r])) (.call a args) := by
  obtain ⟨d, inside, inner, rfl⟩ := inside
  refine callee.step (.call d .done) ?_ (max_le inner (Nat.zero_le n))
  simp [inside, Word.terminal, open_, close]

theorem last (h : Derivable n (.chain .or) ws e) : DerivableAll (n + 1) ws [e] := by
  obtain ⟨d, terminals, inner, rfl⟩ := h
  exact ⟨.last d, terminals, Nat.succ_le_succ inner, rfl⟩

theorem more (comma : w.kind = .comma) (first : Derivable n (.chain .or) us e)
    (others : DerivableAll (n + 1) vs args) : DerivableAll (n + 1) (us ++ w :: vs) (e :: args) := by
  obtain ⟨d, front, inner, rfl⟩ := first
  obtain ⟨ds, back, rest, rfl⟩ := others
  exact ⟨.more d ds, by simp [front, back, Word.terminal, comma],
    max_le (Nat.succ_le_succ inner) rest, rfl⟩

/-- There is one phrase of each strength. -/
theorem at_strength (h : Derivable n q ws e) (p : Phrase) (same : p.strength = q.strength) :
    Derivable n p ws e :=
  Phrase.strength_injective same ▸ h

end Derivable

/-- What is derived at a strength has a derivation of its phrase. -/
theorem derivable_of_derives {k : Nat} {e : Expr} (h : Derives n k ws e) :
    ∀ p : Phrase, p.strength = k → Derivable n p ws e := by
  induction h using Derives.rec (motive_2 := fun n ws es _ => DerivableAll (n + 1) ws es) with
  | tighter _ bounded _ ih =>
    rintro p rfl
    obtain ⟨q, next⟩ := p.exists_tighter bounded
    exact (ih q next).looser next
  | left left spelled _ _ ihl ihr =>
    intro p same
    obtain ⟨c, rfl, mem⟩ := Phrase.eq_chain_of_strength left same
    exact (ihl _ same).chain mem (Word.spells_iff.1 spelled)
      (ihr _ (c.strength_operand.trans (congrArg (· + 1) same)))
  | relation relational spelled _ _ ihl ihr =>
    exact (Derivable.relation relational spelled (ihl (.chain .bitOr) rfl)
      (ihr (.chain .bitOr) rfl)).at_strength
  | not _ ih => exact (ih .not rfl).not.at_strength
  | neg _ ih => exact (ih .unary rfl).neg.at_strength
  | pow spelled _ _ ihb ihe =>
    exact (Derivable.pow spelled (ihb .access rfl) (ihe .unary rfl)).at_strength
  | num lexeme =>
    exact (Derivable.primary (d := .number lexeme) rfl (Nat.zero_le _)).at_strength
  | name lexeme => exact (Derivable.primary (d := .name lexeme) rfl (Nat.zero_le _)).at_strength
  | paren open_ close _ ih => exact ((ih (.chain .or) rfl).paren open_ close).at_strength
  | apply open_ close _ ih => exact ((ih .access rfl).apply open_ close).at_strength
  | call open_ close _ _ ih ihs => exact ((ih .access rfl).call open_ close ihs).at_strength
  | index open_ close _ _ ih ihk =>
    exact ((ih .access rfl).index open_ close (ihk (.chain .or) rfl)).at_strength
  | member dot name _ ih => exact ((ih .access rfl).member dot name).at_strength
  | one _ ih => exact (ih (.chain .or) rfl).last
  | more comma _ _ ih ihs => exact (ih (.chain .or) rfl).more comma ihs

/-- No phrase of strength `k` goes on with the terminals. -/
def Ends (k : Nat) (ts : List Terminal) : Prop := ∀ t ∈ ts.head?, t.reach < k

/-- A phrase of strength `k` may start with the terminal. -/
def Starts (k : Nat) (t : Terminal) : Prop :=
  t ≠ .rparen ∧ (t = .sign "!" → k ≤ 3) ∧ (t = .sign "-" → k ≤ 10)

variable {k m : Nat} {t : Terminal} {ts rest rest' : List Terminal}

theorem Ends.mono (h : Ends k ts) (le : k ≤ m) : Ends m ts :=
  fun t mem => (h t mem).trans_le le

@[simp] theorem ends_cons : Ends k (t :: ts) ↔ t.reach < k := by
  simp [Ends]

theorem ends_or (h : t.reach = 0) : Ends (Phrase.chain .or).strength (t :: ts) := by
  simp [h, Phrase.strength, Chain.strength]

theorem Ends.unary (h : Ends 11 ts) : Ends 10 ts := by
  intro t mem
  have bound := h t mem
  have never := t.reach_ne
  omega

theorem Starts.mono (h : Starts m t) (le : k ≤ m) : Starts k t :=
  ⟨h.1, fun same => le.trans (h.2.1 same), fun same => le.trans (h.2.2 same)⟩

theorem Derivation.head : ∀ {p : Phrase} (d : Derivation p),
    ∃ t ts, d.terminals = t :: ts ∧ Starts p.strength t
  | _, .chain (c := c) first more => by
    obtain ⟨t, ts, front, starts⟩ := first.head
    rw [c.strength_operand] at starts
    exact ⟨t, ts ++ more.terminals, by simp [front], starts.mono (Nat.le_succ _)⟩
  | _, .not e => ⟨_, _, rfl, by decide, by decide, by decide⟩
  | _, .positive e => by
    obtain ⟨t, ts, front, starts⟩ := e.head
    exact ⟨t, ts, front, starts.mono (by decide)⟩
  | _, .relation o _ lhs rhs => by
    obtain ⟨t, ts, front, starts⟩ := lhs.head
    exact ⟨t, _, congrArg (· ++ _) front, starts.mono (by decide)⟩
  | _, .single e => by
    obtain ⟨t, ts, front, starts⟩ := e.head
    exact ⟨t, ts, front, starts.mono (by decide)⟩
  | _, .neg e => ⟨_, _, rfl, by decide, by decide, by decide⟩
  | _, .unsigned e => by
    obtain ⟨t, ts, front, starts⟩ := e.head
    exact ⟨t, ts, front, starts.mono (by decide)⟩
  | _, .pow base exponent => by
    obtain ⟨t, ts, front, starts⟩ := base.head
    exact ⟨t, _, congrArg (· ++ _) front, starts.mono (by decide)⟩
  | _, .plain e => by
    obtain ⟨t, ts, front, starts⟩ := e.head
    exact ⟨t, ts, front, starts.mono (by decide)⟩
  | _, .access base steps => by
    cases base <;> exact ⟨_, _, rfl, by simp, by simp, by simp⟩

/-- A phrase that binds tighter than the sign in front of the other does not start with it. -/
theorem Derivation.ne_sign_cons {q : Phrase} {s : String} {later : List Terminal}
    (e : Derivation q) (tight : Starts q.strength (.sign s) → False) :
    .sign s :: later ≠ e.terminals ++ rest := by
  intro same
  obtain ⟨t, ts, front, starts⟩ := e.head
  rw [front] at same
  exact tight ((List.cons.inj same).1 ▸ starts)

theorem Operands.ends (d : Operands c) (h : Ends c.strength rest) :
    Ends c.operand.strength (d.terminals ++ rest) := by
  cases d with
  | done => exact h.mono (c.strength_operand ▸ Nat.le_succ _)
  | more o mem e later =>
    simp [c.strength_operand, c.precedence_of_mem mem]

theorem ends_symbol (relational : o.isRelational = true) :
    Ends 5 (.sign o.symbol :: ts) ∧ ¬ Ends 4 (.sign o.symbol :: ts) := by
  simp only [ends_cons, Terminal.reach_symbol]
  cases o <;> first | decide | cases relational

theorem Steps.eq_done (d : Steps) (same : d.terminals ++ rest = rest') (ends : Ends 12 rest') :
    d = .done := by
  subst same
  cases d with
  | done => rfl
  | _ => simp [Terminal.reach] at ends

theorem Arguments.ne_rparen_cons (d : Arguments) : .rparen :: ts ≠ d.terminals ++ rest := by
  intro same
  cases d with
  | last e | more e =>
    obtain ⟨t, us, front, starts⟩ := e.head
    simp only [terminals, front, List.cons_append, List.cons.injEq] at same
    exact starts.1 same.1.symm

mutual
/-- Two derivations of a phrase at the front of the same terminals are equal, if neither can go on
with what follows it. -/
theorem Derivation.unique : ∀ {p : Phrase} (d d' : Derivation p) {rest rest' : List Terminal},
    d.terminals ++ rest = d'.terminals ++ rest' → Ends p.strength rest → Ends p.strength rest' →
      d = d' ∧ rest = rest'
  | _, .chain first more, .chain first' more', rest, rest', same, ends, ends' => by
    simp only [Derivation.terminals, List.append_assoc] at same
    obtain ⟨rfl, tail⟩ := first.unique first' same (more.ends ends) (more'.ends ends')
    obtain ⟨rfl, back⟩ := more.unique more' tail ends ends'
    exact ⟨rfl, back⟩
  | _, .not e, .not e', rest, rest', same, ends, ends' => by
    obtain ⟨rfl, back⟩ := e.unique e' (List.cons.inj same).2 ends ends'
    exact ⟨rfl, back⟩
  | _, .not e, .positive e', rest, rest', same, _, _ =>
    absurd same (e'.ne_sign_cons fun starts => absurd (starts.2.1 rfl) (by decide))
  | _, .positive e, .not e', rest, rest', same, _, _ =>
    absurd same.symm (e.ne_sign_cons fun starts => absurd (starts.2.1 rfl) (by decide))
  | _, .positive e, .positive e', rest, rest', same, ends, ends' => by
    obtain ⟨rfl, back⟩ := e.unique e' same (ends.mono (by decide)) (ends'.mono (by decide))
    exact ⟨rfl, back⟩
  | _, .relation o relational lhs rhs, .relation o' relational' lhs' rhs', rest, rest', same, ends,
      ends' => by
    simp only [Derivation.terminals, List.append_assoc, List.cons_append] at same
    obtain ⟨rfl, tail⟩ := lhs.unique lhs' same (ends_symbol relational).1 (ends_symbol relational').1
    obtain rfl := Operator.symbol_injective (Terminal.sign.inj (List.cons.inj tail).1)
    obtain ⟨rfl, back⟩ := rhs.unique rhs' (List.cons.inj tail).2 (ends.mono (by decide))
      (ends'.mono (by decide))
    exact ⟨rfl, back⟩
  | _, .relation o relational lhs rhs, .single e', rest, rest', same, _, ends' => by
    simp only [Derivation.terminals, List.append_assoc, List.cons_append] at same
    obtain ⟨-, rfl⟩ := lhs.unique e' same (ends_symbol relational).1 (ends'.mono (by decide))
    exact absurd ends' (ends_symbol relational).2
  | _, .single e, .relation o' relational' lhs' rhs', rest, rest', same, ends, _ => by
    simp only [Derivation.terminals, List.append_assoc, List.cons_append] at same
    obtain ⟨-, rfl⟩ := e.unique lhs' same (ends.mono (by decide)) (ends_symbol relational').1
    exact absurd ends (ends_symbol relational').2
  | _, .single e, .single e', rest, rest', same, ends, ends' => by
    obtain ⟨rfl, back⟩ := e.unique e' same (ends.mono (by decide)) (ends'.mono (by decide))
    exact ⟨rfl, back⟩
  | _, .neg e, .neg e', rest, rest', same, ends, ends' => by
    obtain ⟨rfl, back⟩ := e.unique e' (List.cons.inj same).2 ends ends'
    exact ⟨rfl, back⟩
  | _, .neg e, .unsigned e', rest, rest', same, _, _ =>
    absurd same (e'.ne_sign_cons fun starts => absurd (starts.2.2 rfl) (by decide))
  | _, .unsigned e, .neg e', rest, rest', same, _, _ =>
    absurd same.symm (e.ne_sign_cons fun starts => absurd (starts.2.2 rfl) (by decide))
  | _, .unsigned e, .unsigned e', rest, rest', same, ends, ends' => by
    obtain ⟨rfl, back⟩ := e.unique e' same (ends.mono (by decide)) (ends'.mono (by decide))
    exact ⟨rfl, back⟩
  | _, .pow base exponent, .pow base' exponent', rest, rest', same, ends, ends' => by
    simp only [Derivation.terminals, List.append_assoc, List.cons_append] at same
    obtain ⟨rfl, tail⟩ := base.unique base' same (by simp [Phrase.strength, Operator.precedence])
      (by simp [Phrase.strength, Operator.precedence])
    obtain ⟨rfl, back⟩ := exponent.unique exponent' (List.cons.inj tail).2 (Ends.unary ends)
      (Ends.unary ends')
    exact ⟨rfl, back⟩
  | _, .pow base exponent, .plain e', rest, rest', same, _, ends' => by
    simp only [Derivation.terminals, List.append_assoc, List.cons_append] at same
    obtain ⟨-, rfl⟩ := base.unique e' same (by simp [Phrase.strength, Operator.precedence])
      (ends'.mono (by decide))
    simp [Phrase.strength, Operator.precedence] at ends'
  | _, .plain e, .pow base' exponent', rest, rest', same, ends, _ => by
    simp only [Derivation.terminals, List.append_assoc, List.cons_append] at same
    obtain ⟨-, rfl⟩ := e.unique base' same (ends.mono (by decide))
      (by simp [Phrase.strength, Operator.precedence])
    simp [Phrase.strength, Operator.precedence] at ends
  | _, .plain e, .plain e', rest, rest', same, ends, ends' => by
    obtain ⟨rfl, back⟩ := e.unique e' same (ends.mono (by decide)) (ends'.mono (by decide))
    exact ⟨rfl, back⟩
  | _, .access base steps, .access base' steps', rest, rest', same, ends, ends' => by
    simp only [Derivation.terminals, List.append_assoc] at same
    obtain ⟨rfl, tail⟩ := base.unique base' same
    obtain ⟨rfl, back⟩ := steps.unique steps' tail ends ends'
    exact ⟨rfl, back⟩
termination_by structural _ d => d

theorem Operands.unique : ∀ {c : Chain} (d d' : Operands c) {rest rest' : List Terminal},
    d.terminals ++ rest = d'.terminals ++ rest' → Ends c.strength rest → Ends c.strength rest' →
      d = d' ∧ rest = rest'
  | _, .done, .done, rest, rest', same, _, _ => ⟨rfl, same⟩
  | c, .done, .more o' mem' e' later', rest, rest', same, ends, _ => by
    obtain rfl : rest = .sign o'.symbol :: (e'.terminals ++ later'.terminals) ++ rest' := same
    simp [c.precedence_of_mem mem'] at ends
  | c, .more o mem e later, .done, rest, rest', same, _, ends' => by
    obtain rfl : .sign o.symbol :: (e.terminals ++ later.terminals) ++ rest = rest' := same
    simp [c.precedence_of_mem mem] at ends'
  | c, .more o mem e later, .more o' mem' e' later', rest, rest', same, ends, ends' => by
    simp only [Operands.terminals, List.append_assoc, List.cons_append] at same
    obtain rfl := Operator.symbol_injective (Terminal.sign.inj (List.cons.inj same).1)
    obtain ⟨rfl, tail⟩ := e.unique e' (List.cons.inj same).2 (later.ends ends) (later'.ends ends')
    obtain ⟨rfl, back⟩ := later.unique later' tail ends ends'
    exact ⟨rfl, back⟩
termination_by structural _ d => d

theorem Steps.unique : ∀ (d d' : Steps) {rest rest' : List Terminal},
    d.terminals ++ rest = d'.terminals ++ rest' → Ends 12 rest → Ends 12 rest' →
      d = d' ∧ rest = rest'
  | .done, d', rest, rest', same, ends, _ => by
    obtain rfl := Steps.eq_done d' same.symm ends
    exact ⟨rfl, same⟩
  | .apply later, d', rest, rest', same, ends, ends' => by
    cases d' with
    | done => cases Steps.eq_done _ same ends'
    | apply later' =>
      obtain ⟨rfl, back⟩ := later.unique later' (List.cons.inj (List.cons.inj same).2).2 ends ends'
      exact ⟨rfl, back⟩
    | call args' later' =>
      simp only [Steps.terminals, List.append_assoc, List.cons_append] at same
      exact absurd (List.cons.inj same).2 args'.ne_rparen_cons
    | index | member => cases (List.cons.inj same).1
  | .call args later, d', rest, rest', same, ends, ends' => by
    cases d' with
    | done => cases Steps.eq_done _ same ends'
    | apply later' =>
      simp only [Steps.terminals, List.append_assoc, List.cons_append] at same
      exact absurd (List.cons.inj same).2.symm args.ne_rparen_cons
    | call args' later' =>
      simp only [Steps.terminals, List.append_assoc, List.cons_append] at same
      obtain ⟨rfl, tail⟩ := args.unique args' (List.cons.inj same).2
      obtain ⟨rfl, back⟩ := later.unique later' tail ends ends'
      exact ⟨rfl, back⟩
    | index | member => cases (List.cons.inj same).1
  | .index key later, d', rest, rest', same, ends, ends' => by
    cases d' with
    | done => cases Steps.eq_done _ same ends'
    | index key' later' =>
      simp only [Steps.terminals, List.append_assoc, List.cons_append] at same
      obtain ⟨rfl, tail⟩ := key.unique key' (List.cons.inj same).2 (ends_or rfl) (ends_or rfl)
      obtain ⟨rfl, back⟩ := later.unique later' (List.cons.inj tail).2 ends ends'
      exact ⟨rfl, back⟩
    | apply | call | member => cases (List.cons.inj same).1
  | .member field later, d', rest, rest', same, ends, ends' => by
    cases d' with
    | done => cases Steps.eq_done _ same ends'
    | member field' later' =>
      obtain rfl := Terminal.name.inj (List.cons.inj (List.cons.inj same).2).1
      obtain ⟨rfl, back⟩ := later.unique later' (List.cons.inj (List.cons.inj same).2).2 ends ends'
      exact ⟨rfl, back⟩
    | apply | call | index => cases (List.cons.inj same).1
termination_by structural d => d

theorem Arguments.unique : ∀ (d d' : Arguments) {rest rest' : List Terminal},
    d.terminals ++ .rparen :: rest = d'.terminals ++ .rparen :: rest' → d = d' ∧ rest = rest'
  | .last e, .last e', rest, rest', same => by
    obtain ⟨rfl, tail⟩ := e.unique e' same (ends_or rfl) (ends_or rfl)
    exact ⟨rfl, (List.cons.inj tail).2⟩
  | .last e, .more e' later', rest, rest', same => by
    simp only [Arguments.terminals, List.append_assoc, List.cons_append] at same
    obtain ⟨-, tail⟩ := e.unique e' same (ends_or rfl) (ends_or rfl)
    cases (List.cons.inj tail).1
  | .more e later, .last e', rest, rest', same => by
    simp only [Arguments.terminals, List.append_assoc, List.cons_append] at same
    obtain ⟨-, tail⟩ := e.unique e' same (ends_or rfl) (ends_or rfl)
    cases (List.cons.inj tail).1
  | .more e later, .more e' later', rest, rest', same => by
    simp only [Arguments.terminals, List.append_assoc, List.cons_append] at same
    obtain ⟨rfl, tail⟩ := e.unique e' same (ends_or rfl) (ends_or rfl)
    obtain ⟨rfl, back⟩ := later.unique later' (List.cons.inj tail).2
    exact ⟨rfl, back⟩
termination_by structural d => d

theorem Primary.unique : ∀ (d d' : Primary) {rest rest' : List Terminal},
    d.terminals ++ rest = d'.terminals ++ rest' → d = d' ∧ rest = rest'
  | .number lexeme, d', rest, rest', same => by
    cases d' with
    | number lexeme' =>
      obtain rfl := Terminal.number.inj (List.cons.inj same).1
      exact ⟨rfl, (List.cons.inj same).2⟩
    | name | paren => cases (List.cons.inj same).1
  | .name lexeme, d', rest, rest', same => by
    cases d' with
    | name lexeme' =>
      obtain rfl := Terminal.name.inj (List.cons.inj same).1
      exact ⟨rfl, (List.cons.inj same).2⟩
    | number | paren => cases (List.cons.inj same).1
  | .paren e, d', rest, rest', same => by
    cases d' with
    | paren e' =>
      simp only [Primary.terminals, List.append_assoc, List.cons_append] at same
      obtain ⟨rfl, tail⟩ := e.unique e' (List.cons.inj same).2 (ends_or rfl) (ends_or rfl)
      exact ⟨rfl, (List.cons.inj tail).2⟩
    | number | name => cases (List.cons.inj same).1
termination_by structural d => d
end

theorem Derivation.eq_of_yields {d d' : Derivation p} {ts : List Token} (h : d.Yields ts)
    (h' : d'.Yields ts) : d = d' := by
  have nothing : Ends p.strength [] := fun t mem => by cases mem
  have same : d.terminals ++ [] = d'.terminals ++ [] := congrArg (· ++ []) (h.trans h'.symm)
  exact (d.unique d' same nothing nothing).1

end Parser

/-- The parser accepts a token list exactly if the whole list derives from the grammar with at most
128 nesting levels, what it returns is the tree of the derivation, and there is only one. -/
theorem Expr.ofTokens_iff_derivation (ts : List Token) :
    (∀ t : Expr, Expr.ofTokens ts = .ok t ↔
      ∃ d : Parser.Derivation (.chain .or), d.Yields ts ∧ d.depth ≤ 128 ∧ d.tree = t) ∧
    ∀ d d' : Parser.Derivation (.chain .or), d.Yields ts → d'.Yields ts → d = d' := by
  have words : ts.map Token.terminal = (ts.map Token.word).map Word.terminal := by
    rw [List.map_map]
    rfl
  refine ⟨fun t => ofTokens_eq_ok_iff.trans ⟨fun derives => ?_, ?_⟩,
    fun d d' => Parser.Derivation.eq_of_yields⟩
  · obtain ⟨d, terminals, deep, tree⟩ := Parser.derivable_of_derives derives (.chain .or) rfl
    exact ⟨d, terminals.trans words.symm, deep, tree⟩
  · rintro ⟨d, yields, deep, rfl⟩
    exact Parser.derives_of_derivation d deep (words.symm.trans yields.symm)

end PredicateStrength
