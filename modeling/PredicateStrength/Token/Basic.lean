/-!
The words of predicate text.
-/
namespace PredicateStrength

/-- What kind of word a token is. -/
inductive TokenKind where
  | identifier
  | number
  | operator
  | lparen
  | rparen
  | lbracket
  | rbracket
  | dot
  | comma
deriving DecidableEq, Repr

/-- The name under which a kind is reported. -/
def TokenKind.name : TokenKind → String
  | .identifier => "Identifier"
  | .number => "Number"
  | .operator => "Operator"
  | .lparen => "LParen"
  | .rparen => "RParen"
  | .lbracket => "LBracket"
  | .rbracket => "RBracket"
  | .dot => "Dot"
  | .comma => "Comma"

/-- A word of the text and where it starts, in bytes. -/
structure Token where
  lexeme : String
  kind : TokenKind
  pos : Nat
deriving DecidableEq, Repr

namespace Token

/-- The position just behind the token, in bytes. -/
def stop (t : Token) : Nat := t.pos + t.lexeme.utf8ByteSize

/-- The token is the operator spelled `s`. -/
def isOperator (t : Token) (s : String) : Bool := t.kind = .operator && t.lexeme = s

end Token
end PredicateStrength
