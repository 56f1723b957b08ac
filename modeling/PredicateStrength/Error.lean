/-!
Why a predicate cannot be read or converted, and the text of each cause. Positions are byte
offsets into the text that was read.
-/
namespace PredicateStrength

/-- The text does not split into tokens. -/
inductive LexError where
  | unexpectedChar (c : Char) (pos : Nat)
  | badNumber (text : String) (pos : Nat)
deriving DecidableEq, Repr

def LexError.message : LexError → String
  | .unexpectedChar c pos => s!"unexpected character '{c}' at position {pos}"
  | .badNumber text pos => s!"malformed number '{text}' at position {pos}"

/-- The tokens do not form a predicate. -/
structure SyntaxError where
  pos : Nat
  expected : String
  found : String
deriving DecidableEq, Repr

def SyntaxError.message : SyntaxError → String
  | ⟨pos, expected, found⟩ =>
    s!"syntax error at position {pos}: expected {expected}, found {found}"

/-- The kind of value that a place asks for. -/
inductive ValueSort where
  | boolean
  | integer
deriving DecidableEq, Repr

def ValueSort.description : ValueSort → String
  | .boolean => "a boolean"
  | .integer => "an integer"

/-- A tree has no formula or polynomial. -/
inductive ConversionError where
  /-- The node has no symbolic meaning. -/
  | unsupported (node reason : String)
  /-- The node cannot stand where it was used. -/
  | sortMismatch (node : String) (expected : ValueSort)
  /-- A product in the node has an exponent that does not fit 32 bits. -/
  | exponentOverflow (node : String)
deriving DecidableEq, Repr

def ConversionError.message : ConversionError → String
  | .unsupported node reason => s!"no symbolic meaning for '{node}': {reason}"
  | .sortMismatch node expected => s!"'{node}' cannot be used as {expected.description}"
  | .exponentOverflow node => s!"exponent overflow in '{node}'"

/-- Any failure between the text of a predicate and its formula. -/
inductive PredicateError where
  | lex (e : LexError)
  | parse (e : SyntaxError)
  | conversion (e : ConversionError)
deriving DecidableEq, Repr

/-- The text of the cause alone. -/
def PredicateError.cause : PredicateError → String
  | .lex e => e.message
  | .parse e => e.message
  | .conversion e => e.message

/-- The text with the stage that failed; a syntax error names its stage itself. -/
def PredicateError.message : PredicateError → String
  | .lex e => "lex error: " ++ e.message
  | .parse e => e.message
  | .conversion e => "conversion error: " ++ e.message

end PredicateStrength
