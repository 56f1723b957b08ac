import PredicateStrength.Error
import PredicateStrength.Token.Basic

/-!
Splitting text into tokens: whitespace separates and is dropped, each token is the longest one
that starts where it starts, and a number must not run into a word.

Main statement: scanning a token consumes at least one character, so that reading the whole text
is a recursion on its length.
-/
namespace PredicateStrength.Token

/-- Space, tab, line feed, form feed and carriage return. -/
def isSpace (c : Char) : Bool := c = ' ' || c = '\t' || c = '\n' || c = '\x0c' || c = '\r'

/-- A letter, `_` or `$`. -/
def isIdentStart (c : Char) : Bool := c.isAlpha || c = '_' || c = '$'

/-- A letter, digit, `_` or `$`. -/
def isIdentPart (c : Char) : Bool := c.isAlphanum || c = '_' || c = '$'

/-- A hexadecimal digit. -/
def isHexDigit (c : Char) : Bool := c.isDigit || 'a' ≤ c && c ≤ 'f' || 'A' ≤ c && c ≤ 'F'

/-- The list starts with a character that satisfies `p`. -/
def startsWith (p : Char → Bool) : List Char → Bool
  | [] => false
  | c :: _ => p c

/-- Operators of two characters; they win over those of one. -/
def pairOperators : List (Char × Char) :=
  [('&', '&'), ('|', '|'), ('=', '='), ('!', '='), ('<', '='), ('>', '='), ('*', '*')]

/-- Operators of one character. -/
def singleOperators : List Char := ['<', '>', '!', '+', '-', '*', '/', '%', '&', '|', '^']

/-- The bytes that the characters take. -/
def byteLength : List Char → Nat
  | [] => 0
  | c :: cs => c.utf8Size + byteLength cs

/-- The characters that a token takes, those that follow it, and whether it is well formed. -/
structure Scan where
  taken : List Char
  rest : List Char
  wellFormed : Bool

/-- The token also takes the character `c`, which stands before it. -/
def Scan.cons (c : Char) (s : Scan) : Scan := { s with taken := c :: s.taken }

/-- The token takes nothing more. -/
def Scan.stop (rest : List Char) : Scan := ⟨[], rest, true⟩

/-- The token breaks off here. -/
def Scan.broken (rest : List Char) : Scan := ⟨[], rest, false⟩

/-- The rest of a decimal number: digits and `_`, at most one point, which a digit must follow,
and at most one exponent, which may carry a sign and must start with a digit. The point has to
come before the exponent. -/
def scanDecimal (point exponent : Bool) : List Char → Scan
  | [] => .stop []
  | c :: cs =>
    if c.isDigit || c = '_' then .cons c (scanDecimal point exponent cs)
    else if c = '.' && !point && !exponent then
      if startsWith Char.isDigit cs then .cons c (scanDecimal true exponent cs)
      else .broken (c :: cs)
    else if (c = 'e' || c = 'E') && !exponent then
      .cons c <|
        match cs with
        | [] => .broken []
        | d :: ds =>
          if d = '+' || d = '-' then
            .cons d (if startsWith Char.isDigit ds then scanDecimal point true ds else .broken ds)
          else if d.isDigit then scanDecimal point true (d :: ds)
          else .broken (d :: ds)
    else .stop (c :: cs)

/-- A hexadecimal number behind its mark `0x`: digits and `_`, at least one of them. -/
def scanHex (cs : List Char) : Scan :=
  let p := fun c => isHexDigit c || c = '_'
  ⟨cs.takeWhile p, cs.dropWhile p, startsWith p cs⟩

/-- A word that follows a number without a gap belongs to it and spoils it. -/
def Scan.absorbWord (s : Scan) : Scan :=
  if s.wellFormed && startsWith isIdentStart s.rest then
    ⟨s.taken ++ s.rest.takeWhile isIdentPart, s.rest.dropWhile isIdentPart, false⟩
  else s

/-- The number that starts with `c`, a digit or a point before a digit; hexadecimal if it starts
with `0x` or `0X`. -/
def scanNumber (c : Char) (cs : List Char) : Scan :=
  Scan.absorbWord <| .cons c <|
    match c, cs with
    | '0', 'x' :: ds => .cons 'x' (scanHex ds)
    | '0', 'X' :: ds => .cons 'X' (scanHex ds)
    | _, _ => scanDecimal (c = '.') false cs

/-- A name with the member names that dots join to it. -/
def scanIdent : List Char → Scan
  | [] => .stop []
  | c :: cs =>
    if isIdentPart c || c = '.' && startsWith isIdentStart cs then .cons c (scanIdent cs)
    else .stop (c :: cs)

/-- The kind of a token that is one punctuation mark. -/
def punctuation? : Char → Option TokenKind
  | '(' => some .lparen
  | ')' => some .rparen
  | '[' => some .lbracket
  | ']' => some .rbracket
  | ',' => some .comma
  | '.' => some .dot
  | _ => none

/-- An operator: two characters if they form one, else one. -/
def scanOperator? (c : Char) (cs : List Char) : Option Scan :=
  match cs with
  | d :: ds =>
    if (c, d) ∈ pairOperators then some (.cons c (.cons d (.stop ds)))
    else if c ∈ singleOperators then some (.cons c (.stop cs))
    else none
  | [] => if c ∈ singleOperators then some (.cons c (.stop cs)) else none

/-- The token that starts the text `c :: cs`, which does not start with whitespace. -/
def scan (pos : Nat) (c : Char) (cs : List Char) : Except LexError (TokenKind × Scan) :=
  if c.isDigit || c = '.' && startsWith Char.isDigit cs then
    if (scanNumber c cs).wellFormed then .ok (.number, scanNumber c cs)
    else .error (.badNumber (String.ofList (scanNumber c cs).taken) pos)
  else if isIdentStart c then .ok (.identifier, .cons c (scanIdent cs))
  else
    match punctuation? c with
    | some kind => .ok (kind, .cons c (.stop cs))
    | none =>
      match scanOperator? c cs with
      | some s => .ok (.operator, s)
      | none => .error (.unexpectedChar c pos)

/-- The characters of a scan, those taken first. -/
def Scan.chars (s : Scan) : List Char := s.taken ++ s.rest

@[simp] theorem Scan.chars_cons (c : Char) (s : Scan) : (s.cons c).chars = c :: s.chars := rfl

@[simp] theorem Scan.chars_stop (cs : List Char) : (Scan.stop cs).chars = cs := rfl

@[simp] theorem Scan.chars_broken (cs : List Char) : (Scan.broken cs).chars = cs := rfl

@[simp] theorem Scan.chars_absorbWord (s : Scan) : s.absorbWord.chars = s.chars := by
  unfold absorbWord chars
  split <;> simp [List.append_assoc, List.takeWhile_append_dropWhile]

@[simp] theorem chars_scanDecimal (point exponent : Bool) (cs : List Char) :
    (scanDecimal point exponent cs).chars = cs := by
  fun_induction scanDecimal point exponent cs <;> simp_all
  split <;> simp_all
  grind [Scan.chars_cons, Scan.chars_broken]

@[simp] theorem chars_scanHex (cs : List Char) : (scanHex cs).chars = cs :=
  List.takeWhile_append_dropWhile

@[simp] theorem chars_scanNumber (c : Char) (cs : List Char) :
    (scanNumber c cs).chars = c :: cs := by
  unfold scanNumber
  split <;> simp

@[simp] theorem chars_scanIdent (cs : List Char) : (scanIdent cs).chars = cs := by
  fun_induction scanIdent cs <;> simp_all

theorem chars_scanOperator? {c : Char} {cs : List Char} {s : Scan}
    (h : scanOperator? c cs = some s) : s.chars = c :: cs := by
  unfold scanOperator? at h
  grind [Scan.chars_cons, Scan.chars_stop]

/-- A token and what follows it are the text it was scanned from. -/
theorem chars_scan {pos : Nat} {c : Char} {cs : List Char} {kind : TokenKind} {s : Scan}
    (h : scan pos c cs = .ok (kind, s)) : s.chars = c :: cs := by
  unfold scan at h
  grind [chars_scanNumber, Scan.chars_cons, Scan.chars_stop, chars_scanIdent, chars_scanOperator?]

@[simp] theorem Scan.taken_cons_ne_nil (c : Char) (s : Scan) : (s.cons c).taken ≠ [] := by
  simp [Scan.cons]

theorem Scan.taken_absorbWord_ne_nil {s : Scan} (h : s.taken ≠ []) : s.absorbWord.taken ≠ [] := by
  unfold absorbWord
  split <;> simp [h]

theorem taken_scanNumber_ne_nil (c : Char) (cs : List Char) : (scanNumber c cs).taken ≠ [] :=
  Scan.taken_absorbWord_ne_nil (Scan.taken_cons_ne_nil c _)

/-- Every token has a character. -/
theorem taken_scan_ne_nil {pos : Nat} {c : Char} {cs : List Char} {kind : TokenKind} {s : Scan}
    (h : scan pos c cs = .ok (kind, s)) : s.taken ≠ [] := by
  unfold scan scanOperator? at h
  grind [taken_scanNumber_ne_nil, Scan.taken_cons_ne_nil]

theorem length_rest_scan {pos : Nat} {c : Char} {cs : List Char} {kind : TokenKind} {s : Scan}
    (h : scan pos c cs = .ok (kind, s)) : s.rest.length ≤ cs.length := by
  have hl := congrArg List.length (chars_scan h)
  have hp := List.length_pos_iff.2 (taken_scan_ne_nil h)
  simp only [Scan.chars, List.length_append, List.length_cons] at hl
  omega

/-- The tokens of the characters that start at byte `pos`. -/
def ofChars (pos : Nat) : List Char → Except LexError (List Token)
  | [] => .ok []
  | c :: cs =>
    if isSpace c then ofChars (pos + c.utf8Size) cs
    else
      match h : scan pos c cs with
      | .error e => .error e
      | .ok (kind, s) =>
        have : s.rest.length ≤ cs.length := length_rest_scan h
        (ofChars (pos + byteLength s.taken) s.rest).map (⟨String.ofList s.taken, kind, pos⟩ :: ·)
termination_by cs => cs.length

/-- The tokens of a text. -/
def ofText (text : String) : Except LexError (List Token) := ofChars 0 text.toList

end PredicateStrength.Token
