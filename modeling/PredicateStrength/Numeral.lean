/-!
The exact value of a numeral as written: decimal digits with an optional fraction and a decimal
exponent, or hexadecimal digits; underscores separate digits and are ignored.
-/
namespace PredicateStrength.Numeral

/-- Decimal shifts past this are not evaluated; `2**256` needs 78 digits. -/
def maxShift : Nat := 4096

/-- Exponents and counts of fraction digits are below `2**31`, as signed 32-bit words are. -/
def wordLimit : Nat := 2147483648

/-- The value of a digit in the given base. -/
def digit? (base : Nat) (c : Char) : Option Nat :=
  let d :=
    if c.isDigit then c.toNat - '0'.toNat
    else if 'a' ≤ c ∧ c ≤ 'f' then c.toNat - 'a'.toNat + 10
    else if 'A' ≤ c ∧ c ≤ 'F' then c.toNat - 'A'.toNat + 10
    else base
  if d < base then some d else none

/-- The number that digits denote after the digits of `acc`. -/
def digitsFrom? (base : Nat) (acc : Nat) : List Char → Option Nat
  | [] => some acc
  | c :: cs => do digitsFrom? base (acc * base + (← digit? base c)) cs

/-- The number that a non-empty list of digits denotes. -/
def natural? (base : Nat) : List Char → Option Nat
  | [] => none
  | cs => digitsFrom? base 0 cs

/-- A non-empty list of digits after at most one sign. -/
def integer? (base : Nat) : List Char → Option Int
  | '+' :: cs => (natural? base cs).map Int.ofNat
  | '-' :: cs => (natural? base cs).map fun n => -(n : Int)
  | cs => (natural? base cs).map Int.ofNat

/-- A decimal exponent has to fit a signed 32-bit word. -/
def exponent? (cs : List Char) : Option Int :=
  (integer? 10 cs).filter fun e => -wordLimit ≤ e ∧ e < wordLimit

/-- What stands before and after the first character that satisfies `p`; `none` if there is no
such character. -/
def splitAt? (p : Char → Bool) : List Char → Option (List Char × List Char)
  | [] => none
  | c :: cs =>
    if p c then some ([], cs) else (splitAt? p cs).map fun (before, after) => (c :: before, after)

/-- `n · 10 ^ shift`. -/
def scaled (n : Int) : (shift : Int) → Rat
  | .ofNat k => ((n * Int.pow 10 k : Int) : Rat)
  | .negSucc k => mkRat n (Nat.pow 10 (k + 1))

/-- Integer digits, optional fraction, optional exponent. -/
def decimal? (cs : List Char) : Option Rat := do
  let (mantissa, exponent) ←
    match splitAt? (fun c => c = 'e' || c = 'E') cs with
    | some (before, after) => (exponent? after).map fun e => (before, e)
    | none => some (cs, 0)
  let (whole, fraction) := (splitAt? (· = '.') mantissa).getD (mantissa, [])
  let n ← integer? 10 (whole ++ fraction)
  let shift := exponent - fraction.length
  if fraction.length < wordLimit ∧ shift.natAbs ≤ maxShift then some (scaled n shift) else none

/-- The exact value of a numeral; `none` for a malformed one and for one whose decimal shift is
out of range. -/
def value? (text : String) : Option Rat :=
  match text.toList.filter (· ≠ '_') with
  | '0' :: 'x' :: cs => (integer? 16 cs).map fun n => (n : Rat)
  | '0' :: 'X' :: cs => (integer? 16 cs).map fun n => (n : Rat)
  | cs => decimal? cs

/-- The written form of a rational: lowest terms, no denominator for an integer. -/
def ratText (q : Rat) : String :=
  if q.den = 1 then toString q.num else toString q.num ++ "/" ++ toString q.den

end PredicateStrength.Numeral
