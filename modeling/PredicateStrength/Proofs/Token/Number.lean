import Mathlib
import PredicateStrength.Proofs.Token.Splitting

/-!
# Written numbers and their values

A number is written in decimal, with a fraction and a power of ten if wanted, or in base sixteen
behind a mark, and `_` may stand behind any of its digits. Such a form denotes a rational number
whatever the program makes of it. A number token always has such a form, and what is evaluated is
the number that the form denotes. The one form that is a token and denotes nothing is a mark of
base sixteen with no digit behind it, only `_`.

Main statements: `Written.value?_text`, `exists_written`, `value?_of_number`.
-/
namespace PredicateStrength.Numeral

/-- The digits in the order of their amounts. -/
def digitList : List Char :=
  ['0', '1', '2', '3', '4', '5', '6', '7', '8', '9', 'a', 'b', 'c', 'd', 'e', 'f']

/-- The amount that a digit stands for. -/
def digit (c : Char) : Nat := digitList.idxOf c.toLower

/-- The number that digits spell in a base. -/
def spelled (base : Nat) (cs : List Char) : Nat := Nat.ofDigits base (cs.map digit).reverse

/-- The characters without the separators. -/
def plain (cs : List Char) : List Char := cs.filter (· ≠ '_')

/-- A row of decimal digits as it is written, a digit in front and `_` wherever wanted behind. -/
structure Row where
  chars : List Char
  parts : ∀ c ∈ chars, c.isDigit = true ∨ c = '_'
  starts : Token.startsWith Char.isDigit chars = true

/-- The digits in front of the power of ten: a whole number, a mixed one or a fraction alone. -/
inductive Mantissa
  | whole (r : Row)
  | mixed (r s : Row)
  | fraction (s : Row)

/-- A power of ten: its mark, a sign if wanted, and its digits. -/
structure Power where
  mark : Char
  sign : Option Char
  row : Row
  marks : mark = 'e' ∨ mark = 'E'
  signs : ∀ s ∈ sign, s = '+' ∨ s = '-'

/-- A number as it is written. -/
inductive Written
  | decimal (m : Mantissa) (p : Option Power)
  | hexadecimal (mark : Char) (row : List Char) (marks : mark = 'x' ∨ mark = 'X')
      (filled : row ≠ []) (parts : ∀ c ∈ row, Token.isHexPart c = true)

def Mantissa.chars : Mantissa → List Char
  | .whole r => r.chars
  | .mixed r s => r.chars ++ '.' :: s.chars
  | .fraction s => '.' :: s.chars

/-- The digits in front of the point. -/
def Mantissa.before : Mantissa → List Char
  | .whole r => plain r.chars
  | .mixed r _ => plain r.chars
  | .fraction _ => []

/-- The digits behind the point. -/
def Mantissa.behind : Mantissa → List Char
  | .whole _ => []
  | .mixed _ s => plain s.chars
  | .fraction s => plain s.chars

def Power.chars (p : Power) : List Char := p.mark :: (p.sign.toList ++ p.row.chars)

def powerChars : Option Power → List Char
  | none => []
  | some p => p.chars

def powerValue : Option Power → Int
  | none => 0
  | some p =>
    if p.sign = some '-' then -(spelled 10 (plain p.row.chars) : Int)
    else spelled 10 (plain p.row.chars)

namespace Written

/-- The lexeme that is written. -/
def text : Written → String
  | .decimal m p => String.ofList (m.chars ++ powerChars p)
  | .hexadecimal mark row .. => String.ofList ('0' :: mark :: row)

/-- The number that is denoted. -/
def value : Written → ℚ
  | .decimal m p =>
    (spelled 10 m.before + spelled 10 m.behind / 10 ^ m.behind.length) * 10 ^ powerValue p
  | .hexadecimal _ row .. => spelled 16 (plain row)

/-- The exponent fits its word, and so does the count of fraction digits; the decimal shift that
they come to together is within the limit. -/
def InRange : Written → Prop
  | .decimal m p => -(2 ^ 31) ≤ powerValue p ∧ powerValue p < 2 ^ 31 ∧
      m.behind.length < 2 ^ 31 ∧ |powerValue p - m.behind.length| ≤ 4096
  | .hexadecimal .. => True

/-- Something is denoted: a digit is among the characters. -/
def HasDigit : Written → Prop
  | .decimal .. => True
  | .hexadecimal _ row .. => ∃ c ∈ row, c ≠ '_'

end Written

variable {c : Char} {cs ds : List Char} {base : Nat}

theorem mem_of_isHexDigit (h : Token.isHexDigit c = true) :
    c ∈ digitList ++ ['A', 'B', 'C', 'D', 'E', 'F'] := by
  have range : 48 ≤ c.toNat ∧ c.toNat ≤ 57 ∨ 97 ≤ c.toNat ∧ c.toNat ≤ 102 ∨
      65 ≤ c.toNat ∧ c.toNat ≤ 70 := by
    simpa [Token.isHexDigit, Char.isDigit, Char.le_def, UInt32.le_iff_toNat_le, or_assoc] using h
  have same : c = Char.ofNat c.toNat := c.ofNat_toNat.symm
  generalize c.toNat = n at same range
  subst same
  rcases range with ⟨low, high⟩ | ⟨low, high⟩ | ⟨low, high⟩ <;> interval_cases n <;> decide

theorem digit?_sixteen (h : Token.isHexDigit c = true) : digit? 16 c = some (digit c) := by
  have mem := mem_of_isHexDigit h
  fin_cases mem <;> decide

theorem digit?_ten (h : c.isDigit = true) : digit? 10 c = some (digit c) := by
  have mem := mem_of_isHexDigit (show Token.isHexDigit c = true by simp [Token.isHexDigit, h])
  revert h
  fin_cases mem <;> decide

theorem digitsFrom?_spelled (h : ∀ c ∈ cs, digit? base c = some (digit c)) (acc : Nat) :
    digitsFrom? base acc cs = some (acc * base ^ cs.length + spelled base cs) := by
  induction cs generalizing acc with
  | nil => simp [digitsFrom?, spelled]
  | cons c cs ih =>
    obtain ⟨here, later⟩ := List.forall_mem_cons.1 h
    rw [digitsFrom?, here, Option.bind_eq_bind, Option.bind_some, ih later]
    simp only [spelled, List.map_cons, List.reverse_cons, Nat.ofDigits_append,
      Nat.ofDigits_singleton, List.length_reverse, List.length_map, List.length_cons]
    congr 1
    ring

theorem natural?_spelled (h : ∀ c ∈ cs, digit? base c = some (digit c)) (filled : cs ≠ []) :
    natural? base cs = some (spelled base cs) := by
  unfold natural?
  split
  · exact absurd rfl filled
  · rw [digitsFrom?_spelled h, Nat.zero_mul, Nat.zero_add]

/-- Digits with no sign in front. -/
theorem integer?_spelled (h : ∀ c ∈ cs, digit? base c = some (digit c)) (filled : cs ≠ [])
    (unsigned : '+' ∉ cs ∧ '-' ∉ cs) : integer? base cs = some (spelled base cs : Int) := by
  unfold integer?
  split
  · exact absurd List.mem_cons_self unsigned.1
  · exact absurd List.mem_cons_self unsigned.2
  · rw [natural?_spelled h filled]
    rfl

theorem spelled_append (cs ds : List Char) :
    spelled base (cs ++ ds) = spelled base cs * base ^ ds.length + spelled base ds := by
  rw [spelled, List.map_append, List.reverse_append, Nat.ofDigits_append, List.length_reverse,
    List.length_map, spelled, spelled]
  ring

theorem Row.isDigit_of_mem (r : Row) (mem : c ∈ plain r.chars) : c.isDigit = true := by
  obtain ⟨there, other⟩ := List.mem_filter.1 mem
  exact (r.parts c there).resolve_right (of_decide_eq_true other)

theorem Row.plain_ne_nil (r : Row) : plain r.chars ≠ [] := by
  obtain ⟨chars, parts, starts⟩ := r
  cases chars with
  | nil => cases starts
  | cons c cs =>
    have digit : c.isDigit = true := starts
    have kept : c ≠ '_' := ne_of_isDigit digit (by decide)
    simp [plain, kept]

theorem integer?_ten (digits : ∀ c ∈ cs, c.isDigit = true) (filled : cs ≠ []) :
    integer? 10 cs = some (spelled 10 cs : Int) :=
  integer?_spelled (fun c mem => digit?_ten (digits c mem)) filled
    ⟨fun mem => absurd (digits _ mem) (by decide), fun mem => absurd (digits _ mem) (by decide)⟩

theorem Power.integer?_plain (p : Power) :
    integer? 10 (p.sign.toList ++ plain p.row.chars) = some (powerValue (some p)) := by
  have natural := natural?_spelled (fun c mem => digit?_ten (p.row.isDigit_of_mem mem))
    p.row.plain_ne_nil
  cases signed : p.sign with
  | none =>
    rw [powerValue, signed]
    exact integer?_ten (fun c mem => p.row.isDigit_of_mem mem) p.row.plain_ne_nil
  | some s =>
    rw [powerValue, signed]
    rcases p.signs s signed with rfl | rfl
    · simp [integer?, natural]
    · simp [integer?, natural]

theorem Power.plain_chars (p : Power) :
    plain p.chars = p.mark :: (p.sign.toList ++ plain p.row.chars) := by
  have mark : p.mark ≠ '_' := by
    rcases p.marks with same | same <;> rw [same] <;> decide
  have sign : plain p.sign.toList = p.sign.toList := by
    refine List.filter_eq_self.2 fun s mem => ?_
    rcases p.signs s (Option.mem_toList.1 mem) with rfl | rfl <;> decide
  rw [Power.chars, plain, List.filter_cons_of_pos (by simpa using mark), List.filter_append]
  change p.mark :: (plain p.sign.toList ++ plain p.row.chars) = _
  rw [sign]

namespace Mantissa

variable (m : Mantissa)

/-- Around the point stand the digits before and behind it. -/
theorem splitAt?_plain :
    (splitAt? (· = '.') (plain m.chars)).getD (plain m.chars, []) = (m.before, m.behind) := by
  have unpointed (r : Row) : ∀ c ∈ plain r.chars, decide (c = '.') = false := fun c mem =>
    decide_eq_false (ne_of_isDigit (r.isDigit_of_mem mem) (by decide))
  cases m with
  | whole r =>
    rw [chars, splitAt?_of_forall (unpointed r)]
    rfl
  | mixed r s =>
    have front : plain (Mantissa.mixed r s).chars = plain r.chars ++ '.' :: plain s.chars := by
      simp [plain, chars]
    rw [front, splitAt?_append (unpointed r) (by decide)]
    rfl
  | fraction s => rfl

theorem isDigit_of_mem (mem : c ∈ m.before ++ m.behind) : c.isDigit = true := by
  cases m with
  | whole r => exact r.isDigit_of_mem (by simpa [before, behind] using mem)
  | mixed r s =>
    rcases List.mem_append.1 mem with front | back
    · exact r.isDigit_of_mem front
    · exact s.isDigit_of_mem back
  | fraction s => exact s.isDigit_of_mem mem

theorem digits_ne_nil : m.before ++ m.behind ≠ [] := by
  cases m with
  | whole r => exact fun empty => r.plain_ne_nil (List.append_eq_nil_iff.1 empty).1
  | mixed r s => exact fun empty => r.plain_ne_nil (List.append_eq_nil_iff.1 empty).1
  | fraction s => exact s.plain_ne_nil

theorem mem_plain_chars (mem : c ∈ plain m.chars) : c.isDigit = true ∨ c = '.' := by
  cases m with
  | whole r => exact .inl (r.isDigit_of_mem mem)
  | mixed r s =>
    rw [chars, plain, List.filter_append] at mem
    rcases List.mem_append.1 mem with front | back
    · exact .inl (r.isDigit_of_mem front)
    · rcases List.mem_cons.1 back with rfl | behind
      · exact .inr rfl
      · exact .inl (s.isDigit_of_mem behind)
  | fraction s =>
    rcases List.mem_cons.1 mem with rfl | behind
    · exact .inr rfl
    · exact .inl (s.isDigit_of_mem behind)

end Mantissa

theorem scaled_eq (n shift : Int) : scaled n shift = n * (10 : ℚ) ^ shift := by
  cases shift with
  | ofNat k =>
    change (((n : Int) * (10 : Int) ^ k : Int) : ℚ) = n * (10 : ℚ) ^ (k : Int)
    rw [zpow_natCast]
    push_cast
    rfl
  | negSucc k =>
    change mkRat n (10 ^ (k + 1)) = _
    rw [Rat.mkRat_eq_div, zpow_negSucc, div_eq_mul_inv]
    push_cast
    rfl

/-- The digits as one whole number, moved by the fraction's length, are whole part and fraction. -/
theorem scaled_digits (m : Mantissa) (e : Int) :
    scaled (spelled 10 (m.before ++ m.behind)) (e - m.behind.length) =
      (spelled 10 m.before + spelled 10 m.behind / 10 ^ m.behind.length) * 10 ^ e := by
  have ten : (10 : ℚ) ≠ 0 := by norm_num
  rw [scaled_eq, spelled_append, zpow_sub₀ ten, zpow_natCast]
  push_cast
  field_simp

theorem plain_append (cs ds : List Char) : plain (cs ++ ds) = plain cs ++ plain ds :=
  List.filter_append ..

theorem decimal?_of_written (m : Mantissa) (p : Option Power) :
    decimal? (plain (m.chars ++ powerChars p)) =
      if (-(wordLimit : Int) ≤ powerValue p ∧ powerValue p < wordLimit) ∧
        m.behind.length < wordLimit ∧ (powerValue p - m.behind.length).natAbs ≤ maxShift
      then some (scaled (spelled 10 (m.before ++ m.behind)) (powerValue p - m.behind.length))
      else none := by
  have unmarked : ∀ c ∈ plain m.chars, (decide (c = 'e') || decide (c = 'E')) = false := by
    intro c mem
    rcases m.mem_plain_chars mem with digit | rfl
    · simp [ne_of_isDigit digit (d := 'e') (by decide), ne_of_isDigit digit (d := 'E') (by decide)]
    · rfl
  have digits := integer?_ten (fun c mem => m.isDigit_of_mem mem) m.digits_ne_nil
  rw [plain_append]
  unfold decimal?
  cases p with
  | none =>
    have word : -(wordLimit : Int) ≤ 0 ∧ (0 : Int) < wordLimit := by decide
    simp only [powerChars, show plain [] = [] from rfl, List.append_nil,
      splitAt?_of_forall unmarked, bind, Option.bind_some, m.splitAt?_plain, digits, powerValue,
      word, true_and, and_self]
  | some p =>
    have mark : (decide (p.mark = 'e') || decide (p.mark = 'E')) = true := by
      simpa using p.marks
    simp only [powerChars, p.plain_chars, splitAt?_append unmarked mark, exponent?,
      p.integer?_plain, Option.filter_some]
    by_cases fits : -(wordLimit : Int) ≤ powerValue (some p) ∧ powerValue (some p) < wordLimit
    · simp only [fits, and_self, decide_true, if_true, bind, Option.map_some, Option.bind_some,
        m.splitAt?_plain, digits, true_and]
    · simp only [fits, decide_false, Bool.false_eq_true, if_false, false_and]
      rfl

theorem value?_decimal (m : Mantissa) (p : Option Power) :
    value? (Written.decimal m p).text = decimal? (plain (m.chars ++ powerChars p)) := by
  have known : ∀ c ∈ plain (m.chars ++ powerChars p), c ≠ 'x' ∧ c ≠ 'X' := by
    intro c mem
    rw [plain_append] at mem
    have ordinary (digit : c.isDigit = true) : c ≠ 'x' ∧ c ≠ 'X' :=
      ⟨ne_of_isDigit digit (by decide), ne_of_isDigit digit (by decide)⟩
    rcases List.mem_append.1 mem with front | back
    · rcases m.mem_plain_chars front with digit | rfl
      · exact ordinary digit
      · decide
    · cases p with
      | none => cases back
      | some p =>
        rw [powerChars, p.plain_chars] at back
        rcases List.mem_cons.1 back with rfl | back
        · rcases p.marks with same | same <;> rw [same] <;> decide
        rcases List.mem_append.1 back with sign | digit
        · rcases p.signs c (Option.mem_toList.1 sign) with rfl | rfl <;> decide
        · exact ordinary (p.row.isDigit_of_mem digit)
  have kept : (m.chars ++ powerChars p).filter (· ≠ '_') = plain (m.chars ++ powerChars p) := rfl
  unfold value? Written.text
  rw [String.toList_ofList, kept]
  split
  · next front => exact absurd rfl (known 'x' (by simp [front])).1
  · next front => exact absurd rfl (known 'X' (by simp [front])).2
  · rfl

theorem value?_hexadecimal {mark : Char} {row : List Char} (marks : mark = 'x' ∨ mark = 'X')
    (filled : row ≠ []) (parts : ∀ c ∈ row, Token.isHexPart c = true) :
    value? (Written.hexadecimal mark row marks filled parts).text =
      (integer? 16 (plain row)).map fun n => (n : ℚ) := by
  unfold value? Written.text
  rw [String.toList_ofList]
  rcases marks with rfl | rfl <;> rfl

/-- A written number is evaluated to the number that it denotes, if it denotes one and is in
range. -/
theorem Written.value?_text (w : Written) :
    (w.HasDigit ∧ w.InRange → value? w.text = some w.value) ∧
      (¬(w.HasDigit ∧ w.InRange) → value? w.text = none) := by
  cases w with
  | decimal m p =>
    have range : (Written.decimal m p).HasDigit ∧ (Written.decimal m p).InRange ↔
        (-(wordLimit : Int) ≤ powerValue p ∧ powerValue p < wordLimit) ∧
          m.behind.length < wordLimit ∧ (powerValue p - m.behind.length).natAbs ≤ maxShift := by
      have limit : (wordLimit : Int) = 2 ^ 31 := by decide
      simp only [HasDigit, InRange, maxShift, Int.abs_eq_natAbs, true_and]
      omega
    rw [value?_decimal, decimal?_of_written, range]
    constructor
    · intro within
      rw [if_pos within, scaled_digits]
      rfl
    · intro without
      rw [if_neg without]
  | hexadecimal mark row marks filled parts =>
    have hex : ∀ c ∈ plain row, Token.isHexDigit c = true := by
      intro c mem
      obtain ⟨there, other⟩ := List.mem_filter.1 mem
      exact (Bool.or_eq_true _ _ ▸ parts c there).resolve_right (by simpa using other)
    have some_digit : (Written.hexadecimal mark row marks filled parts).HasDigit ↔ plain row ≠ [] := by
      simp [HasDigit, plain]
    rw [value?_hexadecimal, some_digit]
    constructor
    · rintro ⟨digits, -⟩
      have unsigned : '+' ∉ plain row ∧ '-' ∉ plain row :=
        ⟨fun mem => absurd (hex _ mem) (by decide), fun mem => absurd (hex _ mem) (by decide)⟩
      rw [integer?_spelled (fun c mem => digit?_sixteen (hex c mem)) digits unsigned]
      rfl
    · intro without
      have none : plain row = [] := by
        by_contra digits
        exact without ⟨digits, trivial⟩
      rw [none]
      rfl

def pointChars : Option Row → List Char
  | none => []
  | some s => '.' :: s.chars

theorem not_startsWith_powerChars (p : Option Power) :
    Token.startsWith Char.isDigit (powerChars p) = false := by
  cases p with
  | none => rfl
  | some p => rcases p.marks with same | same <;> simp [powerChars, Power.chars,
      Token.startsWith, same]

/-- Digits that a power of ten stands behind. -/
theorem exists_row {p : Option Power} (parts : ∀ c ∈ ds, c.isDigit = true ∨ c = '_')
    (starts : Token.startsWith Char.isDigit (ds ++ powerChars p) = true) :
    ∃ r : Row, r.chars = ds := by
  cases ds with
  | nil =>
    rw [List.nil_append, not_startsWith_powerChars] at starts
    cases starts
  | cons d ds => exact ⟨⟨d :: ds, parts, starts⟩, rfl⟩

/-- What a decimal number goes on with: more digits, a point with digits unless there was a point
or a power, and a power unless there was one. -/
theorem exists_of_scanDecimal {point exponent : Bool}
    (whole : (Token.scanDecimal point exponent cs).rest = [])
    (formed : (Token.scanDecimal point exponent cs).wellFormed = true) :
    ∃ ds s p, cs = ds ++ (pointChars s ++ powerChars p) ∧
      (∀ c ∈ ds, c.isDigit = true ∨ c = '_') ∧
      (point = true ∨ exponent = true → s = none) ∧ (exponent = true → p = none) := by
  fun_induction Token.scanDecimal point exponent cs with
  | case1 => exact ⟨[], none, none, rfl, by simp, fun _ => rfl, fun _ => rfl⟩
  | case2 point exponent c cs digit ih =>
    obtain ⟨ds, s, p, rfl, parts, rest⟩ := ih whole formed
    refine ⟨c :: ds, s, p, rfl, List.forall_mem_cons.2 ⟨?_, parts⟩, rest⟩
    simpa using digit
  | case3 point exponent c cs digit dot fraction ih =>
    obtain ⟨ds, s, p, rfl, parts, none, power⟩ := ih whole formed
    obtain rfl := none (.inl rfl)
    obtain ⟨r, rfl⟩ := exists_row parts fraction
    obtain ⟨⟨rfl, first⟩, early⟩ : (c = '.' ∧ point = false) ∧ exponent = false := by
      simpa using dot
    refine ⟨[], some r, p, rfl, by simp, ?_, power⟩
    simp [first, early]
  | case4 => cases formed
  | case5 point exponent c cs digit dot mark ih =>
    obtain ⟨marks, early⟩ : (c = 'e' ∨ c = 'E') ∧ exponent = false := by simpa using mark
    cases cs with
    | nil => cases formed
    | cons d cs =>
      obtain ⟨afterSign, unsigned⟩ := ih
      simp only [Token.Scan.cons] at whole formed
      have power (sign : Option Char) (signs : ∀ s ∈ sign, s = '+' ∨ s = '-') (r : Row)
          (same : d :: cs = sign.toList ++ r.chars) : ∃ ds s p,
          c :: d :: cs = ds ++ (pointChars s ++ powerChars p) ∧
          (∀ c ∈ ds, c.isDigit = true ∨ c = '_') ∧
          (point = true ∨ exponent = true → s = none) ∧ (exponent = true → p = none) := by
        refine ⟨[], none, some ⟨c, sign, r, marks, signs⟩, ?_, by simp, fun _ => rfl, ?_⟩
        · rw [same]
          rfl
        · simp [early]
      by_cases sign : (decide (d = '+') || decide (d = '-')) = true
      · by_cases started : Token.startsWith Char.isDigit cs = true
        · simp only [sign, started, if_true] at whole formed
          obtain ⟨ds, s, p, rfl, parts, none, last⟩ := afterSign whole formed
          obtain rfl := none (.inr rfl)
          obtain rfl := last rfl
          obtain ⟨r, rfl⟩ := exists_row (p := .none) parts started
          exact power (some d) (by simpa using sign) r (by simp [pointChars, powerChars])
        · simp [sign, started, Token.Scan.broken] at formed
      · by_cases started : d.isDigit = true
        · simp only [sign, started, if_true] at whole formed
          obtain ⟨ds, s, p, same, parts, none, last⟩ := unsigned whole formed
          obtain rfl := none (.inr rfl)
          obtain rfl := last rfl
          obtain ⟨r, rfl⟩ := exists_row (p := .none) parts (same ▸ started)
          exact power .none (by simp) r (by simpa [pointChars, powerChars] using same)
        · simp [sign, started, Token.Scan.broken] at formed
  | case6 => cases whole

theorem exists_hexadecimal (mark : Token.HasMark c cs)
    (whole : (Token.scanNumber c cs).rest = [])
    (formed : (Token.scanNumber c cs).wellFormed = true) :
    ∃ w : Written, w.text = String.ofList (c :: cs) := by
  obtain ⟨rfl, m, ds, marks, rfl⟩ := mark
  have plainly := Token.absorbWord_of_wellFormed formed
  have hex : (Token.scanHex ds).rest = [] ∧ (Token.scanHex ds).wellFormed = true := by
    unfold Token.scanNumber at whole formed
    rcases marks with rfl | rfl
    · rw [plainly] at whole formed
      exact ⟨whole, formed⟩
    · rw [plainly] at whole formed
      exact ⟨whole, formed⟩
  have filled : ds ≠ [] := by
    rintro rfl
    cases hex.2
  have parts : ∀ d ∈ ds, Token.isHexPart d = true := List.dropWhile_eq_nil_iff.1 hex.1
  exact ⟨.hexadecimal m ds marks filled parts, rfl⟩

theorem exists_decimal (start : Token.startsNumber c cs = true)
    (whole : (Token.scanDecimal (c = '.') false cs).rest = [])
    (formed : (Token.scanDecimal (c = '.') false cs).wellFormed = true) :
    ∃ w : Written, w.text = String.ofList (c :: cs) := by
  obtain ⟨ds, s, p, rfl, parts, none, -⟩ := exists_of_scanDecimal whole formed
  by_cases digit : c.isDigit = true
  · obtain ⟨r, row⟩ : ∃ r : Row, r.chars = c :: ds :=
      ⟨⟨c :: ds, List.forall_mem_cons.2 ⟨.inl digit, parts⟩, digit⟩, rfl⟩
    cases s with
    | none =>
      refine ⟨.decimal (.whole r) p, ?_⟩
      rw [Written.text, Mantissa.chars, row]
      rfl
    | some s =>
      refine ⟨.decimal (.mixed r s) p, ?_⟩
      rw [Written.text, Mantissa.chars, row, List.append_assoc]
      rfl
  · -- without a digit in front there is a point, and no second one behind it
    obtain ⟨rfl, fraction⟩ : c = '.' ∧
        Token.startsWith Char.isDigit (ds ++ (pointChars s ++ powerChars p)) = true := by
      simpa [Token.startsNumber, digit] using start
    obtain rfl := none (.inl rfl)
    obtain ⟨r, rfl⟩ := exists_row parts fraction
    exact ⟨.decimal (.fraction r) p, rfl⟩

/-- A number token is a written number. -/
theorem exists_written {text : String} (word : Token.isWhole .number text = true) :
    ∃ w : Written, w.text = text := by
  obtain ⟨c, cs, chars, ⟨kind, -⟩ | ⟨-, start, whole, formed⟩⟩ :=
    Token.isWhole_cases word (.inr rfl)
  · cases kind
  have same : text = String.ofList (c :: cs) := by
    rw [← chars, String.ofList_toList]
  rw [same]
  by_cases mark : Token.HasMark c cs
  · exact exists_hexadecimal mark whole formed
  · rw [Token.scanNumber_of_not_hasMark mark] at whole formed
    rw [Token.absorbWord_of_wellFormed formed] at whole formed
    exact exists_decimal start whole formed

/-- Every number token is a written number, and however it is taken for one, its value is the
number denoted: a number out of range has none, and neither has a mark of base sixteen without a
digit. -/
theorem value?_of_number {text : String} {ts : List Token} (h : Token.ofText text = .ok ts)
    {t : Token} (mem : t ∈ ts) (number : t.kind = .number) :
    (∃ w : Written, w.text = t.lexeme) ∧ ∀ w : Written, w.text = t.lexeme →
      (w.HasDigit ∧ w.InRange → value? t.lexeme = some w.value) ∧
      (¬(w.HasDigit ∧ w.InRange) → value? t.lexeme = none) := by
  have word := Token.isWhole_of_mem_ofChars h mem
  rw [number] at word
  refine ⟨exists_written word, fun w same => ?_⟩
  rw [← same]
  exact w.value?_text

/-- Separators, point, sign and exponent in one number. -/
theorem value?_of_number_mixed :
    Token.ofText "x<1_0.2_5e+1" =
      .ok [⟨"x", .identifier, 0⟩, ⟨"<", .operator, 1⟩, ⟨"1_0.2_5e+1", .number, 2⟩] ∧
    (∃ w : Written, w.text = "1_0.2_5e+1") ∧ ∀ w : Written, w.text = "1_0.2_5e+1" →
      (w.HasDigit ∧ w.InRange → value? "1_0.2_5e+1" = some w.value) ∧
      (¬(w.HasDigit ∧ w.InRange) → value? "1_0.2_5e+1" = none) := by
  have tokens : Token.ofText "x<1_0.2_5e+1" =
      .ok [⟨"x", .identifier, 0⟩, ⟨"<", .operator, 1⟩, ⟨"1_0.2_5e+1", .number, 2⟩] := by cbv
  exact ⟨tokens, value?_of_number tokens (t := ⟨"1_0.2_5e+1", .number, 2⟩) (by simp) rfl⟩

/-- A mark of base sixteen with `_` alone behind it is a number token without a value. -/
theorem value?_blank_hexadecimal :
    Token.ofText "0x_" = .ok [⟨"0x_", .number, 0⟩] ∧ value? "0x_" = none ∧
      ∃ w : Written, w.text = "0x_" ∧ w.InRange := by
  have parts : ∀ c ∈ ['_'], Token.isHexPart c = true := by simp [Token.isHexPart]
  have filled : ['_'] ≠ [] := List.cons_ne_nil _ _
  exact ⟨by cbv, by cbv, .hexadecimal 'x' ['_'] (.inl rfl) filled parts, rfl, trivial⟩

end PredicateStrength.Numeral
