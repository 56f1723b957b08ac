import Mathlib
import PredicateStrength.Numeral

/-!
# The value of whole numerals

Digits denote the number that they spell in base ten, and an exponent behind them multiplies it by
that power of ten, as long as the power is evaluated at all.
-/
namespace PredicateStrength.Numeral

/-- The text is a non-empty row of decimal digits. -/
def isDigits (text : String) : Bool := !text.toList.isEmpty && text.toList.all Char.isDigit

/-- The number that the digits spell. -/
def amount (digits : String) : Nat := Nat.ofDigitChars 10 digits.toList 0

variable {cs : List Char} {digits power : String}

theorem digit?_of_isDigit {c : Char} (h : c.isDigit = true) :
    digit? 10 c = some (c.toNat - '0'.toNat) := by
  have bound : c.toNat - '0'.toNat < 10 := by
    simp only [Char.isDigit, Bool.and_eq_true, decide_eq_true_eq, ge_iff_le,
      UInt32.le_iff_toNat_le] at h
    have upper : c.toNat ≤ 57 := h.2
    have zero : '0'.toNat = 48 := rfl
    omega
  simp only [digit?, h, if_true, if_pos bound]

theorem digitsFrom?_of_digits (h : ∀ c ∈ cs, c.isDigit = true) (acc : Nat) :
    digitsFrom? 10 acc cs = some (Nat.ofDigitChars 10 cs acc) := by
  induction cs generalizing acc with
  | nil => rfl
  | cons c cs ih =>
    obtain ⟨here, later⟩ := List.forall_mem_cons.1 h
    rw [digitsFrom?, digit?_of_isDigit here, Option.bind_eq_bind, Option.bind_some, ih later,
      Nat.ofDigitChars_cons, Nat.mul_comm acc]

theorem isDigits_iff : isDigits digits = true ↔
    digits.toList ≠ [] ∧ ∀ c ∈ digits.toList, c.isDigit = true := by
  simp [isDigits]

theorem integer?_of_isDigits (h : isDigits digits = true) :
    integer? 10 digits.toList = some (amount digits : Int) := by
  obtain ⟨filled, all⟩ := isDigits_iff.1 h
  have natural : natural? 10 digits.toList = some (amount digits) := by
    unfold natural?
    split
    · next empty => exact absurd empty filled
    · exact digitsFrom?_of_digits all 0
  unfold integer?
  split
  · next front => exact absurd (all '+' (by simp [front])) (by decide)
  · next front => exact absurd (all '-' (by simp [front])) (by decide)
  · rw [natural]
    rfl

theorem splitAt?_of_forall {p : Char → Bool} (h : ∀ c ∈ cs, p c = false) :
    splitAt? p cs = none := by
  induction cs with
  | nil => rfl
  | cons c cs ih =>
    obtain ⟨here, later⟩ := List.forall_mem_cons.1 h
    rw [splitAt?, here, if_neg Bool.false_ne_true, ih later]
    rfl

theorem splitAt?_append {p : Char → Bool} (h : ∀ c ∈ cs, p c = false) {m : Char} (mark : p m = true)
    (rest : List Char) : splitAt? p (cs ++ m :: rest) = some (cs, rest) := by
  induction cs with
  | nil => simp [splitAt?, mark]
  | cons c cs ih =>
    obtain ⟨here, later⟩ := List.forall_mem_cons.1 h
    rw [List.cons_append, splitAt?, here, if_neg Bool.false_ne_true, ih later]
    rfl

/-- A digit is none of the characters that divide a numeral. -/
theorem ne_of_isDigit {c d : Char} (h : c.isDigit = true) (other : d.isDigit = false) : c ≠ d := by
  rintro rfl
  rw [h] at other
  cases other

/-- Numerals that start with a digit and have no mark of base sixteen are decimal. -/
theorem value?_eq_decimal? (h : isDigits digits = true) {rest : String}
    (plain : ∀ c ∈ rest.toList, c ≠ '_' ∧ c ≠ 'x' ∧ c ≠ 'X') :
    value? (digits ++ rest) = decimal? (digits.toList ++ rest.toList) := by
  obtain ⟨-, all⟩ := isDigits_iff.1 h
  have chars : ∀ c ∈ digits.toList ++ rest.toList, c ≠ '_' ∧ c ≠ 'x' ∧ c ≠ 'X' := by
    intro c mem
    rcases List.mem_append.1 mem with digit | other
    · exact ⟨ne_of_isDigit (all c digit) (by decide), ne_of_isDigit (all c digit) (by decide),
        ne_of_isDigit (all c digit) (by decide)⟩
    · exact plain c other
  have kept : (digits ++ rest).toList.filter (· ≠ '_') = digits.toList ++ rest.toList := by
    rw [String.toList_append, List.filter_eq_self]
    exact fun c mem => decide_eq_true (chars c mem).1
  unfold value?
  rw [kept]
  split
  · next front => exact absurd rfl (chars 'x' (by simp [front])).2.1
  · next front => exact absurd rfl (chars 'X' (by simp [front])).2.2
  · rfl

theorem scaled_ofNat (n k : Nat) : scaled n k = ((n * 10 ^ k : Nat) : Rat) := by
  change (((n : Int) * (10 : Int) ^ k : Int) : Rat) = _
  push_cast
  rfl

/-- The digits before the exponent have no fraction. -/
theorem splitAt?_point (h : isDigits digits = true) :
    splitAt? (· = '.') digits.toList = none :=
  splitAt?_of_forall fun c mem =>
    decide_eq_false (ne_of_isDigit ((isDigits_iff.1 h).2 c mem) (by decide))

theorem not_exponent_of_isDigits (h : isDigits digits = true) :
    ∀ c ∈ digits.toList, (decide (c = 'e') || decide (c = 'E')) = false := fun c mem => by
  have digit := (isDigits_iff.1 h).2 c mem
  simp [ne_of_isDigit digit (d := 'e') (by decide), ne_of_isDigit digit (d := 'E') (by decide)]

theorem value?_of_isDigits (h : isDigits digits = true) :
    value? digits = some (amount digits : Rat) := by
  have decimal : value? digits = decimal? digits.toList := by
    simpa using value?_eq_decimal? h (show ∀ c ∈ "".toList, _ by simp)
  rw [decimal]
  unfold decimal?
  simp only [splitAt?_of_forall (not_exponent_of_isDigits h), splitAt?_point h, bind,
    Option.bind_some, Option.getD_none, List.append_nil, integer?_of_isDigits h]
  have whole := scaled_ofNat (amount digits) 0
  simpa [maxShift, wordLimit] using whole

theorem exponent?_of_isDigits (h : isDigits power = true) (small : amount power ≤ maxShift) :
    exponent? power.toList = some (amount power : Int) := by
  have word : -(wordLimit : Int) ≤ amount power ∧ (amount power : Int) < wordLimit := by
    have limit : maxShift < wordLimit := by decide
    omega
  rw [exponent?, integer?_of_isDigits h, Option.filter_some, if_pos (decide_eq_true word)]

/-- An exponent within the limit of decimal shifts multiplies by its power of ten. -/
theorem value?_exponent (h : isDigits digits = true) (exponent : isDigits power = true)
    (small : amount power ≤ maxShift) :
    value? (digits ++ "e" ++ power) = some ((amount digits * 10 ^ amount power : Nat) : Rat) := by
  have plain : ∀ c ∈ ("e" ++ power).toList, c ≠ '_' ∧ c ≠ 'x' ∧ c ≠ 'X' := by
    intro c mem
    rw [String.toList_append, List.mem_append] at mem
    rcases mem with mark | digit
    · obtain rfl : c = 'e' := by simpa using mark
      decide
    · have digit := (isDigits_iff.1 exponent).2 c digit
      exact ⟨ne_of_isDigit digit (by decide), ne_of_isDigit digit (by decide),
        ne_of_isDigit digit (by decide)⟩
  rw [String.append_assoc, value?_eq_decimal? h plain, String.toList_append]
  unfold decimal?
  simp only [show "e".toList = ['e'] from rfl, List.cons_append, List.nil_append,
    splitAt?_append (not_exponent_of_isDigits h) (m := 'e') (by decide),
    exponent?_of_isDigits exponent small, splitAt?_point h, bind, Option.map_some,
    Option.bind_some, Option.getD_none, List.append_nil, integer?_of_isDigits h]
  simpa [small, wordLimit] using scaled_ofNat (amount digits) (amount power)

theorem isDigits_toString (n : Nat) : isDigits (toString n) = true := by
  rw [isDigits_iff, Nat.toString_eq_ofList_toDigits, String.toList_ofList]
  exact ⟨Nat.toDigits_ne_nil, fun c mem => Nat.isDigit_of_mem_toDigits (by decide) (by decide) mem⟩

theorem amount_toString (n : Nat) : amount (toString n) = n := by
  rw [amount, Nat.toString_eq_ofList_toDigits, String.toList_ofList]
  exact Nat.ofDigitChars_ten_toDigits

end PredicateStrength.Numeral
