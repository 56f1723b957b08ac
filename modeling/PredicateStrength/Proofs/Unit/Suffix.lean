import Mathlib
import PredicateStrength.Proofs.Numeral
import PredicateStrength.Proofs.Substitution
import PredicateStrength.Proofs.Token.Lexing

/-!
# Unit suffixes

The units that a whole number may carry, what the table of surface substitutions writes for them,
and the numerals that come out of it. Wei and seconds vanish, gwei and ether become an exponent of
the same numeral; the longer units of time become a second numeral, by which the first one is to be
multiplied.
-/
namespace PredicateStrength

/-- A unit that may stand behind a whole number. -/
inductive UnitSuffix where
  | ether
  | gwei
  | wei
  | seconds
  | minutes
  | hours
  | days
  | weeks
deriving DecidableEq

namespace UnitSuffix

/-- Every unit, in the order of the table. -/
def all : List UnitSuffix := [.ether, .gwei, .wei, .seconds, .minutes, .hours, .days, .weeks]

theorem mem_all (u : UnitSuffix) : u ∈ all := by cases u <;> decide

def word : UnitSuffix → String
  | .ether => "ether"
  | .gwei => "gwei"
  | .wei => "wei"
  | .seconds => "seconds"
  | .minutes => "minutes"
  | .hours => "hours"
  | .days => "days"
  | .weeks => "weeks"

/-- How many of the smallest unit it is. -/
def scale : UnitSuffix → Nat
  | .ether => 10 ^ 18
  | .gwei => 10 ^ 9
  | .wei => 1
  | .seconds => 1
  | .minutes => 60
  | .hours => 3600
  | .days => 86400
  | .weeks => 604800

/-- The numeral that is written behind the number, if it stays a numeral of its own. -/
def factor? : UnitSuffix → Option String
  | .minutes => some "60"
  | .hours => some "3600"
  | .days => some "86400"
  | .weeks => some "604800"
  | _ => none

/-- The power of ten that is written onto the number. -/
def power? : UnitSuffix → Option String
  | .ether => some "18"
  | .gwei => some "9"
  | _ => none

/-- What is written in place of the unit and the space before it. -/
def replacement (u : UnitSuffix) : String :=
  match u.factor?, u.power? with
  | some factor, _ => " * " ++ factor
  | none, some power => "e" ++ power
  | none, none => ""

theorem word_injective {u v : UnitSuffix} (h : u.word = v.word) : u = v := by
  revert h; cases u <;> cases v <;> simp [word]

end UnitSuffix

/-- The table replaces `now` and then the units one after another. -/
theorem Substitution.entries_solidity : solidity.entries =
    ("now", "block.timestamp") :: UnitSuffix.all.map fun u => (" " ++ u.word, u.replacement) := by
  decide

/-- The words that the table looks for. -/
def Substitution.keywords : List String := "now" :: UnitSuffix.all.map UnitSuffix.word

theorem UnitSuffix.word_letters (u : UnitSuffix) :
    u.word.toList ≠ [] ∧ ∀ c ∈ u.word.toList, c.isAlpha = true := by
  rw [← List.all_eq_true]
  cases u <;> exact ⟨by decide, rfl⟩

theorem Substitution.keyword_letters {word : String} (h : word ∈ keywords) :
    word.toList ≠ [] ∧ ∀ c ∈ word.toList, c.isAlpha = true := by
  rcases List.mem_cons.1 h with rfl | unit
  · rw [← List.all_eq_true]
    exact ⟨by decide, rfl⟩
  · obtain ⟨u, -, rfl⟩ := List.mem_map.1 unit
    exact u.word_letters

namespace UnitSuffix

theorem word_mem_keywords (u : UnitSuffix) : u.word ∈ Substitution.keywords :=
  List.mem_cons_of_mem _ (List.mem_map_of_mem u.mem_all)

/-- A factor is the number of smallest units. -/
theorem factor?_spec {u : UnitSuffix} {factor : String} (h : u.factor? = some factor) :
    Numeral.isDigits factor = true ∧ Numeral.amount factor = u.scale := by
  cases u <;> simp only [factor?, reduceCtorEq, Option.some.injEq] at h
  all_goals
    subst h
    exact ⟨by decide, by decide⟩

theorem power?_spec {u : UnitSuffix} {power : String} (h : u.power? = some power) :
    Numeral.isDigits power = true ∧ Numeral.amount power ≤ Numeral.maxShift ∧
      u.scale = 10 ^ Numeral.amount power := by
  cases u <;> simp only [power?, reduceCtorEq, Option.some.injEq] at h
  all_goals
    subst h
    exact ⟨by decide, by decide, by decide⟩

theorem scale_of_none {u : UnitSuffix} (factor : u.factor? = none) (power : u.power? = none) :
    u.scale = 1 := by
  cases u <;> simp_all [factor?, power?, scale]

/-- The digits and the unit of a numeral that carries one. -/
def quantity? (leaf : String) : Option (String × UnitSuffix) :=
  let digits := String.ofList (leaf.toList.takeWhile Char.isDigit)
  if Numeral.isDigits digits then
    (all.find? fun u => leaf.toList.dropWhile Char.isDigit = ' ' :: u.word.toList).map
      fun u => (digits, u)
  else none

theorem quantity?_eq_some {leaf digits : String} {u : UnitSuffix}
    (h : quantity? leaf = some (digits, u)) :
    leaf = digits ++ " " ++ u.word ∧ Numeral.isDigits digits = true := by
  simp only [quantity?, Option.ite_none_right_eq_some, Option.map_eq_some_iff, Prod.mk.injEq] at h
  obtain ⟨valid, v, found, rfl, rfl⟩ := h
  have rest : leaf.toList.dropWhile Char.isDigit = ' ' :: v.word.toList := by
    simpa using List.find?_some found
  refine ⟨String.toList_inj.1 ?_, valid⟩
  rw [String.toList_append, String.toList_append, String.toList_ofList, List.append_assoc]
  exact (List.takeWhile_append_dropWhile.symm.trans (by rw [rest]; rfl))

variable {digits : String} {u : UnitSuffix}

/-- Without a factor the numeral stays one numeral, which counts smallest units. -/
theorem value?_joined (valid : Numeral.isDigits digits = true) (single : u.factor? = none) :
    Numeral.value? (digits ++ u.replacement) = some ((Numeral.amount digits * u.scale : Nat) : Rat) ∧
      Token.isWhole .number (digits ++ u.replacement) = true := by
  cases power : u.power? with
  | none =>
    have nothing : u.replacement = "" := by simp [replacement, single, power]
    rw [nothing, String.append_empty, scale_of_none single power, Nat.mul_one]
    exact ⟨Numeral.value?_of_isDigits valid, Token.isWhole_of_isDigits valid⟩
  | some exponent =>
    obtain ⟨exponentDigits, small, scale⟩ := power?_spec power
    have joined : u.replacement = "e" ++ exponent := by simp [replacement, single, power]
    rw [joined, ← String.append_assoc, scale]
    exact ⟨Numeral.value?_exponent valid exponentDigits small,
      Token.isWhole_exponent valid exponentDigits⟩

end UnitSuffix
end PredicateStrength
