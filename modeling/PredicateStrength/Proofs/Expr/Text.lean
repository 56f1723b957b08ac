import Mathlib
import PredicateStrength.Expr.Printer
import PredicateStrength.Proofs.Token.Lexing

/-!
# The text of a tree

What the text of a tree says about its operands and members, whatever its names and numerals are:
how tightly an operand binds in its place, how many levels its text opens, and how the members
behind a tree join to one dotted name.
-/
namespace PredicateStrength

open Token
open PredicateStrength.Parser (members name splitDots)

namespace Expr

/-- The levels that an operand opens, its parentheses included. -/
def enclosedNesting (e : Expr) (parent : Nat) (tight : Bool) (inside : Nat) : Nat :=
  if e.needsParens parent tight then inside + 1 else inside

mutual
/-- How many levels of parentheses, brackets, arguments, signs and exponents are open at once. -/
def nesting : Expr → Nat
  | .ident _ | .num _ | .bool _ => 0
  | .not e => enclosedNesting e notPrecedence false (nesting e) + 1
  | .neg e => enclosedNesting e negPrecedence true (nesting e) + 1
  | .op o args => operandsNesting o true args
  | .call f args =>
    max (enclosedNesting f accessPrecedence false (nesting f)) (argumentsNesting args)
  | .index base key =>
    max (enclosedNesting base accessPrecedence false (nesting base)) (nesting key + 1)
  | .member base _ => enclosedNesting base accessPrecedence false (nesting base)

def operandsNesting (o : Operator) (isFirst : Bool) : List Expr → Nat
  | [] => 0
  | e :: es =>
    max (enclosedNesting e o.precedence (isTightPlace o isFirst) (nesting e) +
      if o = .pow && !isFirst then 1 else 0) (operandsNesting o false es)

def argumentsNesting : List Expr → Nat
  | [] => 0
  | e :: es => max (nesting e + 1) (argumentsNesting es)
end

end Expr

open PredicateStrength.Expr

variable {n : Nat} {e : Expr}

theorem Operator.precedence_le (o : Operator) : 1 ≤ o.precedence ∧ o.precedence ≤ 11 := by
  cases o <;> decide

/-- No operator binds as a sign does. -/
theorem Operator.precedence_ne (o : Operator) : o.precedence ≠ 10 := by
  cases o <;> decide

theorem precedence_le (e : Expr) : 1 ≤ e.precedence ∧ e.precedence ≤ 12 := by
  cases e with
  | op o =>
    obtain ⟨positive, bounded⟩ := o.precedence_le
    exact ⟨positive, Nat.le_succ_of_le bounded⟩
  | _ => simp [precedence, notPrecedence, negPrecedence, accessPrecedence]

theorem needsParens_op (o : Operator) (args : List Expr) :
    (Expr.op o args).needsParens accessPrecedence false = true := by
  have bounded : o.precedence < 12 := Nat.lt_succ_of_le o.precedence_le.2
  simp [needsParens, precedence, accessPrecedence, bounded]

theorem needsParens_place (e : Expr) (parent : Nat) (tight : Bool) :
    e.needsParens parent tight = e.needsParens (if tight then parent + 1 else parent) false := by
  cases tight with
  | false => rfl
  | true =>
    simp only [needsParens, Bool.true_and, Bool.false_and, Bool.or_false, if_true,
      ← Bool.decide_or]
    exact decide_eq_decide.2 (by omega)

theorem enclosedNesting_place (e : Expr) (parent : Nat) (tight : Bool) (inside : Nat) :
    enclosedNesting e parent tight inside =
      enclosedNesting e (if tight then parent + 1 else parent) false inside := by
  rw [enclosedNesting, enclosedNesting, needsParens_place]

variable {o : Operator} {a b : Expr}

theorem text_pair (o : Operator) (a b : Expr) : (Expr.op o [a, b]).text =
    enclose a o.precedence (isTightPlace o true) a.text ++ (" " ++ o.symbol ++ " ") ++
      enclose b o.precedence (isTightPlace o false) b.text := by
  rw [text, operandTexts, operandTexts, operandTexts, String.intercalate_cons_cons,
    String.intercalate_singleton]

theorem nesting_pair (deep : (Expr.op o [a, b]).nesting ≤ n) :
    enclosedNesting a o.precedence (isTightPlace o true) a.nesting ≤ n ∧
      enclosedNesting b o.precedence (isTightPlace o false) b.nesting +
        (if o = .pow then 1 else 0) ≤ n := by
  simp only [nesting, operandsNesting, max_le_iff] at deep
  refine ⟨le_trans (Nat.le_add_right _ _) deep.1, ?_⟩
  simpa using deep.2.1

theorem name_eq (lexeme : String) :
    (∃ b, lexeme = (Expr.bool b).text ∧ name lexeme = .bool b) ∨ name lexeme = .ident lexeme := by
  unfold name
  split
  · next same => exact .inl ⟨true, same, rfl⟩
  · split
    · next same => exact .inl ⟨false, same, rfl⟩
    · exact .inr rfl

theorem splitDots_dot (cs : List Char) : splitDots ('.' :: cs) = [] :: splitDots cs := by
  simp only [splitDots]

theorem splitDots_cons {c : Char} (other : c ≠ '.') {cs part : List Char} {parts : List (List Char)}
    (h : splitDots cs = part :: parts) : splitDots (c :: cs) = (c :: part) :: parts := by
  unfold splitDots
  rw [h]
  split
  · exact absurd rfl other
  · next same => cases same; rfl
  · next same => cases same

theorem exists_splitDots (cs : List Char) : ∃ part parts, splitDots cs = part :: parts := by
  induction cs with
  | nil => exact ⟨[], [], rfl⟩
  | cons c cs ih =>
    obtain ⟨part, parts, same⟩ := ih
    by_cases dot : c = '.'
    · subst dot
      exact ⟨[], _, splitDots_dot cs⟩
    · exact ⟨c :: part, parts, splitDots_cons dot same⟩

theorem splitDots_of_not_mem {cs : List Char} (plain : '.' ∉ cs) : splitDots cs = [cs] := by
  induction cs with
  | nil => rfl
  | cons c cs ih =>
    obtain ⟨other, plain⟩ := not_or.1 (mt List.mem_cons.2 plain)
    exact splitDots_cons (Ne.symm other) (ih plain)

theorem splitDots_append (cs ds : List Char) :
    splitDots (cs ++ '.' :: ds) = splitDots cs ++ splitDots ds := by
  induction cs with
  | nil => exact splitDots_dot ds
  | cons c cs ih =>
    by_cases dot : c = '.'
    · subst dot
      rw [List.cons_append, splitDots_dot, splitDots_dot, ih, List.cons_append]
    · obtain ⟨part, parts, same⟩ := exists_splitDots cs
      rw [same, List.cons_append] at ih
      rw [List.cons_append, splitDots_cons dot ih, splitDots_cons dot same, List.cons_append]

/-- The name is one token without dots. -/
def isField (field : String) : Bool := isWhole .identifier field && field.toList.all (· ≠ '.')

variable {field path : String}

theorem isWhole_of_isField (h : isField field = true) : isWhole .identifier field = true :=
  (Bool.and_eq_true _ _ ▸ h).1

theorem dot_not_mem_of_isField (h : isField field = true) : '.' ∉ field.toList := fun mem => by
  have other := List.all_eq_true.1 (Bool.and_eq_true _ _ ▸ h).2 '.' mem
  exact absurd other (by decide)

theorem members_field (h : isField field = true) (base : Expr) :
    members base field = .member base field := by
  rw [members, splitDots_of_not_mem (dot_not_mem_of_isField h)]
  simp

theorem flatMap_splitDots (cs : List Char) :
    (splitDots cs).flatMap (fun part => '.' :: part) = '.' :: cs := by
  induction cs with
  | nil => rfl
  | cons c cs ih =>
    by_cases dot : c = '.'
    · subst dot
      rw [splitDots_dot, List.flatMap_cons, ih]
      rfl
    · obtain ⟨part, parts, same⟩ := exists_splitDots cs
      rw [same, List.flatMap_cons, List.cons_append, List.cons.injEq] at ih
      rw [splitDots_cons dot same, List.flatMap_cons, List.cons_append, List.cons_append, ih.2]

theorem members_append (base : Expr) (path more : String) :
    members base (path ++ "." ++ more) = members (members base path) more := by
  have split : splitDots (path ++ "." ++ more).toList =
      splitDots path.toList ++ splitDots more.toList := by
    rw [← splitDots_append]
    simp
  rw [members, split, List.foldl_append]
  rfl

/-- What holds of a member of the base, and of a member of a member if it holds of the latter,
holds of the path. -/
theorem members_induction {motive : Expr → Prop} (base : Expr) (path : String)
    (first : ∀ part, motive (.member base part))
    (next : ∀ e field part, motive (.member e field) → motive (.member (.member e field) part)) :
    motive (members base path) := by
  have more : ∀ (parts : List (List Char)) (e : Expr) (field : String), motive (.member e field) →
      motive (parts.foldl (fun e part => .member e (String.ofList part)) (.member e field)) := by
    intro parts
    induction parts with
    | nil => exact fun _ _ h => h
    | cons part parts ih => exact fun e field h => ih _ _ (next e field _ h)
  obtain ⟨part, parts, same⟩ := exists_splitDots path.toList
  rw [members, same]
  exact more parts base _ (first _)

theorem exists_member (base : Expr) (path : String) :
    ∃ e field, members base path = .member e field :=
  members_induction (motive := fun e => ∃ e' field, e = .member e' field) base path
    (fun part => ⟨base, part, rfl⟩) fun e field part _ => ⟨.member e field, part, rfl⟩

theorem nesting_members (base : Expr) (path : String) :
    (members base path).nesting = enclosedNesting base accessPrecedence false base.nesting :=
  members_induction (motive := fun e => e.nesting = _) base path (fun _ => rfl)
    fun _ _ _ same => same

theorem text_member_member (e : Expr) (field part : String) :
    (Expr.member (.member e field) part).text = (Expr.member e field).text ++ "." ++ part := rfl

/-- The members of a path are written as one dotted name. -/
theorem text_members (base : Expr) (path : String) :
    (members base path).text = enclose base accessPrecedence false base.text ++ "." ++ path := by
  have later : ∀ (parts : List (List Char)) (e : Expr) (field : String),
      (parts.foldl (fun e part => Expr.member e (String.ofList part))
          (Expr.member e field)).text.toList =
            (Expr.member e field).text.toList ++ parts.flatMap fun part => '.' :: part := by
    intro parts
    induction parts with
    | nil => simp
    | cons part parts ih =>
      intro e field
      rw [List.foldl_cons, ih, text_member_member]
      simp
  obtain ⟨part, parts, same⟩ := exists_splitDots path.toList
  have joined := flatMap_splitDots path.toList
  rw [same, List.flatMap_cons, List.cons_append, List.cons.injEq] at joined
  rw [← String.toList_inj, members, same, List.foldl_cons, later, text]
  simp [← joined.2]

end PredicateStrength
