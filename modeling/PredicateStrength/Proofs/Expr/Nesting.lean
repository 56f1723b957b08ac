import Mathlib
import PredicateStrength.Proofs.Expr.Text

/-!
# The levels that the text of a tree opens

The text of a tree encloses only operands that reading could not have returned without parentheses,
so it opens no more levels than the tree was read with. The one exception is a sign directly behind
a sign or `**`: it can be read without parentheses, but is written in them.

Main statement: `fits_of_derives`.
-/
namespace PredicateStrength.Expr

open PredicateStrength.Parser (Derives members name)

/-- The tree is a number with a sign. -/
def isSigned : Expr → Bool
  | .neg _ => true
  | _ => false

mutual
/-- No sign stands directly behind a sign or `**`. -/
def signsApart : Expr → Bool
  | .ident _ | .num _ | .bool _ => true
  | .not e => signsApart e
  | .neg e => !e.isSigned && signsApart e
  | .op o args => (o ≠ .pow || args.tail.all fun e => !e.isSigned) && allSignsApart args
  | .call f args => signsApart f && allSignsApart args
  | .index base key => signsApart base && signsApart key
  | .member base _ => signsApart base

def allSignsApart : List Expr → Bool
  | [] => true
  | e :: es => signsApart e && allSignsApart es
end

theorem signsApart_members (base : Expr) (path : String) :
    (members base path).signsApart = base.signsApart :=
  members_induction (motive := fun e => e.signsApart = _) base path (fun _ => rfl)
    fun _ _ _ same => same

variable {o : Operator} {a b e : Expr} {n k m : Nat}

/-- In a place of strength `k`, the text of the tree opens at most `n` levels. -/
def Fits (n k : Nat) (e : Expr) : Prop := enclosedNesting e k false e.nesting ≤ n

theorem fits_of_le (strength : k ≤ e.precedence) : Fits n k e ↔ e.nesting ≤ n := by
  have bare : e.needsParens k false = false := by
    simp [needsParens, Nat.not_lt.2 strength]
  rw [Fits, enclosedNesting, bare, if_neg Bool.false_ne_true]

theorem Fits.nesting_le (h : Fits n 1 e) : e.nesting ≤ n := (fits_of_le (precedence_le e).1).1 h

theorem Fits.mono (h : Fits n m e) (le : k ≤ m) : Fits n k e := by
  simp only [Fits, enclosedNesting, needsParens, Bool.false_and, Bool.or_false,
    decide_eq_true_eq] at h ⊢
  split at h <;> split <;> omega

theorem Fits.paren (h : Fits n 1 e) : Fits (n + 1) k e := by
  have inside := h.nesting_le
  rw [Fits, enclosedNesting]
  split <;> omega

/-- Only a sign binds exactly as a sign does. -/
theorem Fits.unsigned (h : Fits n negPrecedence e) (other : e.isSigned = false) :
    Fits n (negPrecedence + 1) e := by
  have strength : e.precedence ≠ negPrecedence := by
    cases e with
    | neg => cases other
    | op o => exact o.precedence_ne
    | _ => simp [precedence, notPrecedence, negPrecedence, accessPrecedence]
  have same : e.needsParens (negPrecedence + 1) false = e.needsParens negPrecedence false := by
    simp only [needsParens, Bool.false_and, Bool.or_false]
    exact decide_eq_decide.2 (by omega)
  rwa [Fits, enclosedNesting, same]

theorem Fits.not (h : Fits n 3 e) : Fits (n + 1) 3 (.not e) := by
  rw [fits_of_le (le_refl 3), nesting]
  exact Nat.succ_le_succ h

theorem Fits.neg (h : Fits n 10 e) (other : e.isSigned = false) : Fits (n + 1) 10 (.neg e) := by
  rw [fits_of_le (le_refl 10), nesting, enclosedNesting_place]
  exact Nat.succ_le_succ (h.unsigned other)

theorem fits_pair (first : enclosedNesting a o.precedence (isTightPlace o true) a.nesting ≤ n)
    (second : enclosedNesting b o.precedence (isTightPlace o false) b.nesting +
      (if o = .pow then 1 else 0) ≤ n) (strength : k ≤ o.precedence) :
    Fits n k (binary o a b) := by
  have whole : k ≤ (binary o a b).precedence := strength
  rw [fits_of_le whole]
  simp only [binary, nesting, operandsNesting, Bool.and_true, Bool.and_false, Bool.not_true,
    Bool.not_false, Bool.false_eq_true, if_false, decide_eq_true_eq, max_le_iff, Nat.zero_le,
    and_true, Nat.add_zero]
  exact ⟨first, second⟩

theorem Fits.left (left : Parser.groupsLeft o = true) (first : Fits n o.precedence a)
    (second : Fits n (o.precedence + 1) b) : Fits n o.precedence (binary o a b) := by
  have places : isTightPlace o true = false ∧ isTightPlace o false = true ∧ o ≠ .pow := by
    revert left
    cases o <;> decide
  refine fits_pair ?_ ?_ (le_refl _)
  · rw [enclosedNesting_place, places.1]
    exact first
  · rw [enclosedNesting_place, places.2.1, if_neg places.2.2]
    exact second

theorem Fits.relation (relational : o.isRelational = true) (first : Fits n 5 a)
    (second : Fits n 5 b) : Fits n 4 (binary o a b) := by
  have places : (∀ isFirst, isTightPlace o isFirst = true) ∧ o.precedence = 4 ∧ o ≠ .pow := by
    revert relational
    cases o <;> decide
  refine fits_pair ?_ ?_ (le_of_eq places.2.1.symm)
  · rw [enclosedNesting_place, places.1, places.2.1]
    exact first
  · rw [enclosedNesting_place, places.1, places.2.1, if_neg places.2.2]
    exact second

theorem Fits.pow (base : Fits (n + 1) 12 a) (exponent : Fits n 10 b)
    (unsigned : b.isSigned = false) : Fits (n + 1) 11 (binary .pow a b) := by
  refine fits_pair ?_ ?_ (le_refl 11)
  · rw [enclosedNesting_place]
    exact base
  · rw [enclosedNesting_place]
    exact Nat.succ_le_succ (exponent.unsigned unsigned)

theorem Fits.call {es : List Expr} (callee : Fits n 12 a) (args : argumentsNesting es ≤ n) :
    Fits n 12 (.call a es) := by
  rw [fits_of_le (le_refl 12), nesting, max_le_iff]
  exact ⟨callee, args⟩

theorem Fits.index (base : Fits (n + 1) 12 a) (key : Fits n 1 b) :
    Fits (n + 1) 12 (.index a b) := by
  rw [fits_of_le (le_refl 12), nesting, max_le_iff]
  exact ⟨base, Nat.succ_le_succ key.nesting_le⟩

theorem Fits.members (h : Fits n 12 e) (path : String) : Fits n 12 (members e path) := by
  obtain ⟨base, field, same⟩ := exists_member e path
  have whole : 12 ≤ (Parser.members e path).precedence := by
    rw [same]
    exact le_refl 12
  rw [fits_of_le whole, nesting_members]
  exact h

theorem signsApart_binary (h : (binary o a b).signsApart = true) :
    a.signsApart = true ∧ b.signsApart = true ∧ (o = .pow → b.isSigned = false) := by
  simp only [binary, signsApart, allSignsApart, List.tail_cons, List.all_cons, List.all_nil,
    Bool.and_true, Bool.and_eq_true, Bool.or_eq_true, decide_eq_true_eq, Bool.not_eq_true'] at h
  exact ⟨h.2.1, h.2.2, fun pow => h.1.resolve_left (not_not_intro pow)⟩

/-- Without a sign directly behind a sign or `**`, the text of a tree opens no more levels than the
tree was read with. -/
theorem fits_of_derives {ws : List Word} (h : Derives n k ws e) :
    e.signsApart = true → Fits n k e := by
  induction h using Derives.rec (motive_2 := fun n _ es _ =>
    allSignsApart es = true → argumentsNesting es ≤ n + 1) with
  | tighter _ _ _ ih => exact fun apart => (ih apart).mono (Nat.le_succ _)
  | left left _ _ _ iha ihb =>
    intro apart
    obtain ⟨first, second, -⟩ := signsApart_binary apart
    exact .left left (iha first) (ihb second)
  | relation relational _ _ _ iha ihb =>
    intro apart
    obtain ⟨first, second, -⟩ := signsApart_binary apart
    exact .relation relational (iha first) (ihb second)
  | not _ ih => exact fun apart => (ih apart).not
  | neg _ ih =>
    intro apart
    rw [signsApart, Bool.and_eq_true, Bool.not_eq_true'] at apart
    exact (ih apart.2).neg apart.1
  | pow _ _ _ iha ihb =>
    intro apart
    obtain ⟨first, second, unsigned⟩ := signsApart_binary apart
    exact .pow (iha first) (ihb second) (unsigned rfl)
  | num => exact fun _ => Nat.zero_le _
  | name lexeme =>
    intro _
    rcases name_eq lexeme with ⟨b, -, leaf⟩ | leaf <;> rw [leaf] <;> exact Nat.zero_le _
  | paren _ _ _ ih => exact fun apart => (ih apart).paren
  | apply _ _ _ ih =>
    intro apart
    rw [signsApart, Bool.and_eq_true] at apart
    exact (ih apart.1).call (Nat.zero_le _)
  | call _ _ _ _ ihf ihargs =>
    intro apart
    rw [signsApart, Bool.and_eq_true] at apart
    exact (ihf apart.1).call (ihargs apart.2)
  | index _ _ _ _ ihbase ihkey =>
    intro apart
    rw [signsApart, Bool.and_eq_true] at apart
    exact (ihbase apart.1).index (ihkey apart.2)
  | @member n ws d u base _ _ _ ih =>
    intro apart
    rw [signsApart_members] at apart
    exact (ih apart).members u.lexeme
  | one _ ih =>
    rename_i apart
    rw [allSignsApart, Bool.and_eq_true] at apart
    rw [argumentsNesting, argumentsNesting, max_le_iff]
    exact ⟨Nat.succ_le_succ (ih apart.1).nesting_le, Nat.zero_le _⟩
  | more _ _ _ ih ihs =>
    rename_i apart
    rw [allSignsApart, Bool.and_eq_true] at apart
    rw [argumentsNesting, max_le_iff]
    exact ⟨Nat.succ_le_succ (ih apart.1).nesting_le, ihs apart.2⟩

end PredicateStrength.Expr
