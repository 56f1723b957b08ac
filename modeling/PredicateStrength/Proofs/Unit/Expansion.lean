import Mathlib
import PredicateStrength.Proofs.Formula.Meaning
import PredicateStrength.Proofs.Unit.Tree

/-!
# Units keep their meaning

The text of a tree with units is expanded by the table of surface substitutions and read. What
comes back has the value of the tree in smallest units, unless a factor is torn off its number.

Main statement: `units_keep_meaning`. The places that it leaves out are those where the meaning does
change: behind `/` and `%` the factor always multiplies the result (`ofText_solidity_product`), and
`units_torn_off` has an example of each place.
-/
namespace PredicateStrength

open Token
open PredicateStrength.Expr

variable {n k parent : Nat} {tight : Bool} {e f r : Expr}

/-- What is read in place of the tree; the last word of its text matters for a member behind it. -/
def ReadsBack (n : Nat) (e r : Expr) : Prop :=
  match e with
  | .call .. | .index .. => Closed n e.text r
  | .member .. => Pathed n e.text r
  | _ => Written n e.strength e.text r

/-- Wherever the text of the tree is not nested too deeply, it is read with the same meaning. -/
def Expands (e : Expr) : Prop :=
  ∀ n, e.nesting ≤ n → ∃ r, ReadsBack n e r ∧ SamePlace r e.inSmallestUnits

theorem strength_le (e : Expr) : 1 ≤ e.strength ∧ e.strength ≤ 12 := by
  unfold strength
  split
  · decide
  · exact precedence_le e

theorem ReadsBack.written (h : ReadsBack n e r) : Written n e.strength e.text r := by
  cases e with
  | call => exact Closed.written h
  | index => exact Closed.written h
  | member => exact Pathed.written h
  | _ => exact h

/-- An operand is read in its place, in parentheses or without. -/
theorem Expands.enclosed (h : Expands e)
    (whole : e.isProduct = true → e.needsParens parent tight = true ∨ k ≤ 9)
    (place : k ≤ if tight then parent + 1 else parent) (positive : 0 < k) (bounded : k ≤ 12)
    (deep : enclosedNesting e parent tight e.nesting ≤ n) :
    ∃ r, Written n k (enclose e parent tight e.text) r ∧ SamePlace r e.inSmallestUnits := by
  by_cases parens : e.needsParens parent tight = true
  · rw [enclosedNesting, if_pos parens] at deep
    obtain ⟨m, rfl⟩ := Nat.exists_eq_add_of_lt deep
    obtain ⟨r, back, same⟩ := h (e.nesting + m) (Nat.le_add_right _ _)
    have inside : Written (e.nesting + m) 1 e.text r :=
      back.written.of_le (by decide) (strength_le e).1 (strength_le e).2
    rw [enclose, if_pos parens]
    exact ⟨r, inside.paren.written.of_le positive bounded (le_refl 12), same⟩
  · rw [enclosedNesting, if_neg parens] at deep
    obtain ⟨r, back, same⟩ := h n deep
    have tightEnough : k ≤ e.strength := by
      unfold strength
      split
      · next product => exact (whole product).resolve_left parens
      · unfold needsParens at parens
        cases tight <;> simp at parens place <;> omega
    rw [enclose, if_neg parens]
    exact ⟨r, back.written.of_le positive tightEnough (strength_le e).2, same⟩

/-- In front of a call or a key. -/
theorem Expands.callee (h : Expands e) (single : e.factor? = none)
    (deep : enclosedNesting e accessPrecedence false e.nesting ≤ n) :
    ∃ r, Written n 12 (enclose e accessPrecedence false e.text) r ∧
      SamePlace r e.inSmallestUnits := by
  refine h.enclosed (fun product => .inl ?_) (by decide) (by decide) (by decide) deep
  cases e with
  | neg => rfl
  | _ => simp [isProduct, single] at product

/-- In front of a member. -/
theorem Expands.base (h : Expands e) (compound : e.isLeaf = false)
    (deep : enclosedNesting e accessPrecedence false e.nesting ≤ n) :
    ∃ r, (Closed n (enclose e accessPrecedence false e.text) r ∨
      Pathed n (enclose e accessPrecedence false e.text) r) ∧ SamePlace r e.inSmallestUnits := by
  by_cases parens : e.needsParens accessPrecedence false = true
  · rw [enclosedNesting, if_pos parens] at deep
    obtain ⟨m, rfl⟩ := Nat.exists_eq_add_of_lt deep
    obtain ⟨r, back, same⟩ := h (e.nesting + m) (Nat.le_add_right _ _)
    have inside : Written (e.nesting + m) 1 e.text r :=
      back.written.of_le (by decide) (strength_le e).1 (strength_le e).2
    rw [enclose, if_pos parens]
    exact ⟨r, .inl inside.paren, same⟩
  · rw [enclosedNesting, if_neg parens] at deep
    obtain ⟨r, back, same⟩ := h n deep
    rw [enclose, if_neg parens]
    refine ⟨r, ?_, same⟩
    cases e with
    | call => exact .inl back
    | index => exact .inl back
    | member => exact .inr back
    | ident | num | bool => cases compound
    | not | neg => exact absurd rfl parens
    | op o => exact absurd (needsParens_op o _) parens

theorem factor?_eq_some {factor : String} (h : e.factor? = some factor) :
    ∃ leaf digits u, e = .num leaf ∧ UnitSuffix.quantity? leaf = some (digits, u) ∧
      u.factor? = some factor := by
  cases e with
  | num leaf =>
    obtain ⟨⟨digits, u⟩, found, product⟩ := Option.bind_eq_some_iff.1 h
    exact ⟨leaf, digits, u, rfl, found, product⟩
  | _ => cases h

/-- A product in the text ends with its factor. -/
theorem factored_of_isProduct (product : e.isProduct = true) (deep : e.nesting ≤ n) :
    ∃ b factor, Factored n e.text b factor ∧
      SamePlace (.binary .mul b (.num factor)) e.inSmallestUnits := by
  have leaf : ∀ {e : Expr} {m factor}, e.factor? = some factor →
      e.needsParens negPrecedence true = false ∧ ∃ digits, Factored m e.text (.num digits) factor ∧
        SamePlace (.binary .mul (.num digits) (.num factor)) e.inSmallestUnits := by
    intro e m factor h
    obtain ⟨leaf, digits, u, rfl, found, product⟩ := factor?_eq_some h
    obtain ⟨rfl, valid⟩ := UnitSuffix.quantity?_eq_some found
    refine ⟨rfl, digits, factored_quantity valid product, ?_⟩
    rw [inSmallestUnits, found]
    exact SamePlace.product valid product
  obtain ⟨f, sign, factor, h⟩ : ∃ f, (e = f ∨ e = .neg f) ∧ ∃ factor, f.factor? = some factor := by
    cases e with
    | neg f => exact ⟨f, .inr rfl, Option.isSome_iff_exists.1 product⟩
    | num leaf => exact ⟨_, .inl rfl, Option.isSome_iff_exists.1 product⟩
    | _ => cases product
  rcases sign with rfl | rfl
  · obtain ⟨-, digits, factored, same⟩ := leaf h
    exact ⟨.num digits, factor, factored, same⟩
  · obtain ⟨bare, -⟩ := leaf (m := 0) h
    rw [nesting, enclosedNesting, bare, if_neg Bool.false_ne_true] at deep
    obtain ⟨m, rfl⟩ := Nat.exists_eq_add_of_lt deep
    obtain ⟨-, digits, factored, same⟩ := leaf (m := f.nesting + m) h
    refine ⟨.neg (.num digits), factor, ?_, ?_⟩
    · rw [text, enclose, bare, if_neg Bool.false_ne_true]
      exact factored.neg
    · rw [inSmallestUnits]
      exact (SamePlace.regroup_neg _ _).trans same.neg

theorem Expands.of_isProduct (product : e.isProduct = true) : Expands e := by
  intro n deep
  obtain ⟨b, factor, factored, same⟩ := factored_of_isProduct product deep
  refine ⟨_, ?_, same⟩
  have written : Written n e.strength e.text (.binary .mul b (.num factor)) := by
    rw [strength, if_pos product]
    exact factored.written
  cases e <;> first | exact written | cases product

theorem expands_ident {s : String} (h : (Expr.ident s).isReadable = true) :
    Expands (.ident s) := by
  intro n _
  rw [isReadable, Bool.and_eq_true, Bool.and_eq_true, decide_eq_true_eq, decide_eq_true_eq] at h
  refine ⟨.ident s, ?_, .refl _⟩
  have plain : Parser.name s = .ident s := by
    rw [Parser.name, if_neg h.1.2, if_neg h.2]
  show Written n 12 s (.ident s)
  rw [← plain]
  exact written_name h.1.1

theorem expands_bool (b : Bool) : Expands (.bool b) := by
  intro n _
  refine ⟨.bool b, ?_, .refl _⟩
  cases b
  · exact @written_name _ "false" (by cbv)
  · exact @written_name _ "true" (by cbv)

theorem expands_num {leaf : String} (h : (Expr.num leaf).isReadable = true) :
    Expands (.num leaf) := by
  cases product : (Expr.num leaf).isProduct with
  | true => exact .of_isProduct product
  | false =>
    intro n _
    have strength : (Expr.num leaf).strength = 12 := by
      rw [strength, product]
      rfl
    show ∃ r, Written n _ leaf r ∧ _
    rw [strength, inSmallestUnits]
    cases found : UnitSuffix.quantity? leaf with
    | some quantity =>
      obtain ⟨digits, u⟩ := quantity
      obtain ⟨rfl, valid⟩ := UnitSuffix.quantity?_eq_some found
      have single : u.factor? = none := by
        simpa [isProduct, factor?, found] using product
      exact ⟨_, written_quantity valid single, SamePlace.joined valid single⟩
    | none =>
      have number : isWhole .number leaf = true := by
        simpa [isReadable, found] using h
      exact ⟨_, written_number number, .refl _⟩

theorem expands_not (h : Expands e) : Expands (.not e) := by
  intro n deep
  obtain ⟨m, rfl⟩ := Nat.exists_eq_add_of_lt deep
  have inside : enclosedNesting e notPrecedence false e.nesting ≤ _ := Nat.le_add_right _ m
  obtain ⟨r, operand, same⟩ := h.enclosed (k := 3) (fun _ => .inr (by decide)) (by decide)
    (by decide) (by decide) inside
  exact ⟨.not r, operand.not, same.not⟩

theorem expands_neg (h : Expands e) : Expands (.neg e) := by
  cases product : (Expr.neg e).isProduct with
  | true => exact .of_isProduct product
  | false =>
    intro n deep
    obtain ⟨m, rfl⟩ := Nat.exists_eq_add_of_lt deep
    have whole : e.isProduct = true → e.needsParens negPrecedence true = true ∨ 10 ≤ 9 := by
      intro inner
      cases e with
      | neg => exact .inl rfl
      | num leaf => exact absurd (product.symm.trans inner) (by decide)
      | _ => cases inner
    obtain ⟨r, operand, same⟩ := h.enclosed whole (by decide) (by decide) (by decide)
      (Nat.le_add_right _ m)
    have strength : (Expr.neg e).strength = 10 := by
      rw [strength, product]
      rfl
    refine ⟨.neg r, ?_, same.neg⟩
    show Written _ _ _ _
    rw [strength]
    exact operand.neg

theorem expands_index {key : Expr} (h : Expands e) (h' : Expands key) (single : e.factor? = none) :
    Expands (.index e key) := by
  intro n deep
  rw [nesting, max_le_iff] at deep
  obtain ⟨m, rfl⟩ := Nat.exists_eq_add_of_lt deep.2
  obtain ⟨r, base, same⟩ := h.callee single deep.1
  obtain ⟨r', inside, same'⟩ := h' (key.nesting + m) (Nat.le_add_right _ _)
  exact ⟨.index r r', base.index (inside.written.of_le (by decide) (strength_le key).1
    (strength_le key).2), same.index same'⟩

theorem expands_member {field : String} (h : Expands e) (compound : e.isLeaf = false)
    (part : isField field = true) : Expands (.member e field) := by
  intro n deep
  obtain ⟨r, base, same⟩ := h.base compound deep
  refine ⟨.member r field, ?_, same.member field⟩
  rcases base with closed | pathed
  · exact closed.pathed part
  · exact pathed.pathed part

/-- Call arguments are read one by one. -/
theorem exists_arguments {es : List Expr} (h : ∀ e ∈ es, Expands e) {m : Nat}
    (deep : argumentsNesting es ≤ m + 1) :
    ∃ rs, List.Forall₂ (Written m 1) (texts es) rs ∧
      List.Forall₂ SamePlace rs (allInSmallestUnits es) := by
  induction es with
  | nil => exact ⟨[], .nil, .nil⟩
  | cons e es ih =>
    obtain ⟨first, h⟩ := List.forall_mem_cons.1 h
    rw [argumentsNesting, max_le_iff] at deep
    obtain ⟨r, back, same⟩ := first m (Nat.le_of_succ_le_succ deep.1)
    obtain ⟨rs, later, sames⟩ := ih h deep.2
    exact ⟨r :: rs, .cons (back.written.of_le (by decide) (strength_le e).1 (strength_le e).2) later,
      .cons same sames⟩

theorem expands_call {args : List Expr} (h : Expands e) (h' : ∀ a ∈ args, Expands a)
    (single : e.factor? = none) : Expands (.call e args) := by
  intro n deep
  rw [nesting, max_le_iff] at deep
  obtain ⟨r, callee, same⟩ := h.callee single deep.1
  cases args with
  | nil =>
    refine ⟨.call r [], ?_, same.call .nil⟩
    show Closed n (_ ++ "(" ++ String.intercalate ", " [] ++ ")") _
    rw [String.intercalate_nil, String.append_empty]
    exact callee.apply
  | cons a as =>
    have positive : 1 ≤ n := le_trans (by simp [argumentsNesting]) deep.2
    obtain ⟨m, rfl⟩ := Nat.exists_eq_add_of_le' positive
    obtain ⟨rs, arguments, sames⟩ := exists_arguments h' deep.2
    refine ⟨.call r rs, callee.call arguments ?_, same.call sames⟩
    rintro rfl
    cases arguments

theorem needsParens_of_keepsFactor {o : Operator} {isFirst : Bool}
    (keeps : keepsFactor o isFirst e = true) (product : e.isProduct = true) :
    e.needsParens o.precedence (isTightPlace o isFirst) = true ∨
      o ≠ .pow ∧ (isFirst = true ∨ o ≠ .div ∧ o ≠ .mod) := by
  simpa [keepsFactor, product] using keeps

/-- Operands behind the first one of an operator whose chains group to the left. -/
theorem exists_operands {o : Operator} (left : Parser.groupsLeft o = true) {es : List Expr}
    (h : ∀ e ∈ es, Expands e) (holds : operandsHold o false es = true)
    (plain : o = .mul → ∀ e ∈ es, e.isProduct = false) (deep : operandsNesting o false es ≤ n) :
    ∃ rs, List.Forall₂ (Written n (o.precedence + 1)) (operandTexts o false es) rs ∧
      List.Forall₂ SamePlace rs (allInSmallestUnits es) := by
  induction es with
  | nil => exact ⟨[], .nil, .nil⟩
  | cons e es ih =>
    obtain ⟨first, h⟩ := List.forall_mem_cons.1 h
    rw [operandsHold, Bool.and_eq_true, Bool.and_eq_true] at holds
    rw [operandsNesting, max_le_iff] at deep
    obtain ⟨rs, later, sames⟩ := ih h holds.2 (fun mul f mem => plain mul f (.tail _ mem)) deep.2
    have place : o.precedence + 1 ≤
        if isTightPlace o false then o.precedence + 1 else o.precedence := by
      revert left
      cases o <;> decide
    have whole : e.isProduct = true →
        e.needsParens o.precedence (isTightPlace o false) = true ∨ o.precedence + 1 ≤ 9 := by
      intro product
      refine (needsParens_of_keepsFactor holds.1.1 product).imp id fun others => ?_
      have single : o ≠ .mul := fun mul => by
        rw [plain mul e List.mem_cons_self] at product
        cases product
      revert left others single
      cases o <;> decide
    obtain ⟨r, operand, same⟩ := first.enclosed whole place (Nat.succ_pos _)
      (Nat.succ_le_succ o.precedence_le.2) (le_trans (Nat.le_add_right _ _) deep.1)
    exact ⟨r :: rs, .cons operand later, .cons same sames⟩

variable {o : Operator} {a b : Expr}

/-- A product behind `*`, `/` or `%` is taken apart: the operator takes the number, and the factor
multiplies the result. -/
theorem written_product (h : Expands a) (strength : o.precedence = 9) (product : b.isProduct = true)
    (deep : (Expr.op o [a, b]).nesting ≤ n) :
    ∃ r c factor, Written n 9 (Expr.op o [a, b]).text (.binary .mul (.binary o r c) (.num factor)) ∧
      SamePlace r a.inSmallestUnits ∧
      SamePlace (.binary .mul c (.num factor)) b.inSmallestUnits := by
  obtain ⟨first, second⟩ := nesting_pair deep
  have bare : b.needsParens o.precedence (isTightPlace o false) = false := by
    rw [strength]
    cases b with
    | neg | num => simp [needsParens, precedence, negPrecedence, accessPrecedence]
    | _ => cases product
  have place : 9 ≤ if isTightPlace o true then o.precedence + 1 else o.precedence := by
    split <;> omega
  rw [enclosedNesting, bare, if_neg Bool.false_ne_true] at second
  obtain ⟨r, front, same⟩ := h.enclosed (fun _ => .inr (by decide)) place (by decide)
    (by decide) first
  obtain ⟨c, factor, factored, same'⟩ :=
    factored_of_isProduct product (le_trans (Nat.le_add_right _ _) second)
  refine ⟨r, c, factor, ?_, same, same'⟩
  rw [text_pair, show enclose b _ (isTightPlace o false) b.text = b.text by
    rw [enclose, bare, if_neg Bool.false_ne_true]]
  exact factored.behind strength front

/-- Behind `*` this makes no difference. -/
theorem expands_mul_product (h : Expands a) (product : b.isProduct = true) :
    Expands (.op .mul [a, b]) := by
  intro n deep
  obtain ⟨r, c, factor, written, same, same'⟩ := written_product h rfl product deep
  exact ⟨_, written, (SamePlace.regroup_mul _ _ _).trans (same.binary same')⟩

theorem expands_left {bs : List Expr} (left : Parser.groupsLeft o = true)
    (h : ∀ e ∈ a :: b :: bs, Expands e) (holds : operandsHold o true (a :: b :: bs) = true)
    (plain : o = .mul → ∀ e ∈ b :: bs, e.isProduct = false)
    (assoc : bs ≠ [] → o.isAssociative = true) : Expands (.op o (a :: b :: bs)) := by
  intro n deep
  obtain ⟨first, h⟩ := List.forall_mem_cons.1 h
  rw [operandsHold, Bool.and_eq_true, Bool.and_eq_true] at holds
  rw [nesting, operandsNesting, max_le_iff] at deep
  have place : o.precedence ≤
      if isTightPlace o true then o.precedence + 1 else o.precedence := by
    split
    · exact Nat.le_succ _
    · exact le_refl _
  have loose : o.precedence ≤ 9 := by
    revert left
    cases o <;> decide
  obtain ⟨r, front, same⟩ := first.enclosed (fun _ => .inr loose) place o.precedence_le.1
    (Nat.le_succ_of_le o.precedence_le.2) (le_trans (Nat.le_add_right _ _) deep.1)
  obtain ⟨rs, later, sames⟩ := exists_operands left h holds.2 plain deep.2
  refine ⟨rs.foldl (.binary o) r, Written.chain left later front, ?_⟩
  cases sames with
  | @cons r' _ rs' _ second others =>
    have few : rs' ≠ [] → bs ≠ [] := by
      rintro filled rfl
      cases others
      exact filled rfl
    exact (SamePlace.foldl_binary fun filled => assoc (few filled)).trans
      (.op (.cons same (.cons second others)))

theorem expands_relation (relational : o.isRelational = true) (h : Expands a) (h' : Expands b) :
    Expands (.op o [a, b]) := by
  intro n deep
  obtain ⟨first, second⟩ := nesting_pair deep
  have place : ∀ isFirst, 5 ≤ if isTightPlace o isFirst then o.precedence + 1 else o.precedence := by
    revert relational
    cases o <;> decide
  obtain ⟨r, front, same⟩ := h.enclosed (fun _ => .inr (by decide)) (place true) (by decide)
    (by decide) first
  obtain ⟨r', back, same'⟩ := h'.enclosed (fun _ => .inr (by decide)) (place false) (by decide)
    (by decide) (le_trans (Nat.le_add_right _ _) second)
  refine ⟨.binary o r r', ?_, same.binary same'⟩
  have strength : o.precedence ≤ 4 := by
    revert relational
    cases o <;> decide
  show Written n o.precedence (Expr.text _) _
  rw [text_pair]
  exact (front.relation relational back).of_le o.precedence_le.1 strength (by decide)

theorem expands_pow (h : Expands a) (h' : Expands b)
    (holds : operandsHold .pow true [a, b] = true) : Expands (.op .pow [a, b]) := by
  intro n deep
  obtain ⟨first, second⟩ := nesting_pair deep
  have keeps : keepsFactor .pow true a = true ∧ keepsFactor .pow false b = true := by
    simp only [operandsHold, Bool.and_eq_true] at holds
    exact ⟨holds.1.1, holds.2.1.1⟩
  obtain ⟨m, rfl⟩ := Nat.exists_eq_add_of_le' (le_trans (Nat.le_add_left 1 _) second)
  obtain ⟨r, base, same⟩ := h.enclosed (k := 12)
    (fun product => (needsParens_of_keepsFactor keeps.1 product).imp id fun other =>
      absurd rfl other.1) (by decide) (by decide) (by decide) first
  obtain ⟨r', exponent, same'⟩ := h'.enclosed (k := 10)
    (fun product => (needsParens_of_keepsFactor keeps.2 product).imp id fun other =>
      absurd rfl other.1) (by decide) (by decide) (by decide) (Nat.le_of_succ_le_succ second)
  refine ⟨.binary .pow r r', ?_, same.binary same'⟩
  show Written (m + 1) 11 (Expr.text _) _
  rw [text_pair]
  exact base.pow exponent

theorem expands_op {args : List Expr} (h : ∀ e ∈ args, Expands e)
    (shape : args.length = 2 ∨ o.isAssociative = true ∧ 2 ≤ args.length)
    (holds : operandsHold o true args = true) : Expands (.op o args) := by
  obtain ⟨a, b, bs, rfl⟩ : ∃ a b bs, args = a :: b :: bs := by
    match args, shape with
    | a :: b :: bs, _ => exact ⟨a, b, bs, rfl⟩
    | [], shape => simp at shape
    | [_], shape => simp at shape
  have pair : o.isAssociative = false → bs = [] := by
    intro other
    simpa [other] using shape
  by_cases left : Parser.groupsLeft o = true
  · by_cases product : o = .mul ∧ b.isProduct = true
    · obtain ⟨rfl, product⟩ := product
      obtain rfl := pair rfl
      exact expands_mul_product (h a (by simp)) product
    · refine expands_left left h holds (fun mul e mem => ?_) fun filled => ?_
      · subst mul
        obtain rfl := pair rfl
        obtain rfl := List.mem_singleton.1 mem
        simpa using product
      · by_contra other
        exact filled (pair (by simpa using other))
  · have others : o.isRelational = true ∨ o = .pow := by
      revert left
      cases o <;> decide
    rcases others with relational | rfl
    · obtain rfl := pair (by revert relational; cases o <;> decide)
      exact expands_relation relational (h a (by simp)) (h b (by simp))
    · obtain rfl := pair rfl
      exact expands_pow (h a (by simp)) (h b (by simp)) holds

theorem allHold_of_operandsHold {isFirst : Bool} {es : List Expr}
    (h : operandsHold o isFirst es = true) : allHold es = true := by
  induction es generalizing isFirst with
  | nil => rfl
  | cons e es ih =>
    rw [operandsHold, Bool.and_eq_true, Bool.and_eq_true] at h
    rw [allHold, h.1.2, ih h.2]
    rfl

mutual
theorem expands : ∀ e : Expr, e.isReadable = true → e.unitsHold = true → Expands e
  | .ident _, readable, _ => expands_ident readable
  | .num _, readable, _ => expands_num readable
  | .bool b, _, _ => expands_bool b
  | .not e, readable, holds => expands_not (expands e readable holds)
  | .neg e, readable, holds => expands_neg (expands e readable holds)
  | .op o args, readable, holds => by
    rw [isReadable, Bool.and_eq_true] at readable
    refine expands_op (expandsAll args readable.2 (allHold_of_operandsHold holds)) ?_ holds
    simpa using readable.1
  | .call f args, readable, holds => by
    rw [isReadable, Bool.and_eq_true] at readable
    rw [unitsHold, Bool.and_eq_true, Bool.and_eq_true] at holds
    exact expands_call (expands f readable.1 holds.1.2) (expandsAll args readable.2 holds.2)
      (by simpa using holds.1.1)
  | .index base key, readable, holds => by
    rw [isReadable, Bool.and_eq_true] at readable
    rw [unitsHold, Bool.and_eq_true, Bool.and_eq_true] at holds
    exact expands_index (expands base readable.1 holds.1.2) (expands key readable.2 holds.2)
      (by simpa using holds.1.1)
  | .member base field, readable, holds => by
    rw [isReadable, Bool.and_eq_true, Bool.and_eq_true] at readable
    exact expands_member (expands base readable.2 holds) (by simpa using readable.1.2)
      readable.1.1

theorem expandsAll : ∀ es : List Expr, allReadable es = true → allHold es = true →
    ∀ e ∈ es, Expands e
  | [], _, _ => by simp
  | e :: es, readable, holds => by
    rw [allReadable, Bool.and_eq_true] at readable
    rw [allHold, Bool.and_eq_true] at holds
    exact List.forall_mem_cons.2 ⟨expands e readable.1 holds.1, expandsAll es readable.2 holds.2⟩
end

/-- The text of a tree with units, expanded by the table, is read as a tree with the value of the
one in smallest units. -/
theorem units_keep_meaning {e : Expr} (readable : e.isReadable = true) (holds : e.unitsHold = true)
    (shallow : e.nesting ≤ Parser.maxNesting) :
    ∃ r, Expr.ofText (Substitution.solidity.apply e.text) = .ok r ∧
      ∀ (K : Type) [CommRing K] [LinearOrder K] (I : Interp K), I.ReadsNaturals →
        I.value? r = I.value? e.inSmallestUnits := by
  obtain ⟨r, back, same⟩ := expands e readable holds Parser.maxNesting shallow
  obtain ⟨ps, layout⟩ := back.written.of_le (by decide) (strength_le e).1 (strength_le e).2
  refine ⟨r, ofText_apply_solidity layout.separated layout.chars layout.derives, ?_⟩
  intro K _ _ I exact
  rw [Interp.value?, same K I exact]
  rfl

/-- `n * 2 hours >= t - 1 ether` -/
def deadline : Expr :=
  .op .ge [.op .mul [.ident "n", .num "2 hours"], .op .sub [.ident "t", .num "1 ether"]]

theorem units_keep_meaning_deadline :
    ∃ r, Expr.ofText (Substitution.solidity.apply "n * 2 hours >= t - 1 ether") = .ok r ∧
      ∀ (K : Type) [CommRing K] [LinearOrder K] (I : Interp K), I.ReadsNaturals →
        I.value? r = I.value? (.op .ge [.op .mul [.ident "n", .num "7200"],
          .op .sub [.ident "t", .num "1000000000000000000"]]) := by
  have written : deadline.text = "n * 2 hours >= t - 1 ether" := by cbv
  have plain : deadline.inSmallestUnits = .op .ge [.op .mul [.ident "n", .num "7200"],
      .op .sub [.ident "t", .num "1000000000000000000"]] := by cbv
  rw [← written, ← plain]
  exact units_keep_meaning (by cbv) (by cbv) (by cbv)

/-- Behind `/` or `%` the operator takes the number of a unit, and the factor multiplies the
result. -/
theorem ofText_solidity_product {o : Operator} {a b : Expr} (quotient : o = .div ∨ o = .mod)
    (readable : a.isReadable = true) (holds : a.unitsHold = true) (product : b.isProduct = true)
    (shallow : (Expr.op o [a, b]).nesting ≤ Parser.maxNesting) :
    ∃ r c factor, Expr.ofText (Substitution.solidity.apply (Expr.op o [a, b]).text) = .ok r ∧
      SamePlace (.binary .mul c (.num factor)) b.inSmallestUnits ∧
      SamePlace r (.binary .mul (.binary o a.inSmallestUnits c) (.num factor)) := by
  have strength : o.precedence = 9 := by
    rcases quotient with rfl | rfl <;> rfl
  obtain ⟨r, c, factor, written, same, same'⟩ :=
    written_product (expands a readable holds) strength product shallow
  obtain ⟨ps, layout⟩ := written.of_le (m := 1) (by decide) (by decide) (by decide)
  exact ⟨_, c, factor, ofText_apply_solidity layout.separated layout.chars layout.derives, same',
    (same.binary (.refl c)).binary (.refl _)⟩

/-- A unit in each place that tears off its factor, and what is read there. -/
def tornOff : List (Expr × Expr) :=
  let x := .ident "x"
  let unit := .num "2 minutes"
  let two := .num "2"
  let sixty := .num "60"
  [(.op .div [x, unit], .op .mul [.op .div [x, two], sixty]),
    (.op .mod [x, unit], .op .mul [.op .mod [x, two], sixty]),
    (.op .div [x, .neg unit], .op .mul [.op .div [x, .neg two], sixty]),
    (.op .mod [x, .neg unit], .op .mul [.op .mod [x, .neg two], sixty]),
    (.op .pow [unit, x], .op .mul [two, .op .pow [sixty, x]]),
    (.op .pow [x, unit], .op .mul [.op .pow [x, two], sixty]),
    (.call unit [x], .op .mul [two, .call sixty [x]]),
    (.index unit x, .op .mul [two, .index sixty x])]

theorem readsNaturals_uniform (x : Int) : (Interp.uniform x).ReadsNaturals := fun digits n value =>
  Interp.literal?_standard.2 ⟨by exact_mod_cast value, Int.natCast_nonneg n⟩

theorem ne_of_value? {K : Type} [CommRing K] [LinearOrder K] {I : Interp K} {e f : Expr}
    {v w : Option (Value K)} (h : I.value? e = v) (h' : I.value? f = w) (differ : v ≠ w) :
    I.value? e ≠ I.value? f := by
  rw [h, h']
  exact differ

theorem units_torn_off : (Interp.uniform 7).ReadsNaturals ∧ ∀ p ∈ tornOff,
    p.1.isReadable = true ∧ p.1.nesting ≤ Parser.maxNesting ∧
      Expr.ofText (Substitution.solidity.apply p.1.text) = .ok p.2 ∧
      (Interp.uniform 7).value? p.2 ≠ (Interp.uniform 7).value? p.1.inSmallestUnits := by
  refine ⟨readsNaturals_uniform 7, ?_⟩
  simp only [tornOff, List.forall_mem_cons]
  refine ⟨⟨by cbv, by cbv, by cbv, ?_⟩, ⟨by cbv, by cbv, by cbv, ?_⟩, ⟨by cbv, by cbv, by cbv, ?_⟩,
    ⟨by cbv, by cbv, by cbv, ?_⟩, ⟨by cbv, by cbv, by cbv, ?_⟩, ⟨by cbv, by cbv, by cbv, ?_⟩,
    ⟨by cbv, by cbv, by cbv, ?_⟩, ⟨by cbv, by cbv, by cbv, ?_⟩, by simp⟩
  · exact ne_of_value? (v := some (.num 180)) (w := some (.num 0)) (by cbv) (by cbv) (by simp)
  · exact ne_of_value? (v := some (.num 60)) (w := some (.num 7)) (by cbv) (by cbv) (by simp)
  · exact ne_of_value? (v := some (.num (-180))) (w := some (.num 0)) (by cbv) (by cbv) (by simp)
  · exact ne_of_value? (v := some (.num 60)) (w := some (.num 7)) (by cbv) (by cbv) (by simp)
  · exact ne_of_value? (v := some (.num (2 * 60 ^ 7))) (w := some (.num (120 ^ 7))) (by cbv)
      (by cbv) (by simp)
  · exact ne_of_value? (v := some (.num (7 ^ 2 * 60))) (w := some (.num (7 ^ 120))) (by cbv)
      (by cbv) (by simp)
  · exact ne_of_value? (v := none) (w := some (.bool true)) (by cbv) (by cbv) (by simp)
  · exact ne_of_value? (v := some (.num 14)) (w := some (.num 7)) (by cbv) (by cbv) (by simp)

end PredicateStrength
