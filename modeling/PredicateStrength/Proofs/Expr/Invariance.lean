import Mathlib
import PredicateStrength.Expr.Parser
import PredicateStrength.Proofs.Expr.Rearrangement

/-!
# What canonical forms forget

Canonical forms forget the order and the grouping of the operands of `&&`, `||` and `+`, and the
order of the operands of `*`, at every place of a tree. They also forget which side of an
(in)equality is which, with two exceptions: between two truth values the literal on the left is
folded away, and between two differences the subtrahend on the right moves first.

Main statements: trees joined by regrouping have one canonical form
(`canonical_eq_of_regrouped`), and so have trees joined by exchanging the sides of (in)equalities
outside of the exceptions (`canonical_eq_of_exchanged`). In the exceptions the order of the sides
shows wherever they differ (`canonical_truths_eq_iff`, `canonical_differences_eq_iff`).
-/
namespace PredicateStrength

open PredicateStrength.Expr
open PredicateStrength.Canonical

namespace Expr

/-- The operands of a connective, a sum or a product in another order, or those of a nested
connective or sum spliced into the one around it. -/
inductive Regroups : Expr → Expr → Prop
  | reorder {o : Operator} {as bs : List Expr} (free : o ∈ [.and, .or, .add, .mul])
      (perm : as.Perm bs) : Regroups (.op o as) (.op o bs)
  | splice {o : Operator} (free : o ∈ [.and, .or, .add]) (before inner after : List Expr) :
      Regroups (.op o (before ++ .op o inner :: after)) (.op o (before ++ inner ++ after))

namespace Regroups

variable {rule : Expr → Expr} {e f : Expr}

theorem commutes {o : Operator} :
    o ∈ [.and, .or, .add, .mul] → o.isCommutative = true ∧ o.isRelational = false := by
  cases o <;> decide

theorem joins {o : Operator} :
    o ∈ [.and, .or, .add] → o ∈ [.and, .or, .add, .mul] ∧ o.isAssociative = true := by
  cases o <;> decide

theorem onCommutative : OnCommutative Regroups := by
  rintro e f (⟨free, -⟩ | ⟨free⟩)
  · exact ⟨_, _, _, (commutes free).1, rfl, rfl⟩
  · exact ⟨_, _, _, (commutes (joins free).1).1, rfl, rfl⟩

/-- The passes in front of flattening leave the nodes that regrouping is about as they are. -/
theorem bottomUp_of_fixed
    (fixed : ∀ o args, o.isRelational = false → rule (.op o args) = .op o args)
    (e f : Expr) (h : Regroups e f) : Joined Regroups (bottomUp rule e) (bottomUp rule f) := by
  obtain ⟨free, perm⟩ | @⟨o, free, before, inner, after⟩ := h
  · have plain := (commutes free).2
    rw [bottomUp_op, bottomUp_op, fixed _ _ plain, fixed _ _ plain]
    exact .single (.here (.reorder free (perm.map _)))
  · have plain := (commutes (joins free).1).2
    simp only [bottomUp_op, List.map_append, List.map_cons, fixed _ _ plain]
    exact .single (.here (.splice free _ _ _))

/-- Flattening leaves nothing but the order of the operands. -/
theorem bottomUp_flatten (e f : Expr) (h : Regroups e f) :
    Joined Permutes (bottomUp flatten e) (bottomUp flatten f) := by
  obtain @⟨o, as, bs, free, perm⟩ | @⟨o, free, before, inner, after⟩ := h
  · exact bottomUp_flatten_permutes _ _ (.reorder (commutes free).1 perm)
  · have assoc := (joins free).2
    have spliced : operands o (bottomUp flatten (.op o inner)) =
        Canonical.splice o (inner.map (bottomUp flatten)) := by
      rw [bottomUp_op, flatten, if_pos assoc, operands, if_pos rfl]
    have same : bottomUp flatten (.op o (before ++ .op o inner :: after)) =
        bottomUp flatten (.op o (before ++ inner ++ after)) := by
      rw [bottomUp_op, bottomUp_op, flatten, flatten, if_pos assoc, if_pos assoc, List.map_append,
        List.map_cons, splice_append_cons, spliced]
      simp only [Canonical.splice, List.map_append, List.flatMap_append]
    rw [same]
    exact .refl _

/-- A pass in front of flattening keeps trees joined. -/
theorem joined_bottomUp
    (fixed : ∀ o args, o.isRelational = false → rule (.op o args) = .op o args)
    (part : ∀ (c : Frame) (e f : Expr), Somewhere Regroups e f →
      Joined Regroups (rule (c.fill e)) (rule (c.fill f)))
    (h : Joined Regroups e f) : Joined Regroups (bottomUp rule e) (bottomUp rule f) :=
  h.bottomUp (bottomUp_of_fixed fixed) part

end Regroups

/-- Trees that differ in the order and the grouping of the operands of connectives and sums, and
in the order of the factors of products, have the same canonical form. -/
theorem canonical_eq_of_regrouped {e f : Expr} (h : Joined Regroups e f) :
    e.canonical = f.canonical := by
  have comm := Regroups.onCommutative
  apply canonical_eq_of_flattened
  have idioms := Regroups.joined_bottomUp (fun _ _ _ => rfl)
    (fun c _ _ => joined_expandIdiom comm c) h
  have folded := Regroups.joined_bottomUp
    (fun o args plain =>
      foldBoolEquality_of_ne (.inl (by cases o <;> simp_all [Operator.isRelational])))
    (fun c _ _ => joined_foldBoolEquality comm c) idioms
  have positive := Regroups.joined_bottomUp (fun _ _ _ => rfl)
    (fun c _ _ => joined_dropDoubleNegation comm c) folded
  have shifted := Regroups.joined_bottomUp
    (fun o args plain => shiftSubtraction_of_ne (.inl plain))
    (fun c _ _ => joined_shiftSubtraction comm c) positive
  exact shifted.bottomUp Regroups.bottomUp_flatten fun c _ _ => joined_flatten c

theorem canonical_eq_of_regrouped_names :
    (op .or [.op .and [.ident "a", .op .and [.ident "b", .ident "c"]], .ident "d"]).canonical =
      (op .or [.ident "d", .op .and [.ident "a", .ident "b", .ident "c"]]).canonical := by
  have spliced : Joined Regroups
      (.op .or [.op .and [.ident "a", .op .and [.ident "b", .ident "c"]], .ident "d"])
      (.op .or [.op .and [.ident "a", .ident "b", .ident "c"], .ident "d"]) :=
    .single (.inside (.operand .or [] [.ident "d"]) (.here (.splice (by decide) [.ident "a"] _ [])))
  have swapped : Joined Regroups
      (.op .or [.op .and [.ident "a", .ident "b", .ident "c"], .ident "d"])
      (.op .or [.ident "d", .op .and [.ident "a", .ident "b", .ident "c"]]) :=
    .single (.here (.reorder (by decide) (.swap _ _ _)))
  exact canonical_eq_of_regrouped (spliced.trans swapped)

/-- The tree is a truth value. -/
def isTruth (e : Expr) : Bool := e.truth?.isSome

/-- Behind negations and (in)equalities at the root stands a tree with the property. -/
def behind (p : Expr → Bool) : Expr → Bool
  | .not e => behind p e
  | .op o [a, b] => if o = .eq ∨ o = .ne then behind p a || behind p b else p (.op o [a, b])
  | e => p e

/-- Not both trees are truth values, and not both are differences, also behind negations and
(in)equalities. -/
structure Apart (a b : Expr) : Prop where
  truths : ¬(behind isTruth a = true ∧ behind isTruth b = true)
  differences : ¬(behind isDifference a = true ∧ behind isDifference b = true)

/-- The sides of an (in)equality change places, if they may. -/
inductive Exchanges (may : Expr → Expr → Prop) : Expr → Expr → Prop
  | exchange {o : Operator} {a b : Expr} (isEq : o = .eq ∨ o = .ne) (h : may a b) :
      Exchanges may (.op o [a, b]) (.op o [b, a])

/-- The property depends on the root alone, and no idiom has it behind its root. -/
structure OfRoot (p : Expr → Bool) : Prop where
  mapParts : ∀ (g : Expr → Expr) (e : Expr), p (e.mapParts g) = p e
  idioms : ∀ entry ∈ localIdioms, behind p entry.2 = false

theorem ofRoot_isTruth : OfRoot isTruth where
  mapParts g e := by cases e <;> rfl
  idioms := by simp [localIdioms, Expr.binary, Expr.apply, behind, isTruth, truth?]

theorem ofRoot_isDifference : OfRoot isDifference where
  mapParts := isDifference_mapParts
  idioms := by simp [localIdioms, Expr.binary, Expr.apply, behind, isDifference]

section Behind

variable {p : Expr → Bool} {rule : Expr → Expr}

/-- A rule that puts the property behind no root does not do so when carried through a tree. -/
theorem behind_bottomUp (ofRoot : OfRoot p)
    (keeps : ∀ e, behind p (rule e) = true → behind p e = true) (e : Expr)
    (h : behind p (bottomUp rule e) = true) : behind p e = true := by
  induction e using inductionOnParts with
  | node e ih =>
    rw [bottomUp_eq] at h
    have rebuilt := keeps _ h
    cases e with
    | not x =>
      rw [mapParts, behind] at rebuilt
      rw [behind]
      exact ih x (by simp [parts]) rebuilt
    | op o args =>
      rcases args with _ | ⟨a, _ | ⟨b, _ | ⟨c, rest⟩⟩⟩
      case cons.cons.nil =>
        have same := ofRoot.mapParts (bottomUp rule) (.op o [a, b])
        simp only [mapParts, List.map_cons, List.map_nil, behind] at rebuilt same ⊢
        split at rebuilt
        · next isEq =>
          rw [if_pos isEq, Bool.or_eq_true]
          rcases Bool.or_eq_true_iff.1 rebuilt with left | right
          · exact .inl (ih a (by simp [parts]) left)
          · exact .inr (ih b (by simp [parts]) right)
        · next other =>
          rw [if_neg other, ← same]
          exact rebuilt
      all_goals exact (ofRoot.mapParts _ _).symm.trans rebuilt
    | _ => exact (ofRoot.mapParts _ _).symm.trans rebuilt

theorem behind_expandIdiom (ofRoot : OfRoot p) (e : Expr)
    (h : behind p (expandIdiom e) = true) : behind p e = true := by
  unfold expandIdiom at h
  split at h
  · next name =>
    cases entry : localIdioms.lookup name with
    | none =>
      rw [entry] at h
      exact h
    | some t =>
      obtain ⟨front, back, table, -⟩ := List.lookup_eq_some_iff.1 entry
      rw [entry, Option.getD_some, ofRoot.idioms (name, t) (by simp [table])] at h
      cases h
  · exact h

theorem behind_foldBoolEquality (e : Expr) (h : behind p (foldBoolEquality e) = true) :
    behind p e = true := by
  have either : ∀ {value : Bool} {x : Expr},
      (behind p (if value then x else .not x) = true → behind p x = true) ∧
        (behind p (if value then .not x else x) = true → behind p x = true) := by
    intro value x
    cases value <;> exact ⟨id, id⟩
  unfold foldBoolEquality at h
  split at h
  · simp [behind, either.1 h]
  · simp [behind, either.1 h]
  · simp [behind, either.2 h]
  · simp [behind, either.2 h]
  · exact h

theorem behind_dropDoubleNegation (e : Expr) (h : behind p (dropDoubleNegation e) = true) :
    behind p e = true := by
  unfold dropDoubleNegation at h
  split at h
  · exact h
  · exact h

theorem Apart.bottomUp {a b : Expr} (apart : Apart a b)
    (keeps : ∀ {p : Expr → Bool}, OfRoot p → ∀ e, behind p (rule e) = true → behind p e = true) :
    Apart (bottomUp rule a) (bottomUp rule b) where
  truths := fun ⟨left, right⟩ => apart.truths
    ⟨behind_bottomUp ofRoot_isTruth (keeps ofRoot_isTruth) a left,
      behind_bottomUp ofRoot_isTruth (keeps ofRoot_isTruth) b right⟩
  differences := fun ⟨left, right⟩ => apart.differences
    ⟨behind_bottomUp ofRoot_isDifference (keeps ofRoot_isDifference) a left,
      behind_bottomUp ofRoot_isDifference (keeps ofRoot_isDifference) b right⟩

end Behind

namespace Exchanges

variable {rule : Expr → Expr} {e f : Expr}

theorem onCommutative {may : Expr → Expr → Prop} : OnCommutative (Exchanges may) := by
  rintro e f ⟨rfl | rfl, -⟩ <;> exact ⟨_, _, _, rfl, rfl, rfl⟩

theorem bottomUp_of_fixed (fixed : ∀ o args, rule (.op o args) = .op o args)
    (keeps : ∀ {p : Expr → Bool}, OfRoot p → ∀ e, behind p (rule e) = true → behind p e = true)
    (e f : Expr) (h : Exchanges Apart e f) :
    Joined (Exchanges Apart) (bottomUp rule e) (bottomUp rule f) := by
  obtain @⟨o, a, b, isEq, apart⟩ := h
  rw [bottomUp_op, bottomUp_op, fixed, fixed]
  exact .single (.here (.exchange isEq (apart.bottomUp keeps)))

theorem bottomUp_foldBoolEquality (e f : Expr) (h : Exchanges Apart e f) :
    Joined (Exchanges Apart) (bottomUp foldBoolEquality e) (bottomUp foldBoolEquality f) := by
  obtain @⟨o, a, b, isEq, apart⟩ := h
  have apart' := apart.bottomUp fun _ => behind_foldBoolEquality
  rw [bottomUp_op, bottomUp_op]
  simp only [List.map_cons, List.map_nil]
  generalize bottomUp foldBoolEquality a = a at apart' ⊢
  generalize bottomUp foldBoolEquality b = b at apart' ⊢
  rw [foldBoolEquality_pair isEq, foldBoolEquality_pair isEq]
  have root : ∀ {e : Expr} {value : Bool}, e.truth? = some value → behind isTruth e = true := by
    intro e value truth
    cases e <;> first | rfl | cases truth
  cases left : a.truth? with
  | none =>
    cases right : b.truth? with
    | none => exact .single (.here (.exchange isEq apart'))
    | some value => exact .refl _
  | some value =>
    cases right : b.truth? with
    | none => exact .refl _
    | some value' => exact absurd ⟨root left, root right⟩ apart'.truths

/-- A difference on one side only moves its subtrahend to the other, whichever side it is. -/
theorem shiftSubtraction_exchange {o : Operator} (isEq : o = .eq ∨ o = .ne) {a : Expr}
    (plain : a.isDifference = false) (b : Expr) :
    shiftSubtraction (.op o [a, b]) = .op o [(moveSubtrahends b a).2, (moveSubtrahends b a).1] ∧
      shiftSubtraction (.op o [b, a]) =
        .op o [(moveSubtrahends b a).1, (moveSubtrahends b a).2] := by
  have rel : o.isRelational = true := by rcases isEq with rfl | rfl <;> rfl
  have moved := moveSubtrahends_of_not
    (isDifference_moveSubtrahends_snd b plain) (moveSubtrahends b a).1
  rw [shiftSubtraction_pair rel, shiftSubtraction_pair rel, moved, moveSubtrahends_of_not plain]
  exact ⟨rfl, rfl⟩

theorem isDifference_shiftSubtraction (e : Expr) :
    (shiftSubtraction e).isDifference = true → e.isDifference = true := by
  unfold shiftSubtraction
  split
  · split
    · next o lhs rhs rel =>
      intro h
      cases o <;> first | rfl | cases h
    · exact id
  · exact id

theorem bottomUp_shiftSubtraction (e f : Expr) (h : Exchanges Apart e f) :
    Joined Permutes (bottomUp shiftSubtraction e) (bottomUp shiftSubtraction f) := by
  obtain @⟨o, a, b, isEq, apart⟩ := h
  have difference : ∀ e : Expr, (bottomUp shiftSubtraction e).isDifference = true →
      behind isDifference e = true := by
    intro e h
    rw [bottomUp_eq] at h
    have root := isDifference_shiftSubtraction _ h
    rw [ofRoot_isDifference.mapParts] at root
    unfold isDifference at root
    split at root
    · rfl
    · cases root
  have swap : ∀ x y : Expr, Joined Permutes (.op o [x, y]) (.op o [y, x]) := fun x y =>
    have comm : o.isCommutative = true := by rcases isEq with rfl | rfl <;> rfl
    .single (.here (.reorder comm (.swap y x [])))
  rw [bottomUp_op, bottomUp_op]
  simp only [List.map_cons, List.map_nil]
  cases left : (bottomUp shiftSubtraction a).isDifference with
  | false =>
    obtain ⟨first, second⟩ := shiftSubtraction_exchange isEq left (bottomUp shiftSubtraction b)
    rw [first, second]
    exact swap _ _
  | true =>
    cases right : (bottomUp shiftSubtraction b).isDifference with
    | false =>
      obtain ⟨first, second⟩ := shiftSubtraction_exchange isEq right (bottomUp shiftSubtraction a)
      rw [first, second]
      exact swap _ _
    | true => exact absurd ⟨difference a left, difference b right⟩ apart.differences

end Exchanges

/-- Trees that differ in the sides of (in)equalities have the same canonical form, if no exchange
is between two truth values or two differences. -/
theorem canonical_eq_of_exchanged {e f : Expr} (h : Joined (Exchanges Apart) e f) :
    e.canonical = f.canonical := by
  have comm : OnCommutative (Exchanges Apart) := Exchanges.onCommutative
  have commPermutes : OnCommutative Permutes := by
    rintro e f ⟨comm, -⟩
    exact ⟨_, _, _, comm, rfl, rfl⟩
  apply canonical_eq_of_flattened
  have idioms := h.bottomUp
    (Exchanges.bottomUp_of_fixed (fun _ _ => rfl) fun ofRoot => behind_expandIdiom ofRoot)
    fun c _ _ => joined_expandIdiom comm c
  have folded := idioms.bottomUp Exchanges.bottomUp_foldBoolEquality
    fun c _ _ => joined_foldBoolEquality comm c
  have positive := folded.bottomUp
    (Exchanges.bottomUp_of_fixed (fun _ _ => rfl) fun _ => behind_dropDoubleNegation)
    fun c _ _ => joined_dropDoubleNegation comm c
  have shifted := positive.bottomUp Exchanges.bottomUp_shiftSubtraction
    fun c _ _ => joined_shiftSubtraction commPermutes c
  exact shifted.bottomUp bottomUp_flatten_permutes fun c _ _ => joined_flatten c

theorem canonical_eq_of_exchanged_difference :
    (op .eq [.op .ne [.op .sub [.ident "a", .ident "b"], .ident "x"], .bool false]).canonical =
      (op .eq [.bool false, .op .ne [.ident "x", .op .sub [.ident "a", .ident "b"]]]).canonical := by
  have inner : Joined (Exchanges Apart)
      (.op .eq [.op .ne [.op .sub [.ident "a", .ident "b"], .ident "x"], .bool false])
      (.op .eq [.op .ne [.ident "x", .op .sub [.ident "a", .ident "b"]], .bool false]) :=
    .single (.inside (.operand .eq [] [.bool false])
      (.here (.exchange (.inr rfl) ⟨by decide, by decide⟩)))
  have outer : Joined (Exchanges Apart)
      (.op .eq [.op .ne [.ident "x", .op .sub [.ident "a", .ident "b"]], .bool false])
      (.op .eq [.bool false, .op .ne [.ident "x", .op .sub [.ident "a", .ident "b"]]]) :=
    .single (.here (.exchange (.inl rfl) ⟨by decide, by decide⟩))
  exact canonical_eq_of_exchanged (inner.trans outer)

/-- The canonical form of an equality between differences of names. -/
theorem canonical_eq_differences (a b c d : String) :
    (op .eq [.op .sub [.ident a, .ident b], .op .sub [.ident c, .ident d]]).canonical =
      .op .eq [.ident c, .op .add [.ident d, .op .sub [.ident a, .ident b]]] := by
  have first : Canonical.round
      (.op .eq [.op .sub [.ident a, .ident b], .op .sub [.ident c, .ident d]]) =
        .op .eq [.ident c, .op .add [.ident d, .op .sub [.ident a, .ident b]]] := by
    cbv
  have second : Canonical.round
      (.op .eq [.ident c, .op .add [.ident d, .op .sub [.ident a, .ident b]]]) =
        .op .eq [.ident c, .op .add [.ident d, .op .sub [.ident a, .ident b]]] := by
    cbv
  rw [canonical, Canonical.maxRounds, Canonical.rounds_succ, first,
    Canonical.rounds_of_settled second]

/-- Which of two differences stands on the left shows, unless they are the same. -/
theorem canonical_differences_eq_iff (a b c d : String) :
    (op .eq [.op .sub [.ident a, .ident b], .op .sub [.ident c, .ident d]]).canonical =
      (op .eq [.op .sub [.ident c, .ident d], .op .sub [.ident a, .ident b]]).canonical ↔
        a = c ∧ b = d := by
  rw [canonical_eq_differences, canonical_eq_differences]
  simp only [op.injEq, List.cons.injEq, ident.injEq, true_and, and_true]
  constructor
  · rintro ⟨rfl, rfl, -⟩
    exact ⟨rfl, rfl⟩
  · rintro ⟨rfl, rfl⟩
    exact ⟨rfl, rfl, rfl, rfl⟩

/-- The canonical form of an equality between truth values. -/
theorem canonical_eq_truths (b c : Bool) :
    (op .eq [.bool b, .bool c]).canonical = if b then .bool c else .not (.bool c) := by
  cases b <;> cases c <;> cbv

/-- Which of two truth values stands on the left shows, unless they are the same. -/
theorem canonical_truths_eq_iff (b c : Bool) :
    (op .eq [.bool b, .bool c]).canonical = (op .eq [.bool c, .bool b]).canonical ↔ b = c := by
  rw [canonical_eq_truths, canonical_eq_truths]
  cases b <;> cases c <;> simp

theorem canonical_ne_of_exchanged :
    (∃ e f, Expr.ofText "true == false" = .ok e ∧ Expr.ofText "false == true" = .ok f ∧
      Joined (Exchanges fun _ _ => True) e f ∧ e.canonical ≠ f.canonical) ∧
    ∃ e f, Expr.ofText "a - b == c - d" = .ok e ∧ Expr.ofText "c - d == a - b" = .ok f ∧
      Joined (Exchanges fun _ _ => True) e f ∧ e.canonical ≠ f.canonical := by
  constructor
  · refine ⟨.op .eq [.bool true, .bool false], .op .eq [.bool false, .bool true], by cbv, by cbv,
      .single (.here (.exchange (.inl rfl) trivial)), ?_⟩
    rw [Ne, canonical_truths_eq_iff]
    decide
  · refine ⟨.op .eq [.op .sub [.ident "a", .ident "b"], .op .sub [.ident "c", .ident "d"]],
      .op .eq [.op .sub [.ident "c", .ident "d"], .op .sub [.ident "a", .ident "b"]], by cbv,
      by cbv, .single (.here (.exchange (.inl rfl) trivial)), ?_⟩
    rw [Ne, canonical_differences_eq_iff]
    decide

end Expr
end PredicateStrength
