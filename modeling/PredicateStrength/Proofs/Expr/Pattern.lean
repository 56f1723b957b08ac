import Mathlib
import PredicateStrength.Proofs.Expr.Rearrangement

/-!
# What the rules look for

Each rule of a pass looks for nodes of a certain shape with parts of a certain shape, at most two
levels down. Such a pattern is found in a rebuilt node only where it was before, if the rule
neither makes the patterns of the parts nor leaves the whole pattern in what it returns.

Main statements: a rule that reflects what a pattern asks of the parts keeps trees free of the
pattern (`Free.bottomUp`), and rearranging operands brings no defect (`Rearranges.free`).
-/
namespace PredicateStrength

open PredicateStrength.Expr
open PredicateStrength.Canonical

namespace Expr

/-- What a node is without its parts. -/
inductive Shape where
  | truth
  | negation
  | zero
  | idiom
  | mask
  | difference
  | masking
  | equality
  | comparison
  | joined (o : Operator)
  | bareCall

/-- The node has the shape. -/
def Shape.Fits : Shape → Expr → Prop
  | .truth, e => ∃ b, e = .bool b
  | .negation, e => ∃ x, e = .not x
  | .zero, e => e.isZeroLiteral = true
  | .idiom, e => ∃ name t, e = .ident name ∧ localIdioms.lookup name = some t
  | .mask, e => ∃ name, e = .ident name ∧ name ∈ flagIdioms.map Prod.fst
  | .difference, e => e.isDifference = true
  | .masking, e => ∃ a b, e = .op .bitAnd [a, b]
  | .equality, e => ∃ o a b, e = .op o [a, b] ∧ (o = .eq ∨ o = .ne)
  | .comparison, e => ∃ o a b, e = .op o [a, b] ∧ o.isRelational = true
  | .joined o, e => ∃ args, e = .op o args ∧ o.isAssociative = true
  | .bareCall, e => ∃ f, e = .call f []

/-- The shape of a node, and patterns each of which some part of the node has. -/
structure Pattern where
  shape : Shape
  sought : List Pattern

/-- The shape alone. -/
def Shape.alone (s : Shape) : Pattern := ⟨s, []⟩

/-- The root has the pattern. -/
def Matches (e : Expr) (p : Pattern) : Prop :=
  p.shape.Fits e ∧ ∀ q ∈ p.sought, ∃ c ∈ e.parts, c.Matches q
termination_by p
decreasing_by
  cases p
  have := List.sizeOf_lt_of_mem ‹_›
  simp at *
  omega

theorem matches_alone {s : Shape} {e : Expr} : e.Matches s.alone ↔ s.Fits e := by
  rw [Matches]
  simp [Shape.alone]

/-- No node of the tree has the pattern. -/
def Free (p : Pattern) (e : Expr) : Prop := Everywhere (fun c => ¬c.Matches p) e

namespace Pattern

/-- A value with a mask on either side. -/
def masked : Pattern := ⟨.masking, [Shape.mask.alone]⟩

/-- What the rules look for in a part. -/
def kinds : List Pattern :=
  [Shape.negation.alone, Shape.truth.alone, Shape.difference.alone, Shape.zero.alone,
    Shape.idiom.alone, Shape.mask.alone, masked, (Shape.joined .and).alone,
    (Shape.joined .or).alone, (Shape.joined .add).alone]

def doubleNegation : Pattern := ⟨.negation, [Shape.negation.alone]⟩

/-- A comparison for (in)equality with a truth value. -/
def truthCompared : Pattern := ⟨.equality, [Shape.truth.alone]⟩

/-- A comparison with a difference. -/
def differenceCompared : Pattern := ⟨.comparison, [Shape.difference.alone]⟩

/-- An associative operator directly below itself. -/
def nested (o : Operator) : Pattern := ⟨.joined o, [(Shape.joined o).alone]⟩

/-- A call of an idiom. -/
def idiomCalled : Pattern := ⟨.bareCall, [Shape.idiom.alone]⟩

/-- A comparison of a masked value with zero. -/
def flagCompared : Pattern := ⟨.equality, [Shape.zero.alone, masked]⟩

/-- What the rules take out of trees. -/
def defects : List Pattern :=
  [doubleNegation, truthCompared, differenceCompared, nested .and, nested .or, nested .add,
    idiomCalled, flagCompared]

end Pattern

open Pattern

section

variable {rule : Expr → Expr} {p k d : Pattern} {e f : Expr} {o : Operator} {as bs : List Expr}

theorem sought_subset_kinds (h : d ∈ defects) : d.sought ⊆ kinds := by
  simp only [defects, List.mem_cons, List.not_mem_nil, or_false] at h
  rcases h with rfl | rfl | rfl | rfl | rfl | rfl | rfl | rfl <;>
    simp [doubleNegation, truthCompared, differenceCompared, nested, idiomCalled, flagCompared,
      kinds]

theorem alone_or_masked (h : k ∈ kinds) : (∃ s : Shape, k = s.alone) ∨ k = masked := by
  simp only [kinds, List.mem_cons, List.not_mem_nil, or_false] at h
  rcases h with rfl | rfl | rfl | rfl | rfl | rfl | rfl | rfl | rfl | rfl <;>
    first | exact .inl ⟨_, rfl⟩ | exact .inr rfl

theorem sought_subset_kinds_of_kind (h : k ∈ kinds) : k.sought ⊆ kinds := by
  rcases alone_or_masked h with ⟨s, rfl⟩ | rfl
  · exact List.nil_subset _
  · simp [masked, kinds]

/-- A pattern that seeks a single shape. -/
theorem matches_seeking {s t : Shape} :
    e.Matches ⟨s, [t.alone]⟩ ↔ s.Fits e ∧ ∃ c ∈ e.parts, t.Fits c := by
  rw [Matches]
  simp only [List.mem_singleton, forall_eq, matches_alone]

theorem matches_doubleNegation : e.Matches doubleNegation ↔ ∃ x, e = .not (.not x) := by
  rw [doubleNegation, matches_seeking]
  constructor
  · rintro ⟨⟨x, rfl⟩, c, mem, y, rfl⟩
    exact ⟨y, congrArg _ (List.mem_singleton.1 mem).symm⟩
  · rintro ⟨x, rfl⟩
    exact ⟨⟨_, rfl⟩, _, List.mem_cons_self, x, rfl⟩

theorem exists_mem_pair {a b : Expr} {q : Expr → Prop} : (∃ c ∈ [a, b], q c) ↔ q a ∨ q b := by
  simp

theorem matches_truthCompared : e.Matches truthCompared ↔
    ∃ o a b, e = .op o [a, b] ∧ (o = .eq ∨ o = .ne) ∧ ((∃ v, a = .bool v) ∨ ∃ v, b = .bool v) := by
  rw [truthCompared, matches_seeking]
  constructor
  · rintro ⟨⟨o, a, b, rfl, isEq⟩, part⟩
    exact ⟨o, a, b, rfl, isEq, exists_mem_pair.1 part⟩
  · rintro ⟨o, a, b, rfl, isEq, part⟩
    exact ⟨⟨o, a, b, rfl, isEq⟩, exists_mem_pair.2 part⟩

theorem matches_differenceCompared : e.Matches differenceCompared ↔
    ∃ o a b, e = .op o [a, b] ∧ o.isRelational = true ∧
      (a.isDifference = true ∨ b.isDifference = true) := by
  rw [differenceCompared, matches_seeking]
  constructor
  · rintro ⟨⟨o, a, b, rfl, rel⟩, part⟩
    exact ⟨o, a, b, rfl, rel, exists_mem_pair.1 part⟩
  · rintro ⟨o, a, b, rfl, rel, part⟩
    exact ⟨⟨o, a, b, rfl, rel⟩, exists_mem_pair.2 part⟩

theorem matches_nested : e.Matches (nested o) ↔
    o.isAssociative = true ∧ ∃ args inner, e = .op o args ∧ .op o inner ∈ args := by
  rw [nested, matches_seeking]
  constructor
  · rintro ⟨⟨args, rfl, assoc⟩, c, mem, inner, rfl, -⟩
    exact ⟨assoc, args, inner, rfl, mem⟩
  · rintro ⟨assoc, args, inner, rfl, mem⟩
    exact ⟨⟨args, rfl, assoc⟩, _, mem, inner, rfl, assoc⟩

theorem matches_idiomCalled : e.Matches idiomCalled ↔
    ∃ name t, e = .call (.ident name) [] ∧ localIdioms.lookup name = some t := by
  rw [idiomCalled, matches_seeking]
  constructor
  · rintro ⟨⟨f, rfl⟩, c, mem, name, t, rfl, entry⟩
    cases List.mem_singleton.1 mem
    exact ⟨name, t, rfl, entry⟩
  · rintro ⟨name, t, rfl, entry⟩
    exact ⟨⟨_, rfl⟩, _, List.mem_cons_self, name, t, rfl, entry⟩

theorem matches_masked : e.Matches masked ↔ ∃ a b, e = .op .bitAnd [a, b] ∧
    ∃ mask ∈ flagIdioms.map Prod.fst, a = .ident mask ∨ b = .ident mask := by
  rw [masked, matches_seeking]
  constructor
  · rintro ⟨⟨a, b, rfl⟩, part⟩
    rcases exists_mem_pair.1 part with ⟨mask, side, known⟩ | ⟨mask, side, known⟩
    · exact ⟨a, b, rfl, mask, known, .inl side⟩
    · exact ⟨a, b, rfl, mask, known, .inr side⟩
  · rintro ⟨a, b, rfl, mask, known, side | side⟩
    · exact ⟨⟨a, b, rfl⟩, exists_mem_pair.2 (.inl ⟨mask, side, known⟩)⟩
    · exact ⟨⟨a, b, rfl⟩, exists_mem_pair.2 (.inr ⟨mask, side, known⟩)⟩

theorem matches_masked_iff_flagTest? : e.Matches masked ↔ (flagTest? e).isSome = true := by
  rw [matches_masked]
  constructor
  · rintro ⟨a, b, rfl, mask, mem, side⟩
    rw [flagTest?, List.findSome?_isSome_iff]
    obtain ⟨entry, known, rfl⟩ := List.mem_map.1 mem
    refine ⟨entry, known, ?_⟩
    rcases side with rfl | rfl
    · dsimp only
      split
      · rfl
      · rw [if_pos rfl]
        rfl
    · simp
  · intro h
    unfold flagTest? at h
    split at h
    · next a b =>
      obtain ⟨entry, known, found⟩ := List.findSome?_isSome_iff.1 h
      refine ⟨a, b, rfl, entry.1, List.mem_map_of_mem known, ?_⟩
      dsimp only at found
      split at found
      · next right => exact .inr right
      · split at found
        · next left => exact .inl left
        · cases found
    · cases h

theorem matches_flagCompared : e.Matches flagCompared ↔
    ∃ o a b, e = .op o [a, b] ∧ (o = .eq ∨ o = .ne) ∧
      ((comparedWithZero? a b).bind flagTest?).isSome = true := by
  have apart : ∀ c : Expr, c.isZeroLiteral = true → ¬(flagTest? c).isSome = true := by
    intro c zero
    cases c with
    | num digits => simp [flagTest?]
    | _ => cases zero
  rw [Matches]
  simp only [flagCompared, List.forall_mem_cons, List.not_mem_nil, false_implies, implies_true,
    and_true, matches_alone, matches_masked_iff_flagTest?]
  constructor
  · rintro ⟨⟨o, a, b, rfl, isEq⟩, zero, masked⟩
    refine ⟨o, a, b, rfl, isEq, ?_⟩
    have zero : a.isZeroLiteral = true ∨ b.isZeroLiteral = true := exists_mem_pair.1 zero
    have masked := exists_mem_pair.1 masked
    unfold comparedWithZero?
    split
    · next right => exact masked.resolve_right (apart b right)
    · next right =>
      have left := zero.resolve_right right
      rw [if_pos left]
      exact masked.resolve_left (apart a left)
  · rintro ⟨o, a, b, rfl, isEq, flag⟩
    refine ⟨⟨o, a, b, rfl, isEq⟩, exists_mem_pair.2 ?_, exists_mem_pair.2 ?_⟩
    · unfold comparedWithZero? at flag
      split at flag
      · next right => exact .inr right
      · split at flag
        · next left => exact .inl left
        · cases flag
    · unfold comparedWithZero? at flag
      split at flag
      · exact .inl flag
      · split at flag
        · exact .inr flag
        · cases flag

theorem fits_mapParts (s : Shape) (g : Expr → Expr) (e : Expr) :
    s.Fits (e.mapParts g) ↔ s.Fits e := by
  cases s with
  | difference => rw [Shape.Fits, Shape.Fits, isDifference_mapParts]
  | _ => cases e <;> simp [Shape.Fits, mapParts, isZeroLiteral, ← List.length_eq_two]

/-- A rebuilt node has a pattern only if the node has, where the new parts have what the pattern
seeks only if the old ones have. -/
theorem Matches.of_mapParts {g : Expr → Expr} (h : (e.mapParts g).Matches p)
    (parts : ∀ q ∈ p.sought, ∀ c ∈ e.parts, (g c).Matches q → c.Matches q) : e.Matches p := by
  rw [Matches, fits_mapParts, parts_mapParts] at h
  rw [Matches]
  refine ⟨h.1, fun q mem => ?_⟩
  obtain ⟨c', mem', found⟩ := h.2 q mem
  obtain ⟨c, inside, rfl⟩ := List.mem_map.1 mem'
  exact ⟨c, inside, parts q mem c inside found⟩

/-- The rule, carried through trees, puts the pattern at no root. -/
def Reflects (rule : Expr → Expr) (p : Pattern) : Prop :=
  ∀ e, (bottomUp rule e).Matches p → e.Matches p

theorem Reflects.of_root (root : ∀ e, (rule e).Matches p → e.Matches p)
    (parts : ∀ q ∈ p.sought, Reflects rule q) : Reflects rule p := by
  intro e h
  rw [bottomUp_eq] at h
  exact (root _ h).of_mapParts fun q mem c _ => parts q mem c

/-- A rule reflects the kinds that it puts at no root. -/
theorem reflects_kind (root : ∀ k ∈ kinds, ∀ e, (rule e).Matches k → e.Matches k)
    (h : k ∈ kinds) : Reflects rule k := by
  have alone : ∀ s : Shape, s.alone ∈ kinds → Reflects rule s.alone := fun s mem =>
    .of_root (root _ mem) (by simp [Shape.alone])
  rcases alone_or_masked h with ⟨s, rfl⟩ | rfl
  · exact alone s h
  · refine .of_root (root _ h) fun q asked => ?_
    cases List.mem_singleton.1 asked
    exact alone .mask (by simp [kinds])

/-- A rule that keeps nodes free of a pattern keeps trees free of it, if it reflects what the
pattern seeks. -/
theorem Free.bottomUp (h : Free p e)
    (sought : Everywhere
      (fun c => ∀ q ∈ p.sought, (bottomUp rule c).Matches q → c.Matches q) e)
    (keeps : ∀ e, Free p e → Free p (rule e)) : Free p (Expr.bottomUp rule e) := by
  induction e using inductionOnParts with
  | node e ih =>
    rw [bottomUp_eq]
    refine keeps _ (.node (fun found => h.root ?_) fun c mem => ?_)
    · exact found.of_mapParts fun q asked c mem => (sought.part mem).root q asked
    · rw [parts_mapParts] at mem
      obtain ⟨c, inside, rfl⟩ := List.mem_map.1 mem
      exact ih c inside (h.part inside) (sought.part inside)

/-- The operands are in another order; nested uses of an associative operator may have been joined
before. -/
inductive Rearranged : Expr → Expr → Prop
  | same (e : Expr) : Rearranged e e
  | perm {o : Operator} {as bs : List Expr} (h : bs.Perm as) : Rearranged (.op o as) (.op o bs)
  | splice {o : Operator} {as bs : List Expr} (assoc : o.isAssociative = true)
      (h : bs.Perm (Canonical.splice o as)) : Rearranged (.op o as) (.op o bs)

theorem fits_of_length (s : Shape) (h : as.length = bs.length) :
    s.Fits (.op o as) ↔ s.Fits (.op o bs) := by
  cases s <;> simp [Shape.Fits, isZeroLiteral, isDifference_op, ← List.length_eq_two, h]

theorem matches_of_perm (h : bs.Perm as) (found : Matches (.op o bs) p) : Matches (.op o as) p := by
  rw [Matches, fits_of_length p.shape h.length_eq] at found
  rw [Matches]
  refine ⟨found.1, fun q mem => ?_⟩
  obtain ⟨c, inside, part⟩ := found.2 q mem
  exact ⟨c, h.mem_iff.1 inside, part⟩

/-- All that is seen of an associative operator without its operands is that it joins them. -/
theorem eq_joined_of_fits (assoc : o.isAssociative = true) {s : Shape} (fits : s.Fits (.op o as)) :
    s = .joined o := by
  cases s with
  | joined p =>
    obtain ⟨args, same, -⟩ := fits
    cases same
    rfl
  | difference =>
    obtain ⟨rfl, -⟩ := isDifference_op.1 fits
    cases assoc
  | masking =>
    obtain ⟨a, b, same⟩ := fits
    cases same
    cases assoc
  | equality =>
    obtain ⟨o', a, b, same, rfl | rfl⟩ := fits <;> cases same <;> cases assoc
  | comparison =>
    obtain ⟨o', a, b, same, rel⟩ := fits
    cases same
    cases o <;> cases assoc <;> cases rel
  | _ => simp [Shape.Fits, isZeroLiteral] at fits

theorem Rearranged.matches_kind (h : Rearranged e f) (kind : k ∈ kinds) (found : f.Matches k) :
    e.Matches k := by
  cases h with
  | same => exact found
  | perm h => exact matches_of_perm h found
  | @splice o as bs assoc h =>
    rw [Matches] at found
    have shape := eq_joined_of_fits assoc found.1
    rcases alone_or_masked kind with ⟨s, rfl⟩ | rfl
    · obtain rfl : s = .joined o := shape
      exact matches_alone.2 ⟨as, rfl, assoc⟩
    · cases shape

/-- What is spliced in for an operand: the operand itself, or what it joins. -/
theorem mem_operands {a b : Expr} (h : a ∈ operands o b) :
    (a = b ∧ ∀ args, b ≠ .op o args) ∨ ∃ args, b = .op o args ∧ a ∈ args := by
  cases b with
  | op q args =>
    rw [operands] at h
    split at h
    · next same => exact .inr ⟨args, by rw [same], h⟩
    · next other =>
      refine .inl ⟨List.mem_singleton.1 h, fun args' same => other ?_⟩
      cases same
      rfl
  | _ => exact .inl ⟨List.mem_singleton.1 h, by simp⟩

theorem splice_eq_self (h : ∀ a ∈ as, ∀ args, a ≠ .op o args) : Canonical.splice o as = as := by
  have single : ∀ a ∈ as, operands o a = [a] := by
    intro a mem
    cases a with
    | op q args =>
      have other : q ≠ o := fun same => h _ mem args (by rw [same])
      rw [operands, if_neg other]
    | _ => rfl
  rw [Canonical.splice, List.flatMap_congr single, List.flatMap_singleton']

/-- The only defect of an associative operator is to be nested. -/
theorem eq_nested_of_fits (assoc : o.isAssociative = true) (defect : d ∈ defects)
    (fits : d.shape.Fits (.op o as)) : d = nested o := by
  have shape := eq_joined_of_fits assoc fits
  simp only [defects, List.mem_cons, List.not_mem_nil, or_false] at defect
  rcases defect with rfl | rfl | rfl | rfl | rfl | rfl | rfl | rfl <;> cases shape <;> rfl

theorem Rearranged.free (h : Rearranged e f) (defect : d ∈ defects) (free : Free d e) :
    Free d f := by
  have perm : ∀ {o as bs}, bs.Perm as → Free d (.op o as) → Free d (.op o bs) := by
    intro o as bs h free
    exact .node (fun found => free.root (matches_of_perm h found))
      fun c mem => free.part (h.mem_iff.1 mem)
  cases h with
  | same => exact free
  | perm h => exact perm h free
  | @splice o as bs assoc h =>
    by_cases same : d = nested o
    · subst same
      have flat : ∀ a ∈ as, ∀ args, a ≠ .op o args := by
        rintro _ mem args rfl
        exact free.root (matches_nested.2 ⟨assoc, as, args, rfl, mem⟩)
      rw [splice_eq_self flat] at h
      exact perm h free
    · refine .node (fun found => same ?_) fun c mem => ?_
      · rw [Matches] at found
        exact eq_nested_of_fits assoc defect found.1
      · obtain ⟨b, inside, spliced⟩ := List.mem_flatMap.1 (h.mem_iff.1 mem)
        rcases mem_operands spliced with ⟨rfl, -⟩ | ⟨args, rfl, part⟩
        · exact free.part inside
        · exact (free.part inside).part part

/-- The rule rearranges operands at most. -/
def Rearranges (rule : Expr → Expr) : Prop := ∀ e, Rearranged e (rule e)

theorem Rearranges.reflects (h : Rearranges rule) (kind : k ∈ kinds) : Reflects rule k :=
  reflects_kind (fun _ kind e => (h e).matches_kind kind) kind

/-- Rearranging operands brings no defect. -/
theorem Rearranges.free (h : Rearranges rule) (defect : d ∈ defects) (free : Free d e) :
    Free d (bottomUp rule e) :=
  Free.bottomUp free
    (.of_forall (fun c _ asked => h.reflects (sought_subset_kinds defect asked) c) e)
    fun e => (h e).free defect

end

end Expr

namespace Canonical

theorem rearranges_flatten : Rearranges flatten := by
  intro e
  cases e with
  | op o args =>
    rw [flatten]
    split
    · next assoc => exact .splice assoc (.refl _)
    · exact .same _
  | _ => exact .same _

theorem rearranges_normalizeSum : Rearranges normalizeSum := by
  intro e
  unfold normalizeSum
  split
  · exact .splice rfl (Sorting.sort_perm cmp _)
  · exact .same _

theorem rearranges_sortCommutative : Rearranges sortCommutative := by
  intro e
  cases e with
  | op o args =>
    rw [sortCommutative]
    split
    · exact .perm (Sorting.sort_perm cmp args)
    · exact .same _
  | _ => exact .same _

theorem rearranges_orderEquality : Rearranges orderEquality := by
  have swap : ∀ o a b, Rearranged (.op o [a, b])
      (if cmp b a = .lt then .op o [b, a] else .op o [a, b]) := by
    intro o a b
    split
    · exact .perm (.swap a b [])
    · exact .same _
  intro e
  unfold orderEquality
  split
  · exact swap .eq _ _
  · exact swap .ne _ _
  · exact .same _

end Canonical
end PredicateStrength
