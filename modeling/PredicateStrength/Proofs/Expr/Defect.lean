import Mathlib
import PredicateStrength.Proofs.Expr.Pattern

/-!
# What the rules leave

Each rule takes its own defect out of a tree, and a node without the defect stays as it is. A rule
brings defects of others back only through what it puts at the root: the bool folding and the
double negation bring out parts, the flag test brings in negations, the others bring in nothing
that a rule looks for.

Main statements: for each rule, the form that it leaves (`free_idiomCalled`, `free_doubleNegation`,
`free_differenceCompared`, `free_nested`, `free_lasting_expandFlag`), and the node that it does not
change (`foldBoolEquality_of_not_matches` and its like).
-/
namespace PredicateStrength

open PredicateStrength.Expr
open PredicateStrength.Expr.Pattern
open PredicateStrength.Canonical

namespace Expr

variable {p d k : Pattern} {e : Expr} {o : Operator} {args : List Expr}

/-- Nothing in the tree is of a kind that the rules look for. -/
def Kindless (e : Expr) : Prop := Everywhere (fun c => ∀ k ∈ kinds, ¬c.Matches k) e

theorem Kindless.free (h : Kindless e) (sought : ∃ q ∈ p.sought, q.shape.alone ∈ kinds) :
    Free p e := by
  obtain ⟨q, asked, kind⟩ := sought
  induction e using inductionOnParts with
  | node e ih =>
    refine .node (fun found => ?_) fun c mem => ih c mem (h.part mem)
    rw [Matches] at found
    obtain ⟨c, mem, part⟩ := found.2 q asked
    rw [Matches] at part
    exact (h.part mem).root _ kind (matches_alone.2 part.1)

/-- A defect needs a part of some kind. -/
theorem exists_sought (h : d ∈ defects) : ∃ q ∈ d.sought, q.shape.alone ∈ kinds := by
  simp only [defects, List.mem_cons, List.not_mem_nil, or_false] at h
  rcases h with rfl | rfl | rfl | rfl | rfl | rfl | rfl | rfl <;>
    exact ⟨_, List.mem_cons_self, by simp [kinds, Shape.alone]⟩

theorem not_matches_call {f : Expr} (h : k ∈ kinds) : ¬Matches (.call f args) k := by
  intro found
  rw [Matches] at found
  have fits := found.1
  simp only [kinds, List.mem_cons, List.not_mem_nil, or_false] at h
  rcases h with rfl | rfl | rfl | rfl | rfl | rfl | rfl | rfl | rfl | rfl <;>
    simp [Shape.alone, Shape.Fits, masked, isZeroLiteral, isDifference] at fits

theorem not_matches_eq (h : k ∈ kinds) : ¬Matches (.op .eq args) k := by
  intro found
  rw [Matches] at found
  have fits := found.1
  simp only [kinds, List.mem_cons, List.not_mem_nil, or_false] at h
  rcases h with rfl | rfl | rfl | rfl | rfl | rfl | rfl | rfl | rfl | rfl <;>
    simp [Shape.alone, Shape.Fits, masked, isZeroLiteral, isDifference_op] at fits

theorem not_matches_ident {name : String} (idiom : localIdioms.lookup name = none)
    (mask : name ∉ flagIdioms.map Prod.fst) (h : k ∈ kinds) : ¬Matches (.ident name) k := by
  intro found
  rw [Matches] at found
  have fits := found.1
  rcases alone_or_masked h with ⟨s, rfl⟩ | rfl
  · cases s with
    | idiom =>
      obtain ⟨name, t, same, entry⟩ := fits
      cases same
      cases idiom.symm.trans entry
    | mask =>
      obtain ⟨name, same, known⟩ := fits
      cases same
      exact mask known
    | _ => simp [Shape.alone, Shape.Fits, isZeroLiteral, isDifference] at fits
  · obtain ⟨a, b, same⟩ := fits
    cases same

/-- The idioms stand for names that are none themselves, a call of one and comparisons of these. -/
theorem everywhere_idiom {q : Expr → Prop}
    (name : ∀ n, localIdioms.lookup n = none → n ∉ flagIdioms.map Prod.fst → q (.ident n))
    (call : ∀ f, q (.call f [])) (eq : ∀ a b, q a → q b → q (.op .eq [a, b])) :
    ∀ entry ∈ localIdioms, Everywhere q entry.2 := by
  have ident : ∀ n, localIdioms.lookup n = none → n ∉ flagIdioms.map Prod.fst →
      Everywhere q (.ident n) := fun n idiom mask => .node (name n idiom mask) (by simp [parts])
  have sender : Everywhere q (.ident "msg.sender") := ident _ (by decide) (by decide)
  have admin : Everywhere q (.ident "admin") := ident _ (by decide) (by decide)
  have owner : Everywhere q (.call (.ident "owner") []) :=
    .node (call _) (List.forall_mem_singleton.2 (ident _ (by decide) (by decide)))
  simp only [localIdioms, List.forall_mem_cons]
  exact ⟨.pair (eq _ _ sender.root owner.root) sender owner,
    .pair (eq _ _ sender.root admin.root) sender admin, sender, by simp⟩

theorem kindless_idiom : ∀ entry ∈ localIdioms, Kindless entry.2 :=
  everywhere_idiom (fun _ idiom mask _ kind => not_matches_ident idiom mask kind)
    (fun _ _ => not_matches_call) fun _ _ _ _ _ => not_matches_eq

/-- Only operators have the shape. -/
def Shape.OfOperator (s : Shape) : Prop := ∀ e, s.Fits e → ∃ o args, e = .op o args

/-- A double negation in front of a tree of the kind. -/
def Pattern.doublyNegated (k : Pattern) : Pattern := ⟨.negation, [⟨.negation, [k]⟩]⟩

theorem matches_doublyNegated :
    e.Matches (doublyNegated k) ↔ ∃ x, e = .not (.not x) ∧ x.Matches k := by
  rw [Matches]
  simp only [doublyNegated, List.mem_singleton, forall_eq]
  constructor
  · rintro ⟨⟨x, rfl⟩, c, mem, inner⟩
    cases List.mem_singleton.1 mem
    rw [Matches] at inner
    obtain ⟨⟨y, rfl⟩, part⟩ := inner
    obtain ⟨c, mem, found⟩ := part k List.mem_cons_self
    cases List.mem_singleton.1 mem
    exact ⟨_, rfl, found⟩
  · rintro ⟨x, rfl, found⟩
    refine ⟨⟨_, rfl⟩, _, List.mem_cons_self, ?_⟩
    rw [Matches]
    refine ⟨⟨x, rfl⟩, ?_⟩
    rintro q mem
    cases List.mem_singleton.1 mem
    exact ⟨x, List.mem_cons_self, found⟩

end Expr

namespace Canonical

variable {p d k : Pattern} {e f : Expr} {o : Operator} {args : List Expr}

theorem expandIdiom_of_not_matches (h : ¬e.Matches idiomCalled) : expandIdiom e = e := by
  unfold expandIdiom
  split
  · next name =>
    cases entry : localIdioms.lookup name with
    | none => rfl
    | some t => exact absurd (matches_idiomCalled.2 ⟨name, t, rfl, entry⟩) h
  · rfl

theorem kindless_expandIdiom (h : e.Matches idiomCalled) : Kindless (expandIdiom e) := by
  obtain ⟨name, t, rfl, entry⟩ := matches_idiomCalled.1 h
  obtain ⟨front, back, table, -⟩ := List.lookup_eq_some_iff.1 entry
  rw [expandIdiom, entry]
  exact kindless_idiom (name, t) (by simp [table])

theorem reflects_expandIdiom (kind : k ∈ kinds) : Reflects expandIdiom k := by
  refine reflects_kind (fun k kind e found => ?_) kind
  by_cases call : e.Matches idiomCalled
  · exact absurd found ((kindless_expandIdiom call).root k kind)
  · rwa [expandIdiom_of_not_matches call] at found

/-- The idioms bring in nothing that is looked for in parts. -/
theorem free_expandIdiom (sought : ∃ q ∈ p.sought, q.shape.alone ∈ kinds)
    (reflects : ∀ q ∈ p.sought, Reflects expandIdiom q) (free : Free p e) :
    Free p (bottomUp expandIdiom e) := by
  refine free.bottomUp (.of_forall (fun c q asked => reflects q asked c) e) fun e free => ?_
  by_cases call : e.Matches idiomCalled
  · exact (kindless_expandIdiom call).free sought
  · rwa [expandIdiom_of_not_matches call]

theorem free_expandIdiom_of_defect (defect : d ∈ defects) (free : Free d e) :
    Free d (bottomUp expandIdiom e) :=
  free_expandIdiom (exists_sought defect)
    (fun _ asked => reflects_expandIdiom (sought_subset_kinds defect asked)) free

theorem free_doublyNegated_expandIdiom (kind : k ∈ kinds) (free : Free (doublyNegated k) e) :
    Free (doublyNegated k) (bottomUp expandIdiom e) := by
  have negation : Shape.negation.alone ∈ kinds := by simp [kinds]
  refine free_expandIdiom ⟨_, List.mem_cons_self, negation⟩ (fun q asked => ?_) free
  cases List.mem_singleton.1 asked
  refine .of_root (fun e found => ?_) fun q asked => ?_
  · by_cases call : e.Matches idiomCalled
    · rw [Matches] at found
      exact absurd (matches_alone.2 found.1) ((kindless_expandIdiom call).root _ negation)
    · rwa [expandIdiom_of_not_matches call] at found
  · cases List.mem_singleton.1 asked
    exact reflects_expandIdiom kind

theorem free_idiomCalled (e : Expr) : Free idiomCalled (bottomUp expandIdiom e) := by
  refine .bottomUp_of_parts (fun e parts => ?_) e
  by_cases call : e.Matches idiomCalled
  · exact (kindless_expandIdiom call).free (exists_sought (by simp [defects]))
  · rw [expandIdiom_of_not_matches call]
    exact .node call parts

theorem foldBoolEquality_of_not_matches (h : ¬e.Matches truthCompared) :
    foldBoolEquality e = e := by
  unfold foldBoolEquality
  split
  · exact absurd (matches_truthCompared.2 ⟨_, _, _, rfl, .inl rfl, .inl ⟨_, rfl⟩⟩) h
  · exact absurd (matches_truthCompared.2 ⟨_, _, _, rfl, .inl rfl, .inr ⟨_, rfl⟩⟩) h
  · exact absurd (matches_truthCompared.2 ⟨_, _, _, rfl, .inr rfl, .inl ⟨_, rfl⟩⟩) h
  · exact absurd (matches_truthCompared.2 ⟨_, _, _, rfl, .inr rfl, .inr ⟨_, rfl⟩⟩) h
  · rfl

theorem dropDoubleNegation_of_not_matches (h : ¬e.Matches doubleNegation) :
    dropDoubleNegation e = e := by
  unfold dropDoubleNegation
  split
  · exact absurd (matches_doubleNegation.2 ⟨_, rfl⟩) h
  · rfl

/-- What is left of a double negation is a part of its part. -/
theorem everywhere_dropDoubleNegation {q : Expr → Prop} (parts : ∀ c ∈ e.parts, Everywhere q c)
    (root : ¬e.Matches doubleNegation → q e) : Everywhere q (dropDoubleNegation e) := by
  by_cases double : e.Matches doubleNegation
  · obtain ⟨x, rfl⟩ := matches_doubleNegation.1 double
    exact (parts _ List.mem_cons_self).part List.mem_cons_self
  · rw [dropDoubleNegation_of_not_matches double]
    exact .node (root double) parts

theorem free_doubleNegation (e : Expr) : Free doubleNegation (bottomUp dropDoubleNegation e) :=
  .bottomUp_of_parts (fun _ parts => everywhere_dropDoubleNegation parts id) e

/-- Where double negations stand in front of no kind, none comes to light when they are dropped. -/
theorem reflects_dropDoubleNegation (plain : ∀ k ∈ kinds, Free (doublyNegated k) e) :
    Everywhere (fun c => ∀ k ∈ kinds, (bottomUp dropDoubleNegation c).Matches k → c.Matches k)
      e := by
  have negation : Shape.negation.alone ∈ kinds := by simp [kinds]
  induction e using inductionOnParts with
  | node e ih =>
    have parts : ∀ c ∈ e.parts, Everywhere (fun c => ∀ k ∈ kinds,
        (bottomUp dropDoubleNegation c).Matches k → c.Matches k) c :=
      fun c mem => ih c mem fun k kind => (plain k kind).part mem
    refine .node (fun k kind found => ?_) parts
    rw [bottomUp_eq] at found
    by_cases double : (e.mapParts (bottomUp dropDoubleNegation)).Matches doubleNegation
    · obtain ⟨y, rebuilt⟩ := matches_doubleNegation.1 double
      cases e with
      | not x =>
        -- the part is a negation itself, and what stands behind both is of no kind
        have same : bottomUp dropDoubleNegation x = .not y := not.inj rebuilt
        have reflects := parts x List.mem_cons_self
        obtain ⟨z, rfl⟩ :=
          matches_alone.1 (reflects.root _ negation (matches_alone.2 ⟨y, same⟩))
        have none : ∀ k ∈ kinds, ¬(bottomUp dropDoubleNegation z).Matches k := fun k kind found =>
          (plain k kind).root (matches_doublyNegated.2
            ⟨z, rfl, (reflects.part List.mem_cons_self).root k kind found⟩)
        have positive : ∀ w, bottomUp dropDoubleNegation z ≠ .not w := fun w negated =>
          none _ negation (matches_alone.2 ⟨w, negated⟩)
        rw [bottomUp, dropDoubleNegation_not positive] at same
        rw [rebuilt] at found
        exact absurd found (not.inj same ▸ none k kind)
      | _ => cases rebuilt
    · rw [dropDoubleNegation_of_not_matches double] at found
      exact found.of_mapParts fun q asked c mem =>
        (parts c mem).root q (sought_subset_kinds_of_kind kind asked)

theorem free_dropDoubleNegation (plain : ∀ k ∈ kinds, Free (doublyNegated k) e)
    (defect : d ∈ defects) (free : Free d e) : Free d (bottomUp dropDoubleNegation e) :=
  free.bottomUp
    ((reflects_dropDoubleNegation plain).mono fun _ reflects q asked =>
      reflects q (sought_subset_kinds defect asked))
    fun _ free => everywhere_dropDoubleNegation (fun _ mem => free.part mem) fun _ => free.root

/-- Moving subtrahends builds sums of parts of the two sides. -/
theorem everywhere_moveSubtrahends {q : Expr → Prop}
    (sum : ∀ a b, q a → q b → q (.op .add [a, b])) {side other : Expr}
    (left : Everywhere q side) (right : Everywhere q other) :
    Everywhere q (moveSubtrahends side other).1 ∧ Everywhere q (moveSubtrahends side other).2 := by
  induction side, other using moveSubtrahends.induct with
  | case1 a b other ih =>
    rw [moveSubtrahends]
    have subtrahend := left.part (List.mem_cons_of_mem a List.mem_cons_self)
    exact ih (left.part List.mem_cons_self)
      (.pair (sum _ _ right.root subtrahend.root) right subtrahend)
  | case2 side other plain =>
    rw [moveSubtrahends]
    · exact ⟨left, right⟩
    · exact plain

theorem shiftSubtraction_of_not_fits (h : ¬Shape.comparison.Fits e) : shiftSubtraction e = e := by
  unfold shiftSubtraction
  split
  · next o lhs rhs =>
    split
    · next rel => exact absurd ⟨o, lhs, rhs, rfl, rel⟩ h
    · rfl
  · rfl

theorem shiftSubtraction_of_not_matches (h : ¬e.Matches differenceCompared) :
    shiftSubtraction e = e := by
  by_cases fits : Shape.comparison.Fits e
  · obtain ⟨o, lhs, rhs, rfl, rel⟩ := fits
    have plain : lhs.isDifference = false ∧ rhs.isDifference = false := by
      rw [← Bool.not_eq_true, ← Bool.not_eq_true, ← not_or]
      exact fun difference => h (matches_differenceCompared.2 ⟨o, lhs, rhs, rfl, rel, difference⟩)
    rw [shiftSubtraction_pair rel, moveSubtrahends_of_not plain.2, moveSubtrahends_of_not plain.1]
  · exact shiftSubtraction_of_not_fits fits

/-- After the shift neither side is a difference: what receives a subtrahend is a sum. -/
theorem not_matches_shiftSubtraction (e : Expr) :
    ¬(shiftSubtraction e).Matches differenceCompared := by
  intro found
  by_cases fits : Shape.comparison.Fits e
  · obtain ⟨o, lhs, rhs, rfl, rel⟩ := fits
    rw [shiftSubtraction_pair rel] at found
    obtain ⟨o, a, b, shifted, -, difference⟩ := matches_differenceCompared.1 found
    cases shifted
    rw [isDifference_moveSubtrahends_fst, isDifference_moveSubtrahends_snd _
      (isDifference_moveSubtrahends_fst rhs lhs)] at difference
    simp at difference
  · rw [shiftSubtraction_of_not_fits fits, Matches] at found
    exact fits found.1

theorem free_shiftSubtraction (sum : ∀ args, ¬Matches (.op .add args) p)
    (parts : ∀ c ∈ e.parts, Free p c) (root : ¬(shiftSubtraction e).Matches p) :
    Free p (shiftSubtraction e) := by
  by_cases fits : Shape.comparison.Fits e
  · obtain ⟨o, lhs, rhs, rfl, rel⟩ := fits
    rw [shiftSubtraction_pair rel] at root ⊢
    have left : Free p lhs := parts lhs List.mem_cons_self
    have right : Free p rhs := parts rhs (List.mem_cons_of_mem _ List.mem_cons_self)
    have sums : ∀ a b, ¬a.Matches p → ¬b.Matches p → ¬Matches (.op .add [a, b]) p :=
      fun a b _ _ => sum [a, b]
    obtain ⟨right, left⟩ := everywhere_moveSubtrahends sums right left
    obtain ⟨left, right⟩ := everywhere_moveSubtrahends sums left right
    exact .pair root left right
  · rw [shiftSubtraction_of_not_fits fits] at root ⊢
    exact .node root parts

theorem free_differenceCompared (e : Expr) :
    Free differenceCompared (bottomUp shiftSubtraction e) := by
  have sum : ∀ args, ¬Matches (.op .add args) differenceCompared := by
    intro args found
    obtain ⟨o, a, b, same, rel, -⟩ := matches_differenceCompared.1 found
    cases same
    cases rel
  exact .bottomUp_of_parts
    (fun e parts => free_shiftSubtraction sum parts (not_matches_shiftSubtraction e)) e

theorem free_doubleNegation_shiftSubtraction (free : Free doubleNegation e) :
    Free doubleNegation (bottomUp shiftSubtraction e) := by
  have root : ∀ {q : Pattern} {e}, q.shape = .negation → (shiftSubtraction e).Matches q →
      e.Matches q := by
    intro q e negation found
    by_cases fits : Shape.comparison.Fits e
    · obtain ⟨o, lhs, rhs, rfl, rel⟩ := fits
      rw [shiftSubtraction_pair rel, Matches, negation] at found
      obtain ⟨⟨x, same⟩, -⟩ := found
      cases same
    · rwa [shiftSubtraction_of_not_fits fits] at found
  refine free.bottomUp (.of_forall (fun e q asked => ?_) e) fun e free =>
    free_shiftSubtraction (fun args found => ?_) (fun _ mem => free.part mem)
      fun found => free.root (root rfl found)
  · cases List.mem_singleton.1 asked
    exact Reflects.of_root (fun _ => root rfl) (by simp [Shape.alone]) e
  · obtain ⟨x, same⟩ := matches_doubleNegation.1 found
    cases same

theorem free_nested (o : Operator) (e : Expr) : Free (nested o) (bottomUp flatten e) := by
  refine .bottomUp_of_parts (fun e parts => ?_) e
  cases e with
  | op p args =>
    rw [flatten]
    split
    · next assoc =>
      refine .node (fun found => ?_) fun c mem => ?_
      · obtain ⟨-, args', inner, same, mem⟩ := matches_nested.1 found
        cases same
        obtain ⟨b, inside, spliced⟩ := List.mem_flatMap.1 mem
        rcases mem_operands spliced with ⟨rfl, other⟩ | ⟨args', rfl, deep⟩
        · exact other inner rfl
        · exact (parts _ inside).root (matches_nested.2 ⟨assoc, args', inner, rfl, deep⟩)
      · obtain ⟨b, inside, spliced⟩ := List.mem_flatMap.1 mem
        rcases mem_operands spliced with ⟨rfl, -⟩ | ⟨args', rfl, deep⟩
        · exact parts _ inside
        · exact (parts _ inside).part deep
    · next other =>
      refine .node (fun found => ?_) parts
      obtain ⟨assoc, args', inner, same, -⟩ := matches_nested.1 found
      cases same
      exact other assoc
  | _ =>
    refine .node (fun found => ?_) parts
    obtain ⟨-, args, inner, same, -⟩ := matches_nested.1 found
    cases same

theorem flatten_of_not_matches (h : ∀ o, ¬e.Matches (nested o)) : flatten e = e := by
  cases e with
  | op o args =>
    rw [flatten]
    split
    · next assoc =>
      rw [splice_eq_self]
      rintro a mem inner rfl
      exact h o (matches_nested.2 ⟨assoc, args, inner, rfl, mem⟩)
    · rfl
  | _ => rfl

/-- The operands of a commutative operator are in canonical order. -/
def InOrder : Expr → Prop
  | .op o args => o.isCommutative = true → Sorting.Ascending cmp args
  | _ => True

theorem everywhere_inOrder (e : Expr) : Everywhere InOrder (bottomUp sortCommutative e) := by
  refine .bottomUp_of_parts (fun e parts => ?_) e
  cases e with
  | op o args =>
    rw [sortCommutative]
    split
    · exact .node (fun _ => Sorting.sort_ascending cmp args)
        fun c mem => parts c ((Sorting.mem_sort cmp).1 mem)
    · next other => exact .node (fun comm => absurd comm other) parts
  | _ => exact .node trivial parts

theorem sortCommutative_of_inOrder (h : InOrder e) : sortCommutative e = e := by
  cases e with
  | op o args =>
    rw [sortCommutative]
    split
    · next comm => rw [sorted, Sorting.sort_of_ascending cmp (h comm)]
    · rfl
  | _ => rfl

theorem normalizeSum_of_inOrder (flat : ¬e.Matches (nested .add)) (h : InOrder e) :
    normalizeSum e = e := by
  unfold normalizeSum
  split
  · next args =>
    rw [splice_eq_self, sorted, Sorting.sort_of_ascending cmp (h rfl)]
    rintro a mem inner rfl
    exact flat (matches_nested.2 ⟨rfl, args, inner, rfl, mem⟩)
  · rfl

theorem orderEquality_of_inOrder (h : InOrder e) : orderEquality e = e := by
  have pair : ∀ {o : Operator} {a b : Expr}, Sorting.Ascending cmp [a, b] →
      (if cmp b a = .lt then Expr.op o [b, a] else .op o [a, b]) = .op o [a, b] := by
    intro o a b ascending
    have le : (cmp a b).isLE := List.rel_of_pairwise_cons ascending List.mem_cons_self
    rw [if_neg]
    intro lt
    rw [← cmp_swap b a, lt] at le
    cases le
  unfold orderEquality
  split
  · exact pair (h rfl)
  · exact pair (h rfl)
  · rfl

theorem expandFlag_of_not_matches (h : ¬e.Matches flagCompared) : expandFlag e = e := by
  have none : ∀ {o a b}, o = .eq ∨ o = .ne → e = .op o [a, b] →
      (comparedWithZero? a b).bind flagTest? = none := by
    intro o a b isEq same
    rw [← Option.not_isSome_iff_eq_none]
    exact fun flag => h (matches_flagCompared.2 ⟨o, a, b, same, isEq, flag⟩)
  unfold expandFlag
  split
  · rw [none (.inl rfl) rfl]
    rfl
  · rw [none (.inr rfl) rfl]
    rfl
  · rfl

/-- A masked value that is compared with zero becomes a call with that value, or its negation. -/
theorem expandFlag_of_matches (h : e.Matches flagCompared) :
    ∃ predicate b c, b ∈ e.parts ∧ c ∈ b.parts ∧
      (expandFlag e = .call (.ident predicate) [c] ∨
        expandFlag e = .not (.call (.ident predicate) [c])) := by
  obtain ⟨o, a, b, rfl, isEq, flag⟩ := matches_flagCompared.1 h
  obtain ⟨test, found⟩ := Option.isSome_iff_exists.1 flag
  obtain ⟨masked, compared, tested⟩ := Option.bind_eq_some_iff.1 found
  have part : masked ∈ [a, b] := by
    unfold comparedWithZero? at compared
    split at compared
    · cases compared
      exact List.mem_cons_self
    · split at compared
      · cases compared
        exact List.mem_cons_of_mem _ List.mem_cons_self
      · cases compared
  obtain ⟨predicate, c, inside, rfl⟩ :
      ∃ predicate c, c ∈ masked.parts ∧ test = .call (.ident predicate) [c] := by
    unfold flagTest? at tested
    split at tested
    · obtain ⟨⟨mask, predicate⟩, -, chosen⟩ := List.exists_of_findSome?_eq_some tested
      dsimp only at chosen
      split at chosen
      · cases chosen
        exact ⟨predicate, _, List.mem_cons_self, rfl⟩
      · split at chosen
        · cases chosen
          exact ⟨predicate, _, List.mem_cons_of_mem _ List.mem_cons_self, rfl⟩
        · cases chosen
    · cases tested
  refine ⟨predicate, masked, c, part, inside, ?_⟩
  rcases isEq with rfl | rfl
  · exact .inr (by rw [expandFlag, found]; rfl)
  · exact .inl (by rw [expandFlag, found]; rfl)

/-- What holds of the flag tests and of the nodes that are no such comparison holds of what
becomes of the node. -/
theorem everywhere_expandFlag {q : Expr → Prop} (name : ∀ n, q (.ident n))
    (call : ∀ f args, q (.call f args)) (negated : ∀ f args, q (.not (.call f args)))
    (parts : ∀ c ∈ e.parts, Everywhere q c) (root : ¬e.Matches flagCompared → q e) :
    Everywhere q (expandFlag e) := by
  by_cases flag : e.Matches flagCompared
  · obtain ⟨predicate, b, c, mem, inside, result⟩ := expandFlag_of_matches flag
    have test : Everywhere q (.call (.ident predicate) [c]) := by
      refine .node (call _ _) (List.forall_mem_cons.2 ⟨.node (name _) (by simp [Expr.parts]), ?_⟩)
      exact List.forall_mem_singleton.2 ((parts b mem).part inside)
    rcases result with result | result
    · rwa [result]
    · rw [result]
      exact .node (negated _ _) (List.forall_mem_singleton.2 test)
  · rw [expandFlag_of_not_matches flag]
    exact .node (root flag) parts

theorem free_expandFlag (operator : p.shape.OfOperator) (parts : ∀ c ∈ e.parts, Free p c)
    (root : ¬e.Matches flagCompared → ¬e.Matches p) : Free p (expandFlag e) := by
  have other : ∀ {e : Expr}, (∀ o args, e ≠ .op o args) → ¬e.Matches p := by
    intro e other found
    rw [Matches] at found
    obtain ⟨o, args, same⟩ := operator e found.1
    exact other o args same
  exact everywhere_expandFlag (fun _ => other (by simp)) (fun _ _ => other (by simp))
    (fun _ _ => other (by simp)) parts root

theorem free_flagCompared (e : Expr) : Free flagCompared (bottomUp expandFlag e) := by
  have operator : Shape.equality.OfOperator := fun e fits => by
    obtain ⟨o, a, b, rfl, -⟩ := fits
    exact ⟨o, [a, b], rfl⟩
  exact .bottomUp_of_parts (fun _ parts => free_expandFlag operator parts id) e

/-- The flag tests are no operators, so they bring in no operator below an operator. -/
theorem free_bottomUp_expandFlag {s t : Shape} (above : s.OfOperator) (below : t.OfOperator)
    (free : Free ⟨s, [t.alone]⟩ e) : Free ⟨s, [t.alone]⟩ (bottomUp expandFlag e) := by
  refine free.bottomUp (.of_forall (fun e q asked => ?_) e) fun e free =>
    free_expandFlag above (fun _ mem => free.part mem) fun _ => free.root
  cases List.mem_singleton.1 asked
  refine Reflects.of_root (fun e found => ?_) (by simp [Shape.alone]) e
  by_cases flag : e.Matches flagCompared
  · obtain ⟨predicate, b, c, -, -, result⟩ := expandFlag_of_matches flag
    obtain ⟨o, args, same⟩ := below _ (matches_alone.1 found)
    rcases result with result | result <;> cases result.symm.trans same
  · rwa [expandFlag_of_not_matches flag] at found

/-- Double negations after the flag tests are in front of flag tests. -/
theorem free_doublyNegated_expandFlag (kind : k ∈ kinds) (free : Free doubleNegation e) :
    Free (doublyNegated k) (bottomUp expandFlag e) := by
  have other : ∀ {e : Expr}, (∀ x, e ≠ .not (.not x)) → ¬e.Matches (doublyNegated k) := by
    intro e other found
    obtain ⟨x, same, -⟩ := matches_doublyNegated.1 found
    exact other x same
  induction e using inductionOnParts with
  | node e ih =>
    rw [bottomUp_eq]
    refine everywhere_expandFlag (fun _ => other (by simp)) (fun _ _ => other (by simp))
      (fun _ _ => other (by simp)) (fun c mem => ?_) fun _ found => ?_
    · rw [parts_mapParts] at mem
      obtain ⟨c, inside, rfl⟩ := List.mem_map.1 mem
      exact ih c inside (free.part inside)
    · obtain ⟨y, rebuilt, found⟩ := matches_doublyNegated.1 found
      cases e with
      | not x =>
        have inner : bottomUp expandFlag x = .not y := not.inj rebuilt
        rw [bottomUp_eq] at inner
        by_cases flag : (x.mapParts (bottomUp expandFlag)).Matches flagCompared
        · obtain ⟨predicate, b, c, -, -, result⟩ := expandFlag_of_matches flag
          rcases result with result | result
          · cases result.symm.trans inner
          · cases result.symm.trans inner
            exact not_matches_call kind found
        · rw [expandFlag_of_not_matches flag] at inner
          cases x with
          | not z => exact free.root (matches_doubleNegation.2 ⟨z, rfl⟩)
          | _ => cases inner
      | _ => cases rebuilt

end Canonical
end PredicateStrength
