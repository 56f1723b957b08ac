import Mathlib
import PredicateStrength.Expr.Parser
import PredicateStrength.Proofs.Expr.Defect

/-!
# Normal forms

A tree is normal if it has none of the defects that the rules look for and its commutative
operands are in order; no rule changes it. After one round a further round leaves a normal tree,
unless it folds a comparison with a truth value, and then the tree has lost one of its truth
literals. So a tree with `n` of them is normal after `n + 2` rounds, and since no more than four are
run, a tree with more than two literals can be left half way.

Main statements: enough rounds make a tree normal (`normal_rounds`), the trees that are their own
canonical form are the normal ones (`canonical_eq_self_iff`), and canonicalization is idempotent on
trees with at most two truth literals (`canonical_canonical`).
-/
namespace PredicateStrength

open PredicateStrength.Expr
open PredicateStrength.Expr.Pattern
open PredicateStrength.Canonical

namespace Expr

mutual
/-- The number of truth literals in the tree. -/
@[simp] def literals : Expr → Nat
  | .bool _ => 1
  | .ident _ | .num _ => 0
  | .not e | .neg e | .member e _ => literals e
  | .op _ args => literalsAll args
  | .call f args => literals f + literalsAll args
  | .index base key => literals base + literals key

def literalsAll : List Expr → Nat
  | [] => 0
  | e :: es => literals e + literalsAll es
end

variable {rule : Expr → Expr} {e f c : Expr} {o : Operator} {args : List Expr}

@[simp] theorem literalsAll_eq_sum (es : List Expr) : literalsAll es = (es.map literals).sum := by
  induction es with
  | nil => rfl
  | cons e es ih => rw [literalsAll, ih, List.map_cons, List.sum_cons]

theorem literals_op (o : Operator) (args : List Expr) :
    (op o args).literals = (args.map literals).sum := by
  rw [literals, literalsAll_eq_sum]

/-- A truth literal, or what stands in the parts. -/
theorem literals_eq (e : Expr) :
    e.literals = e.truth?.isSome.toNat + (e.parts.map literals).sum := by
  cases e <;> simp [literals, truth?, parts, literalsAll_eq_sum]

theorem literals_le_of_mem_parts (h : c ∈ e.parts) : c.literals ≤ e.literals := by
  rw [literals_eq e]
  have part : c.literals ≤ (e.parts.map literals).sum :=
    List.single_le_sum (fun _ _ => Nat.zero_le _) _ (List.mem_map_of_mem h)
  omega

theorem literals_mapParts (g : Expr → Expr) (e : Expr) :
    (e.mapParts g).literals =
      e.truth?.isSome.toNat + (e.parts.map fun c => (g c).literals).sum := by
  have root : (e.mapParts g).truth? = e.truth? := by cases e <;> rfl
  rw [literals_eq, root, parts_mapParts, List.map_map]
  rfl

theorem literals_bottomUp_le (h : ∀ e, (rule e).literals ≤ e.literals) (e : Expr) :
    (bottomUp rule e).literals ≤ e.literals := by
  induction e using inductionOnParts with
  | node e ih =>
    rw [bottomUp_eq]
    refine (h _).trans ?_
    rw [literals_mapParts, literals_eq e]
    exact Nat.add_le_add_left (List.sum_le_sum ih) _

/-- A rule that takes a literal wherever it changes a node changes nothing or takes a literal. -/
theorem unchanged_or_literals_lt (h : ∀ e, rule e = e ∨ (rule e).literals < e.literals)
    (e : Expr) :
    Everywhere (fun c => rule c = c) e ∨ (bottomUp rule e).literals < e.literals := by
  have le : ∀ e, (rule e).literals ≤ e.literals := fun e => by
    rcases h e with same | fewer
    · rw [same]
    · exact fewer.le
  induction e using inductionOnParts with
  | node e ih =>
    by_cases unchanged : ∀ c ∈ e.parts, Everywhere (fun c => rule c = c) c
    · rcases h e with same | fewer
      · exact .inl (.node same unchanged)
      · rw [bottomUp_eq, mapParts_eq_self fun c mem => (unchanged c mem).bottomUp_eq_self]
        exact .inr fewer
    · push Not at unchanged
      obtain ⟨c, mem, changed⟩ := unchanged
      right
      rw [bottomUp_eq]
      refine (le _).trans_lt ?_
      rw [literals_mapParts, literals_eq e]
      refine Nat.add_lt_add_left (List.sum_lt_sum _ _ (fun c _ => literals_bottomUp_le le c) ?_) _
      exact ⟨c, mem, (ih c mem).resolve_left changed⟩

end Expr

namespace Canonical

variable {e f : Expr} {o : Operator} {args : List Expr}

theorem literals_comparedWith (o : Operator) (value : Bool) (e : Expr) :
    (comparedWith o value e).literals = e.literals := by
  unfold comparedWith
  split <;> simp [literals]

/-- A comparison with a truth value loses the literal. -/
theorem literals_foldBoolEquality_lt (h : e.Matches truthCompared) :
    (foldBoolEquality e).literals < e.literals := by
  obtain ⟨o, a, b, rfl, isEq, truth⟩ := matches_truthCompared.1 h
  have literal : ∀ {c : Expr} {value : Bool}, c.truth? = some value → c.literals = 1 := by
    intro c value truth
    cases c <;> first | rfl | cases truth
  have pair : (op o [a, b]).literals = a.literals + b.literals := by simp [literals, literalsAll]
  rw [foldBoolEquality_pair isEq, pair]
  cases left : a.truth? with
  | some value =>
    dsimp only
    rw [literals_comparedWith, literal left]
    omega
  | none =>
    cases right : b.truth? with
    | some value =>
      dsimp only
      rw [literals_comparedWith, literal right]
      omega
    | none =>
      rcases truth with ⟨value, rfl⟩ | ⟨value, rfl⟩
      · cases left
      · cases right

theorem literals_foldBoolEquality (e : Expr) :
    foldBoolEquality e = e ∨ (foldBoolEquality e).literals < e.literals := by
  by_cases compared : e.Matches truthCompared
  · exact .inr (literals_foldBoolEquality_lt compared)
  · exact .inl (foldBoolEquality_of_not_matches compared)

theorem literals_expandIdiom (e : Expr) : (expandIdiom e).literals ≤ e.literals := by
  by_cases call : e.Matches idiomCalled
  · obtain ⟨name, t, rfl, entry⟩ := matches_idiomCalled.1 call
    obtain ⟨front, back, table, -⟩ := List.lookup_eq_some_iff.1 entry
    have none : ∀ entry ∈ localIdioms, entry.2.literals = 0 := by
      simp [localIdioms, literals, literalsAll, Expr.binary, Expr.apply]
    rw [expandIdiom, entry, Option.getD_some, none (name, t) (by simp [table])]
    exact Nat.zero_le _
  · rw [expandIdiom_of_not_matches call]

theorem literals_dropDoubleNegation (e : Expr) : (dropDoubleNegation e).literals ≤ e.literals := by
  unfold dropDoubleNegation
  split <;> simp [literals]

theorem literals_moveSubtrahends (side other : Expr) :
    (moveSubtrahends side other).1.literals + (moveSubtrahends side other).2.literals =
      side.literals + other.literals := by
  induction side, other using moveSubtrahends.induct with
  | case1 a b other ih =>
    rw [moveSubtrahends, ih]
    simp only [Expr.binary, literals, literalsAll]
    omega
  | case2 side other plain =>
    rw [moveSubtrahends]
    exact plain

theorem literals_shiftSubtraction (e : Expr) : (shiftSubtraction e).literals ≤ e.literals := by
  by_cases fits : Shape.comparison.Fits e
  · obtain ⟨o, lhs, rhs, rfl, rel⟩ := fits
    rw [shiftSubtraction_pair rel]
    have first := literals_moveSubtrahends rhs lhs
    have second := literals_moveSubtrahends (moveSubtrahends rhs lhs).2 (moveSubtrahends rhs lhs).1
    simp only [literals, literalsAll]
    omega
  · rw [shiftSubtraction_of_not_fits fits]

theorem literals_splice (o : Operator) (args : List Expr) :
    ((splice o args).map literals).sum = (args.map literals).sum := by
  have operand : ∀ e, ((operands o e).map literals).sum = e.literals := by
    intro e
    cases e with
    | op p inner =>
      rw [operands]
      split <;> simp
    | _ => simp [operands]
  induction args with
  | nil => rfl
  | cons e es ih =>
    have rest : (((es.flatMap (operands o)).map literals).sum) = (es.map literals).sum := ih
    rw [splice, List.flatMap_cons, List.map_append, List.sum_append, operand, rest, List.map_cons,
      List.sum_cons]

theorem literals_of_rearranged (h : Rearranged e f) : f.literals ≤ e.literals := by
  cases h with
  | same => exact le_refl _
  | perm h => rw [literals_op, literals_op, (h.map literals).sum_eq]
  | splice assoc h => rw [literals_op, literals_op, (h.map literals).sum_eq, literals_splice]

theorem literals_expandFlag (e : Expr) : (expandFlag e).literals ≤ e.literals := by
  by_cases flag : e.Matches flagCompared
  · obtain ⟨predicate, b, c, mem, inside, result⟩ := expandFlag_of_matches flag
    have part := (literals_le_of_mem_parts inside).trans (literals_le_of_mem_parts mem)
    rcases result with result | result <;> simpa [result, literals, literalsAll] using part
  · rw [expandFlag_of_not_matches flag]

/-- The form that holds from the first round on: differences, nested operators and masked values
are gone, and double negations stand in front of flag tests only. -/
structure Settling (e : Expr) : Prop where
  free : ∀ d ∈ [differenceCompared, nested .and, nested .or, nested .add, flagCompared], Free d e
  negations : ∀ k ∈ kinds, Free (doublyNegated k) e

/-- No defect is left, and commutative operands are in order. -/
structure Normal (e : Expr) : Prop where
  free : ∀ d ∈ defects, Free d e
  ordered : Everywhere InOrder e

/-- The passes between the flattening and the flags bring no defect. -/
theorem free_reordered {d : Pattern} (defect : d ∈ defects) (free : Free d e) :
    Free d (bottomUp orderEquality (bottomUp sortCommutative (bottomUp normalizeSum e))) :=
  rearranges_orderEquality.free defect
    (rearranges_sortCommutative.free defect (rearranges_normalizeSum.free defect free))

theorem settling_round (e : Expr) : Settling (round e) := by
  rw [round_eq]
  have positive := free_doubleNegation (bottomUp foldBoolEquality (bottomUp expandIdiom e))
  generalize bottomUp dropDoubleNegation (bottomUp foldBoolEquality (bottomUp expandIdiom e)) = e
    at positive ⊢
  have differences := free_differenceCompared e
  replace positive := free_doubleNegation_shiftSubtraction positive
  generalize bottomUp shiftSubtraction e = e at positive differences ⊢
  have nests : ∀ {o}, nested o ∈ defects → Free (nested o) _ := fun {o} defect =>
    free_reordered defect (free_nested o e)
  replace differences := free_reordered (by simp [defects])
    (rearranges_flatten.free (by simp [defects]) differences)
  replace positive := free_reordered (by simp [defects])
    (rearranges_flatten.free (by simp [defects]) positive)
  generalize bottomUp orderEquality (bottomUp sortCommutative (bottomUp normalizeSum
    (bottomUp flatten e))) = e at positive differences nests ⊢
  have joined : ∀ o, (Shape.joined o).OfOperator := fun o f fits => by
    obtain ⟨args, rfl, -⟩ := fits
    exact ⟨o, args, rfl⟩
  have comparison : Shape.comparison.OfOperator := fun f fits => by
    obtain ⟨o, a, b, rfl, -⟩ := fits
    exact ⟨o, [a, b], rfl⟩
  have difference : Shape.difference.OfOperator := fun f fits => by
    cases f with
    | op o args => exact ⟨o, args, rfl⟩
    | _ => cases fits
  have kept : ∀ o, nested o ∈ defects → Free (nested o) (bottomUp expandFlag e) :=
    fun o defect => free_bottomUp_expandFlag (joined o) (joined o) (nests defect)
  refine ⟨?_, fun k kind => free_doublyNegated_expandFlag kind positive⟩
  simp only [List.forall_mem_cons]
  exact ⟨free_bottomUp_expandFlag comparison difference differences,
    kept .and (by simp [defects]), kept .or (by simp [defects]), kept .add (by simp [defects]),
    free_flagCompared e, by simp⟩

theorem bottomUp_shiftSubtraction_of_free (free : ∀ d ∈ defects, Free d e) :
    bottomUp shiftSubtraction e = e :=
  ((free differenceCompared (by simp [defects])).mono fun _ =>
    shiftSubtraction_of_not_matches).bottomUp_eq_self

theorem bottomUp_flatten_of_free (free : ∀ d ∈ defects, Free d e) : bottomUp flatten e = e := by
  have nests : ∀ o, Free (nested o) e := by
    intro o
    by_cases assoc : o.isAssociative = true
    · have defect : nested o ∈ defects := by
        cases o <;> simp_all [Operator.isAssociative, defects]
      exact free _ defect
    · exact .of_forall (fun c found => assoc (matches_nested.1 found).1) e
  exact ((Everywhere.forall_of nests).mono fun _ => flatten_of_not_matches).bottomUp_eq_self

/-- No rule changes a normal tree. -/
theorem Normal.round_eq (h : Normal e) : round e = e := by
  have idioms : bottomUp expandIdiom e = e :=
    ((h.free idiomCalled (by simp [defects])).mono fun _ =>
      expandIdiom_of_not_matches).bottomUp_eq_self
  have truths : bottomUp foldBoolEquality e = e :=
    ((h.free truthCompared (by simp [defects])).mono fun _ =>
      foldBoolEquality_of_not_matches).bottomUp_eq_self
  have negations : bottomUp dropDoubleNegation e = e :=
    ((h.free doubleNegation (by simp [defects])).mono fun _ =>
      dropDoubleNegation_of_not_matches).bottomUp_eq_self
  have sums : bottomUp normalizeSum e = e :=
    (((h.free (nested .add) (by simp [defects])).and h.ordered).mono fun _ both =>
      normalizeSum_of_inOrder both.1 both.2).bottomUp_eq_self
  have order : bottomUp sortCommutative e = e :=
    (h.ordered.mono fun _ => sortCommutative_of_inOrder).bottomUp_eq_self
  have sides : bottomUp orderEquality e = e :=
    (h.ordered.mono fun _ => orderEquality_of_inOrder).bottomUp_eq_self
  have flags : bottomUp expandFlag e = e :=
    ((h.free flagCompared (by simp [defects])).mono fun _ =>
      expandFlag_of_not_matches).bottomUp_eq_self
  rw [Canonical.round_eq, idioms, truths, negations, bottomUp_shiftSubtraction_of_free h.free,
    bottomUp_flatten_of_free h.free, sums, order, sides, flags]

/-- Without defects the rest of a round only puts operands in order. -/
theorem normal_of_free (free : ∀ d ∈ defects, Free d e) :
    Normal (bottomUp expandFlag (bottomUp orderEquality (bottomUp sortCommutative
      (bottomUp normalizeSum (bottomUp flatten (bottomUp shiftSubtraction e)))))) := by
  rw [bottomUp_shiftSubtraction_of_free free, bottomUp_flatten_of_free free]
  have ordered := everywhere_inOrder (bottomUp normalizeSum e)
  have sides : bottomUp orderEquality (bottomUp sortCommutative (bottomUp normalizeSum e)) =
      bottomUp sortCommutative (bottomUp normalizeSum e) :=
    (ordered.mono fun _ => orderEquality_of_inOrder).bottomUp_eq_self
  have reordered := fun d (defect : d ∈ defects) => free_reordered defect (free d defect)
  rw [sides] at reordered ⊢
  have flags : bottomUp expandFlag (bottomUp sortCommutative (bottomUp normalizeSum e)) =
      bottomUp sortCommutative (bottomUp normalizeSum e) :=
    ((reordered flagCompared (by simp [defects])).mono fun _ =>
      expandFlag_of_not_matches).bottomUp_eq_self
  rw [flags]
  exact ⟨reordered, ordered⟩

/-- The passes behind the folding take no tree to one with more truth literals. -/
theorem literals_rest_le (e : Expr) :
    (bottomUp expandFlag (bottomUp orderEquality (bottomUp sortCommutative (bottomUp normalizeSum
      (bottomUp flatten (bottomUp shiftSubtraction (bottomUp dropDoubleNegation e))))))).literals ≤
        e.literals :=
  have rearranged : ∀ {rule : Expr → Expr}, Rearranges rule →
      ∀ e, (bottomUp rule e).literals ≤ e.literals :=
    fun h => literals_bottomUp_le fun e => literals_of_rearranged (h e)
  calc
    _ ≤ _ := literals_bottomUp_le literals_expandFlag _
    _ ≤ _ := rearranged rearranges_orderEquality _
    _ ≤ _ := rearranged rearranges_sortCommutative _
    _ ≤ _ := rearranged rearranges_normalizeSum _
    _ ≤ _ := rearranged rearranges_flatten _
    _ ≤ _ := literals_bottomUp_le literals_shiftSubtraction _
    _ ≤ _ := literals_bottomUp_le literals_dropDoubleNegation _

/-- A round takes a truth literal, or leaves a normal tree. -/
theorem round_cases (h : Settling e) : (round e).literals < e.literals ∨ Normal (round e) := by
  rw [Canonical.round_eq]
  rcases unchanged_or_literals_lt literals_foldBoolEquality (bottomUp expandIdiom e) with
    unchanged | fewer
  · right
    rw [unchanged.bottomUp_eq_self]
    have names := free_idiomCalled e
    have truths : Free truthCompared (bottomUp expandIdiom e) :=
      unchanged.mono fun c same found => (literals_foldBoolEquality_lt found).ne (by rw [same])
    have lasting := fun d lasts defect => free_expandIdiom_of_defect defect (h.free d lasts)
    have dropped := fun d => free_dropDoubleNegation (d := d) fun k kind =>
      free_doublyNegated_expandIdiom kind (h.negations k kind)
    refine normal_of_free fun d defect => ?_
    have known := defect
    simp only [defects, List.mem_cons, List.not_mem_nil, or_false] at known
    rcases known with rfl | rfl | rfl | rfl | rfl | rfl | rfl | rfl
    · exact free_doubleNegation _
    · exact dropped _ defect truths
    · exact dropped _ defect (lasting _ (by simp) defect)
    · exact dropped _ defect (lasting _ (by simp) defect)
    · exact dropped _ defect (lasting _ (by simp) defect)
    · exact dropped _ defect (lasting _ (by simp) defect)
    · exact dropped _ defect names
    · exact dropped _ defect (lasting _ (by simp) defect)
  · left
    exact (literals_rest_le _).trans_lt
      (fewer.trans_le (literals_bottomUp_le literals_expandIdiom e))

theorem Settling.normal_rounds (h : Settling e) {n : Nat} (enough : e.literals < n) :
    Normal (rounds n e) := by
  induction n generalizing e with
  | zero => omega
  | succ n ih =>
    rw [rounds_succ]
    rcases round_cases h with fewer | normal
    · exact ih (settling_round e) (by omega)
    · rwa [rounds_of_settled normal.round_eq]

theorem literals_round_le (e : Expr) : (round e).literals ≤ e.literals := by
  rw [Canonical.round_eq]
  have fold : ∀ e, (foldBoolEquality e).literals ≤ e.literals := fun e => by
    rcases literals_foldBoolEquality e with same | fewer
    · rw [same]
    · exact fewer.le
  exact (literals_rest_le _).trans
    ((literals_bottomUp_le fold _).trans (literals_bottomUp_le literals_expandIdiom e))

/-- Two rounds, and one for each truth literal, make a tree normal. -/
theorem normal_rounds {n : Nat} (enough : e.literals + 2 ≤ n) : Normal (rounds n e) := by
  obtain ⟨n, rfl⟩ : ∃ m, n = m + 1 := ⟨n - 1, by omega⟩
  rw [rounds_succ]
  have bound := literals_round_le e
  exact (settling_round e).normal_rounds (by omega)

end Canonical

namespace Expr

variable {e : Expr}

theorem canonical_of_normal (h : Normal e) : e.canonical = e := rounds_of_settled h.round_eq _

/-- The trees that are their own canonical form are the normal ones. Rounds that led back to a
tree would lead back forever, so the tree is what enough of them leave. -/
theorem canonical_eq_self_iff : e.canonical = e ↔ Normal e := by
  refine ⟨fun stable => ?_, canonical_of_normal⟩
  have cycle : Canonical.round^[maxRounds] e = e := (rounds_eq_iterate _ e).symm.trans stable
  have same : rounds (maxRounds * (e.literals + 2)) e = e := by
    rw [rounds_eq_iterate, Function.iterate_mul]
    exact Function.iterate_fixed cycle _
  have enough : e.literals + 2 ≤ maxRounds * (e.literals + 2) :=
    Nat.le_mul_of_pos_left _ (by decide)
  exact same ▸ normal_rounds enough

/-- Canonicalization is idempotent on trees with at most two truth literals. -/
theorem canonical_canonical (few : e.literals ≤ 2) : e.canonical.canonical = e.canonical :=
  canonical_of_normal (normal_rounds (Nat.add_le_add_right few 2))

theorem canonical_canonical_folded :
    let e := op .eq [.not (.bool true), .op .ne [.apply "isOwner" [], .bool false]]
    e.canonical.canonical = e.canonical :=
  canonical_canonical (by decide)

end Expr

namespace Canonical

/-- `n` comparisons with a negated literal, one in the other, around a tree. -/
def wrapped : Nat → Expr → Expr
  | 0, e => e
  | n + 1, e => .op .eq [.not (.bool false), wrapped n e]

/-- A literal compared with its negation. -/
def negatedPair : Expr := .op .eq [.bool false, .not (.bool false)]

theorem bottomUp_wrapped (rule : Expr → Expr) (e : Expr)
    (literal : bottomUp rule (.not (.bool false)) = .not (.bool false))
    (node : ∀ k, rule (wrapped (k + 1) (bottomUp rule e)) = wrapped (k + 1) (bottomUp rule e))
    (n : Nat) : bottomUp rule (wrapped n e) = wrapped n (bottomUp rule e) := by
  induction n with
  | zero => rfl
  | succ n ih =>
    rw [wrapped, bottomUp_op]
    simp only [List.map_cons, List.map_nil]
    rw [literal, ih]
    exact node n

/-- The innermost comparison is folded to a literal that the next one meets only when the round
has passed the folding. -/
theorem round_wrapped (n : Nat) :
    round (wrapped (n + 1) negatedPair) = wrapped n negatedPair := by
  have last : ∀ n, wrapped (n + 1) (.bool false) =
      wrapped n (.op .eq [.not (.bool false), .bool false]) := by
    intro n
    induction n with
    | zero => rfl
    | succ n ih => rw [wrapped, ih, ← wrapped]
  rw [round_eq, bottomUp_wrapped expandIdiom _ rfl fun _ => rfl,
    bottomUp_wrapped foldBoolEquality _ rfl fun k => by cases k <;> rfl,
    bottomUp_wrapped dropDoubleNegation _ rfl fun _ => rfl,
    bottomUp_wrapped shiftSubtraction _ rfl fun k => by cases k <;> rfl,
    bottomUp_wrapped flatten _ rfl fun _ => rfl,
    bottomUp_wrapped normalizeSum _ rfl fun _ => rfl]
  have folded : bottomUp normalizeSum (bottomUp flatten (bottomUp shiftSubtraction
      (bottomUp dropDoubleNegation (bottomUp foldBoolEquality (bottomUp expandIdiom negatedPair)))))
        = .bool false := by cbv
  rw [folded, last]
  have sorted : bottomUp sortCommutative (.op .eq [.not (.bool false), .bool false]) =
      negatedPair := by cbv
  rw [bottomUp_wrapped sortCommutative _ rfl fun k => by rw [sorted]; cases k <;> cbv, sorted,
    bottomUp_wrapped orderEquality _ rfl fun k => by cases k <;> cbv,
    bottomUp_wrapped expandFlag _ rfl fun k => by cases k <;> cbv]
  have settled : bottomUp expandFlag (bottomUp orderEquality negatedPair) = negatedPair := by cbv
  rw [settled]

theorem rounds_wrapped (n : Nat) : rounds n (wrapped n negatedPair) = negatedPair := by
  induction n with
  | zero => rfl
  | succ n ih => rw [rounds_succ, round_wrapped, ih]

/-- Whatever the limit, it cuts the rewriting of some tree short. -/
theorem exists_round_ne (n : Nat) : ∃ e, round (rounds n e) ≠ rounds n e := by
  refine ⟨wrapped n negatedPair, ?_⟩
  have folded : round negatedPair = .bool false := by cbv
  rw [rounds_wrapped, folded]
  simp [negatedPair]

end Canonical

/-- In both texts a literal is left to be folded behind the last round, in the second one in front
of the name of an idiom that is called. -/
theorem Expr.canonical_canonical_ne :
    (∃ e, Expr.ofText "(!false) == ((!false) == ((!false) == ((!false) == (!!false))))" = .ok e ∧
      e.canonical.canonical ≠ e.canonical) ∧
    ∃ e, Expr.ofText "(isOwner != ((!false) == ((!false) == (!!false))))()" = .ok e ∧
      e.canonical.canonical ≠ e.canonical := by
  have differ : ∀ {e f g : Expr}, e.canonical = f → f.canonical = g → g ≠ f →
      e.canonical.canonical ≠ e.canonical := by
    rintro e f g rfl rfl ne
    exact ne
  constructor
  · refine ⟨wrapped 3 (.op .eq [.not (.bool false), .not (.not (.bool false))]), by cbv, ?_⟩
    exact differ (f := negatedPair) (g := .bool false) (by cbv) (by cbv) (by simp [negatedPair])
  · refine ⟨.call (.op .ne [.ident "isOwner", wrapped 2 (.not (.not (.bool false)))]) [],
      by cbv, ?_⟩
    exact differ (f := .apply "isOwner" [])
      (g := .op .eq [.ident "msg.sender", .apply "owner" []]) (by cbv) (by cbv) (by simp [Expr.apply])

end PredicateStrength
