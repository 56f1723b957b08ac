import Mathlib
import PredicateStrength.Proofs.Formula.MergedBounds
import PredicateStrength.Proofs.Formula.Simplify

/-!
# What combining leaves

The operands that combining leaves are distinct and in ascending order, none of them is a constant
or the same junction, no two are complementary, and their constraints are merged. Combining such
operands once more only absorbs some of them, and after that it leaves them as they are.

Main statements: `Junction.normal_of_combine` and `Junction.combine_absorb`.
-/
namespace PredicateStrength

variable {d : Domain}

theorem Constraint.isLE_poly {c e : Constraint} (h : (c.cmp e).isLE) :
    (c.poly.cmp e.poly).isLE := by
  rw [Constraint.cmp] at h
  cases order : c.poly.cmp e.poly <;> simp [order] at h ⊢

namespace Junction

variable {j : Junction}

/-- The constraints of some groups. -/
def ungroup (gs : List (Poly × List Bound)) : List Constraint :=
  gs.flatMap fun g => g.2.map fun b => ⟨g.1, b⟩

theorem group_cons_nil {c : Constraint} {cs : List Constraint} (h : group cs = []) :
    group (c :: cs) = [(c.poly, [c.bound])] := by rw [group, h]

theorem group_cons_cons {c : Constraint} {cs : List Constraint} {p : Poly} {bs : List Bound}
    {rest : List (Poly × List Bound)} (h : group cs = (p, bs) :: rest) :
    group (c :: cs) = if c.poly = p then (p, c.bound :: bs) :: rest
      else (c.poly, [c.bound]) :: (p, bs) :: rest := by rw [group, h]

/-- Constraints in order have groups with polynomials in order. -/
theorem ascending_group {cs : List Constraint} (ascending : Sorting.Ascending Constraint.cmp cs) :
    Sorting.StrictlyAscending Poly.cmp ((group cs).map Prod.fst) := by
  induction cs with
  | nil => exact .nil
  | cons c cs ih =>
    obtain ⟨first, rest⟩ := List.pairwise_cons.1 ascending
    have later := ih rest
    cases eq : group cs with
    | nil =>
      rw [group_cons_nil eq]
      exact List.pairwise_singleton _ _
    | cons g gs =>
      obtain ⟨p, bs⟩ := g
      rw [eq] at later
      rw [group_cons_cons eq]
      split
      · exact later
      · next other =>
        have next : c.poly.cmp p = .lt := by
          obtain ⟨e, mem, same⟩ := poly_mem_group (eq ▸ List.mem_cons_self : (p, bs) ∈ group cs)
          have below := Constraint.isLE_poly (first e mem)
          rw [same] at below
          exact Sorting.lt_of_isLE_of_ne _ below other
        refine List.pairwise_cons.2 ⟨fun q mem => ?_, later⟩
        rcases List.mem_cons.1 mem with rfl | mem
        · exact next
        · exact Std.TransCmp.lt_trans next ((List.pairwise_cons.1 later).1 q mem)

theorem group_append {p : Poly} {bs : List Bound} {cs : List Constraint} (bounded : bs ≠ [])
    (other : ∀ g ∈ group cs, p ≠ g.1) :
    group ((bs.map fun b => ⟨p, b⟩) ++ cs) = (p, bs) :: group cs := by
  induction bs with
  | nil => exact absurd rfl bounded
  | cons b bs ih =>
    rw [List.map_cons, List.cons_append]
    cases bs with
    | nil =>
      rw [List.map_nil, List.nil_append]
      cases eq : group cs with
      | nil => rw [group_cons_nil eq]
      | cons g gs =>
        have differs : p ≠ g.1 := other g (eq ▸ List.mem_cons_self)
        rw [group_cons_cons eq, if_neg differs]
    | cons b' bs => rw [group_cons_cons (ih (List.cons_ne_nil _ _)), if_pos rfl]

/-- The groups ascend, and each is what merging leaves of its bounds. -/
structure Grouped (j : Junction) (d : Domain) (gs : List (Poly × List Bound)) : Prop where
  ascending : Sorting.StrictlyAscending Poly.cmp (gs.map Prod.fst)
  merged : ∀ g ∈ gs, j.IsMerged (d = .unsigned && g.1.isNonneg) g.2

namespace Grouped

variable {g : Poly × List Bound} {gs : List (Poly × List Bound)}

theorem tail (grouped : j.Grouped d (g :: gs)) : j.Grouped d gs :=
  ⟨(List.pairwise_cons.1 grouped.ascending).2, fun h mem => grouped.merged h (.tail _ mem)⟩

theorem group_ungroup (grouped : j.Grouped d gs) : group (ungroup gs) = gs := by
  induction gs with
  | nil => rfl
  | cons g gs ih =>
    have later := ih grouped.tail
    rw [ungroup, List.flatMap_cons, ← ungroup, group_append, later]
    · exact (grouped.merged g (.head _)).nonempty
    · rw [later]
      intro h mem same
      have distinct := Sorting.StrictlyAscending.nodup _ grouped.ascending
      exact (List.nodup_cons.1 distinct).1 (same ▸ List.mem_map_of_mem mem)

theorem mergeGroups? (grouped : j.Grouped d gs) :
    j.mergeGroups? d gs = some ((ungroup gs).map .constraint) := by
  induction gs with
  | nil => rfl
  | cons g gs ih =>
    obtain ⟨p, bs⟩ := g
    rw [mergeGroups?_cons, mergeGroup?, (grouped.merged _ (.head _)).fixed, ih grouped.tail]
    simp [ungroup]

theorem ascending_ungroup (grouped : j.Grouped d gs) :
    Sorting.StrictlyAscending Constraint.cmp (ungroup gs) := by
  refine List.pairwise_flatMap.2 ⟨fun g mem => ?_, ?_⟩
  · refine List.pairwise_map.2 ((grouped.merged g mem).ascending.imp fun below => ?_)
    simp [Constraint.cmp, Std.ReflCmp.compare_self, below]
  · refine (List.pairwise_map.1 grouped.ascending).imp fun below c mem e mem' => ?_
    obtain ⟨b, -, rfl⟩ := List.mem_map.1 mem
    obtain ⟨b', -, rfl⟩ := List.mem_map.1 mem'
    simp [Constraint.cmp, below]

theorem undecided (grouped : j.Grouped d gs) : ∀ c ∈ ungroup gs, c.decide? d = none := by
  intro c mem
  obtain ⟨g, group, part⟩ := List.mem_flatMap.1 mem
  obtain ⟨b, bound, rfl⟩ := List.mem_map.1 part
  exact (grouped.merged g group).undecided b bound

end Grouped

theorem exists_grouped {gs : List (Poly × List Bound)} {fs : List Formula}
    (ascending : Sorting.StrictlyAscending Poly.cmp (gs.map Prod.fst))
    (h : j.mergeGroups? d gs = some fs) :
    ∃ hs, j.Grouped d hs ∧ (hs.map Prod.fst).Sublist (gs.map Prod.fst) ∧
      fs = (ungroup hs).map .constraint := by
  induction gs generalizing fs with
  | nil =>
    cases h
    exact ⟨[], ⟨.nil, by simp⟩, .slnil, rfl⟩
  | cons g gs ih =>
    obtain ⟨p, bs⟩ := g
    obtain ⟨above, rest⟩ := List.pairwise_cons.1 ascending
    rw [mergeGroups?_cons] at h
    obtain ⟨cs, here, h⟩ := Option.bind_eq_some_iff.1 h
    obtain ⟨more, later, same⟩ := Option.bind_eq_some_iff.1 h
    cases same
    obtain ⟨hs, grouped, part, rfl⟩ := ih rest later
    have dropped : j.Grouped d hs ∧ (hs.map Prod.fst).Sublist (p :: gs.map Prod.fst) ∧
        [] ++ (ungroup hs).map Formula.constraint = (ungroup hs).map .constraint :=
      ⟨grouped, part.cons _, rfl⟩
    rw [mergeGroup?] at here
    split at here
    · split at here <;> cases here
      exact ⟨hs, dropped⟩
    · split at here <;> cases here
      exact ⟨hs, dropped⟩
    · next left merged =>
      cases here
      refine ⟨(p, left) :: hs, ⟨?_, ?_⟩, part.cons_cons _, by simp [ungroup]⟩
      · exact List.pairwise_cons.2 ⟨fun q mem => above q (part.subset mem), grouped.ascending⟩
      · exact List.forall_mem_cons.2 ⟨isMerged_of_merge merged, grouped.merged⟩

theorem mem_others {f : Formula} {fs : List Formula} :
    f ∈ others fs ↔ f ∈ fs ∧ ∀ c, f ≠ .constraint c := by
  rw [others, List.mem_filter]
  refine and_congr_right fun _ => ?_
  cases f <;> simp

theorem others_append_constraints_perm (fs : List Formula) :
    (others fs ++ (constraints fs).map Formula.constraint).Perm fs := by
  induction fs with
  | nil => exact .refl _
  | cons f fs ih =>
    cases f
    case constraint c => exact List.perm_middle.trans (ih.cons _)
    all_goals exact ih.cons _

theorem constraints_absorb (fs : List Formula) : constraints (j.absorb fs) = constraints fs := by
  rw [constraints, absorb, List.filterMap_filter]
  refine List.filterMap_congr fun f _ => ?_
  cases f
  case constraint c => cases j <;> rfl
  all_goals simp

theorem ascending_constraints {fs : List Formula}
    (ascending : Sorting.StrictlyAscending Formula.cmp fs) :
    Sorting.StrictlyAscending Constraint.cmp (constraints fs) := by
  refine List.Pairwise.filterMap _ (fun f g below c hc e he => ?_) ascending
  cases f <;> cases hc
  cases g <;> cases he
  exact below

/-- The operand is no constant and not this junction. -/
structure Plain (j : Junction) (f : Formula) : Prop where
  notConst : ∀ b, f ≠ .const b
  notNested : j.parts? f = none

/-- The operands are what combining leaves, but for operands that others absorb. -/
structure Normal (j : Junction) (d : Domain) (fs : List Formula) : Prop where
  ascending : Sorting.StrictlyAscending Formula.cmp fs
  plain : ∀ f ∈ fs, j.Plain f
  consistent : isComplementary fs = false
  merged : j.mergeGroups? d (group (constraints fs)) = some ((constraints fs).map .constraint)

theorem flatten?_of_plain {fs : List Formula} (plain : ∀ f ∈ fs, j.Plain f) :
    j.flatten? fs = some fs := by
  induction fs with
  | nil => rfl
  | cons f fs ih =>
    have first := plain f (.head _)
    rcases flatten?_cons j f fs with ⟨b, rfl, -⟩ | eq
    · exact absurd rfl (first.notConst b)
    · rw [eq, ih fun g mem => plain g (.tail _ mem), first.notNested]
      rfl

theorem isComplementary_iff {fs : List Formula} :
    isComplementary fs = true ↔ ∃ f, .not f ∈ fs ∧ f ∈ fs := by
  rw [isComplementary, List.any_eq_true]
  constructor
  · rintro ⟨g, mem, negated⟩
    cases g <;> simp only [Bool.false_eq_true] at negated
    exact ⟨_, mem, of_decide_eq_true negated⟩
  · rintro ⟨f, negated, mem⟩
    exact ⟨.not f, negated, decide_eq_true mem⟩

theorem isComplementary_of_subset {fs gs : List Formula} (sub : ∀ f ∈ gs, f ∈ fs)
    (consistent : isComplementary fs = false) : isComplementary gs = false := by
  rw [← Bool.not_eq_true, isComplementary_iff] at consistent ⊢
  rintro ⟨f, negated, mem⟩
  exact consistent ⟨f, sub _ negated, sub _ mem⟩

theorem absorb_absorb (fs : List Formula) : j.absorb (j.absorb fs) = j.absorb fs := by
  refine List.filter_eq_self.2 fun f mem => ?_
  have kept := (List.mem_filter.1 mem).2
  cases parts : j.dualParts? f with
  | none => rfl
  | some gs =>
    simp only [parts, Option.any_some, Bool.not_eq_true', List.any_eq_false, decide_eq_true_eq]
      at kept ⊢
    exact fun g part shared => kept g part (List.mem_of_mem_filter shared)

theorem Normal.combine {fs : List Formula} (normal : j.Normal d fs) :
    j.combine d fs = j.ofOperands (j.absorb fs) := by
  have ascending : Sorting.StrictlyAscending Formula.cmp (j.absorb fs) :=
    normal.ascending.filter _
  have sorted : Sorting.sort Formula.cmp
      (others (j.absorb fs) ++ (constraints (j.absorb fs)).map .constraint) = j.absorb fs := by
    rw [Sorting.sort_eq_of_perm _ (others_append_constraints_perm _)]
    exact Sorting.sort_of_ascending _ (ascending.ascending _)
  rw [Junction.combine, flatten?_of_plain normal.plain]
  dsimp only
  rw [Sorting.sortDistinct_of_strictlyAscending _ normal.ascending, normal.consistent,
    if_neg Bool.false_ne_true, constraints_absorb, normal.merged, ← constraints_absorb (j := j)]
  dsimp only
  rw [sorted]

theorem Normal.absorb {fs : List Formula} (normal : j.Normal d fs) : j.Normal d (j.absorb fs) where
  ascending := normal.ascending.filter _
  plain f mem := normal.plain f (List.mem_of_mem_filter mem)
  consistent := isComplementary_of_subset (fun f => List.mem_of_mem_filter) normal.consistent
  merged := by rw [constraints_absorb, normal.merged]

/-- The operands that combining leaves; `none` if the junction is settled. -/
def left? (j : Junction) (d : Domain) (parts : List Formula) : Option (List Formula) :=
  (j.flatten? parts).bind fun flat =>
    let operands := Sorting.sortDistinct Formula.cmp flat
    if isComplementary operands then none
    else
      (j.mergeGroups? d (group (constraints (j.absorb operands)))).map fun merged =>
        Sorting.sort Formula.cmp (others (j.absorb operands) ++ merged)

theorem combine_eq (parts : List Formula) :
    j.combine d parts = ((j.left? d parts).map j.ofOperands).getD (.const !j.unit) := by
  rw [combine, left?]
  cases j.flatten? parts with
  | none => rfl
  | some flat =>
    dsimp only [Option.bind_some]
    split
    · rfl
    · cases j.mergeGroups? d
          (group (constraints (j.absorb (Sorting.sortDistinct Formula.cmp flat)))) <;>
        rfl

/-- How the operands that are left come about. -/
theorem left?_eq_some {parts fs : List Formula} (h : j.left? d parts = some fs) :
    ∃ flat operands hs, j.flatten? parts = some flat ∧ (∀ f, f ∈ operands ↔ f ∈ flat) ∧
      isComplementary operands = false ∧ j.Grouped d hs ∧ operands.Nodup ∧
      fs = Sorting.sort Formula.cmp (others (j.absorb operands) ++ (ungroup hs).map .constraint) := by
  obtain ⟨flat, flattened, h⟩ := Option.bind_eq_some_iff.1 h
  dsimp only at h
  split at h
  · cases h
  · next consistent =>
    have ascending := Sorting.sortDistinct_strictlyAscending Formula.cmp flat
    have kept : Sorting.StrictlyAscending Formula.cmp (j.absorb _) := ascending.filter _
    obtain ⟨merged, groups, rfl⟩ := Option.map_eq_some_iff.1 h
    obtain ⟨hs, grouped, -, rfl⟩ := exists_grouped
      (ascending_group ((ascending_constraints kept).ascending _)) groups
    exact ⟨flat, _, hs, flattened, fun f => Sorting.mem_sortDistinct _,
      Bool.not_eq_true _ ▸ consistent, grouped, ascending.nodup _, rfl⟩

theorem mem_flatten? {parts flat : List Formula} (h : j.flatten? parts = some flat) {f : Formula}
    (mem : f ∈ flat) : ∃ p ∈ parts, (∀ b, p ≠ .const b) ∧ f ∈ (j.parts? p).getD [p] := by
  induction parts generalizing flat with
  | nil =>
    cases h
    cases mem
  | cons p ps ih =>
    have later {rest : List Formula} (h : j.flatten? ps = some rest) (mem : f ∈ rest) :
        ∃ q ∈ p :: ps, (∀ b, q ≠ .const b) ∧ f ∈ (j.parts? q).getD [q] := by
      obtain ⟨q, part, source⟩ := ih h mem
      exact ⟨q, .tail _ part, source⟩
    cases p
    case const b =>
      rw [flatten?, Option.ite_none_right_eq_some] at h
      exact later h.2 mem
    all_goals
      obtain ⟨rest, flattened, rfl⟩ := Option.map_eq_some_iff.1 h
      rcases List.mem_append.1 mem with mem | mem
      · exact ⟨_, .head _, fun b => Formula.noConfusion, mem⟩
      · exact later flattened mem

/-- An operand that is left comes from a part or from merging. -/
theorem mem_left? {parts fs : List Formula} (h : j.left? d parts = some fs) {f : Formula}
    (mem : f ∈ fs) : (∃ p ∈ parts, (∀ b, p ≠ .const b) ∧ f ∈ (j.parts? p).getD [p]) ∨
      ∃ c, f = .constraint c ∧ c.decide? d = none := by
  obtain ⟨flat, operands, hs, flattened, same, -, grouped, -, rfl⟩ := left?_eq_some h
  rcases List.mem_append.1 ((Sorting.mem_sort _).1 mem) with mem | mem
  · have kept := List.mem_of_mem_filter (List.mem_of_mem_filter mem)
    exact .inl (mem_flatten? flattened ((same f).1 kept))
  · obtain ⟨c, merged, rfl⟩ := List.mem_map.1 mem
    exact .inr ⟨c, rfl, grouped.undecided c merged⟩

theorem normal_of_left? {parts fs : List Formula} (h : j.left? d parts = some fs)
    (plain : ∀ f ∈ fs, j.Plain f) (negations : ∀ f, .not f ∈ fs → ∃ a, f = .prop a) :
    j.Normal d fs := by
  obtain ⟨flat, operands, hs, -, -, consistent, grouped, distinct, rfl⟩ := left?_eq_some h
  have origin {f : Formula} (mem : f ∈ Sorting.sort Formula.cmp
      (others (j.absorb operands) ++ (ungroup hs).map .constraint))
      (other : ∀ c, f ≠ .constraint c) : f ∈ operands := by
    rcases List.mem_append.1 ((Sorting.mem_sort _).1 mem) with mem | mem
    · exact List.mem_of_mem_filter (List.mem_of_mem_filter mem)
    · obtain ⟨c, -, rfl⟩ := List.mem_map.1 mem
      exact absurd rfl (other c)
  have nodup : (others (j.absorb operands) ++ (ungroup hs).map Formula.constraint).Nodup := by
    refine List.nodup_append.2 ⟨(distinct.filter _).filter _, ?_, fun f mem g mem' => ?_⟩
    · exact (grouped.ascending_ungroup.nodup _).map fun _ _ => Formula.constraint.inj
    · obtain ⟨c, -, rfl⟩ := List.mem_map.1 mem'
      exact (mem_others.1 mem).2 c
  have ascending := (Sorting.sort_ascending Formula.cmp _).strictly _
    ((Sorting.sort_perm Formula.cmp _).nodup_iff.2 nodup)
  have merged : constraints (Sorting.sort Formula.cmp
      (others (j.absorb operands) ++ (ungroup hs).map .constraint)) = ungroup hs := by
    refine (ascending_constraints ascending).eq_of_mem_iff _ grouped.ascending_ungroup fun c => ?_
    rw [mem_constraints, Sorting.mem_sort, List.mem_append, or_iff_right]
    · simp
    · exact fun mem => (mem_others.1 mem).2 c rfl
  refine ⟨ascending, plain, ?_, ?_⟩
  · rw [← Bool.not_eq_true, isComplementary_iff] at consistent ⊢
    rintro ⟨f, negated, mem⟩
    obtain ⟨a, rfl⟩ := negations f negated
    exact consistent ⟨_, origin negated (by simp), origin mem (by simp)⟩
  · rw [merged, grouped.group_ungroup, grouped.mergeGroups?]

end Junction
end PredicateStrength
