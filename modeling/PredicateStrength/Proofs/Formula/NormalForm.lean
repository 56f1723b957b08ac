import Mathlib
import PredicateStrength.Proofs.Formula.Depth

/-!
# The normal form of simplified formulas

A round leaves negations on propositions only, but a negation that it pushes inward can leave a
junction inside one of its own kind, or constraints that are not merged. One round more leaves
neither, however deep the formula is: it works on the operands first, and what it makes of an
operand is a constant or normal already. Simplifying takes two rounds at least, or stops where a
round changes nothing. Unlike a stable formula, a normal one can still have operands for another
round to absorb.

Main statement: `Formula.normal_simplify`.
-/
namespace PredicateStrength

variable {d : Domain} {j : Junction}

/-- Whether different bounds on one polynomial may both be operands of the junction: of two ranges
neither in a conjunction, and both in a disjunction if some integer lies between them. -/
def Junction.Admissible : Junction → Bound → Bound → Prop
  | .all, .range _ _, .range _ _ => False
  | .any, .range lo hi, .range lo' hi' =>
    (∃ h ∈ hi, ∃ l ∈ lo', h + 1 < l) ∨ ∃ h ∈ hi', ∃ l ∈ lo, h + 1 < l
  | _, _, _ => True

namespace Formula

/-- A formula without constants in normal form. -/
inductive Normal (d : Domain) : Formula → Prop
  | prop (a : Atom) : Normal d (.prop a)
  | notProp (a : Atom) : Normal d (.not (.prop a))
  | constraint {c : Constraint} (undecided : c.decide? d = none) : Normal d (.constraint c)
  | junction {j : Junction} {f : Formula} {fs : List Formula} (parts : j.parts? f = some fs)
      (many : 2 ≤ fs.length) (ascending : Sorting.StrictlyAscending Formula.cmp fs)
      (flat : ∀ g ∈ fs, j.parts? g = none)
      (merged : ∀ p b b', .constraint ⟨p, b⟩ ∈ fs → .constraint ⟨p, b'⟩ ∈ fs → b ≠ b' →
        j.Admissible b b')
      (operands : ∀ g ∈ fs, Normal d g) : Normal d f

end Formula

namespace Bound

variable {nonneg : Bool} {bs cs : List Bound}

/-- Bounds that hold together come to one range. -/
theorem admissible_of_intersect (h : intersect nonneg bs = .bounds cs) :
    ∀ b ∈ cs, ∀ b' ∈ cs, b ≠ b' → Junction.all.Admissible b b' := by
  rw [intersect_eq] at h
  split at h
  · cases h
  split at h
  · cases h
  cases h
  have shown {lo hi : Option Int} (mem : range lo hi ∈ together nonneg bs) :
      lo = visibleLo nonneg (ends nonneg bs).lo ∧ hi = (ends nonneg bs).hi := by
    rcases List.mem_append.1 mem with mem | mem
    · split at mem
      · cases List.mem_singleton.1 mem
        exact ⟨rfl, rfl⟩
      · cases mem
    · obtain ⟨v, -, eq⟩ := List.mem_map.1 mem
      cases eq
  intro b mem b' mem' other
  cases b with
  | ne v => trivial
  | range lo hi =>
    cases b' with
    | ne v => trivial
    | range lo' hi' =>
      obtain ⟨rfl, rfl⟩ := shown mem
      obtain ⟨rfl, rfl⟩ := shown mem'
      exact absurd rfl other

theorem precedes_or_of_ne {i i' : Interval} (mem : i ∈ joined nonneg bs)
    (mem' : i' ∈ joined nonneg bs) (other : i ≠ i') : i.Precedes i' ∨ i'.Precedes i := by
  have symmetric : Std.Symm fun i i' : Interval => i.Precedes i' ∨ i'.Precedes i :=
    ⟨fun _ _ => Or.symm⟩
  have pairwise : (joined nonneg bs).Pairwise fun i i' => i.Precedes i' ∨ i'.Precedes i :=
    pairwise_joined.imp .inl
  exact pairwise.forall mem mem' other

/-- Ranges one of which holds are joined wherever no integer lies between them. -/
theorem admissible_of_unite (h : unite nonneg bs = .bounds cs) :
    ∀ b ∈ cs, ∀ b' ∈ cs, b ≠ b' → Junction.any.Admissible b b' := by
  have listed : cs = apart nonneg (joined nonneg bs) (holes bs) := by
    rw [unite_eq] at h
    split at h
    · cases h
    split at h
    · cases h
    split at h <;> cases h
    rfl
  subst listed
  have shownRange {lo hi : Option Int}
      (mem : range lo hi ∈ apart nonneg (joined nonneg bs) (holes bs)) :
      ∃ i ∈ joined nonneg bs, shown nonneg i = range lo hi := by
    rcases List.mem_append.1 mem with mem | mem
    · exact List.mem_map.1 mem
    · obtain ⟨v, -, eq⟩ := List.mem_map.1 mem
      cases eq
  intro b mem b' mem' other
  cases b with
  | ne v => trivial
  | range lo hi =>
    cases b' with
    | ne v => trivial
    | range lo' hi' =>
      obtain ⟨i, member, eq⟩ := shownRange mem
      obtain ⟨i', member', eq'⟩ := shownRange mem'
      have distinct : i ≠ i' := by
        rintro rfl
        exact other (eq.symm.trans eq')
      cases eq
      cases eq'
      rcases precedes_or_of_ne member member' distinct with before | after
      · obtain ⟨h, l, hi, lo, apart⟩ := visibleLo_of_precedes (proper_joined i member) before
        exact .inl ⟨h, hi, l, lo, apart⟩
      · obtain ⟨h, l, hi, lo, apart⟩ := visibleLo_of_precedes (proper_joined i' member') after
        exact .inr ⟨h, hi, l, lo, apart⟩

end Bound

namespace Junction

variable {fs : List Formula}

theorem IsMerged.admissible {nonneg : Bool} {bs : List Bound} (merged : j.IsMerged nonneg bs) :
    ∀ b ∈ bs, ∀ b' ∈ bs, b ≠ b' → j.Admissible b b' := by
  cases j with
  | all => exact Bound.admissible_of_intersect merged.fixed
  | any => exact Bound.admissible_of_unite merged.fixed

/-- Constraints on one polynomial are in one group. -/
theorem Grouped.admissible {gs : List (Poly × List Bound)} (grouped : j.Grouped d gs) {p : Poly}
    {b b' : Bound} (mem : ⟨p, b⟩ ∈ ungroup gs) (mem' : ⟨p, b'⟩ ∈ ungroup gs) (other : b ≠ b') :
    j.Admissible b b' := by
  obtain ⟨g, group, bound⟩ := List.mem_flatMap.1 mem
  obtain ⟨g', group', bound'⟩ := List.mem_flatMap.1 mem'
  simp only [List.mem_map, Constraint.mk.injEq] at bound bound'
  obtain ⟨_, bound, poly, rfl⟩ := bound
  obtain ⟨_, bound', poly', rfl⟩ := bound'
  have distinct : (gs.map Prod.fst).Nodup := grouped.ascending.nodup _
  have same : g = g' := List.inj_on_of_nodup_map distinct group group' (poly.trans poly'.symm)
  subst same
  exact (grouped.merged g group).admissible _ bound _ bound' other

theorem Normal.admissible (normal : j.Normal d fs) {p : Poly} {b b' : Bound}
    (mem : .constraint ⟨p, b⟩ ∈ fs) (mem' : .constraint ⟨p, b'⟩ ∈ fs) (other : b ≠ b') :
    j.Admissible b b' := by
  have ascending := ascending_constraints normal.ascending
  obtain ⟨gs, grouped, -, same⟩ :=
    exists_grouped (ascending_group (ascending.ascending _)) normal.merged
  have listed : constraints fs = ungroup gs :=
    List.map_injective_iff.2 (fun _ _ => Formula.constraint.inj) same
  rw [← mem_constraints, listed] at mem mem'
  exact grouped.admissible mem mem' other

end Junction

namespace Formula

variable {f : Formula}

theorem Normal.not {f : Formula} (normal : Normal d (.not f)) : ∃ a, f = .prop a := by
  cases normal with
  | notProp a => exact ⟨a, rfl⟩
  | @junction j _ fs parts => cases j <;> cases parts

/-- A normal formula brings normal operands into a junction, none of which is such a junction. -/
theorem Normal.brings (normal : Normal d f) : j.Brings (fun g => Normal d g ∧ j.Plain g) f := by
  refine Junction.brings_of_forall (fun notConst alone => ⟨normal, notConst, alone⟩) ?_
  intro fs nested g mem
  cases normal with
  | junction parts many ascending flat merged operands =>
    obtain ⟨rfl, rfl⟩ := Junction.parts?_unique nested parts
    refine ⟨operands g mem, ?_, flat g mem⟩
    rintro b rfl
    cases operands _ mem with
    | @junction j _ fs parts => cases j <;> cases parts
  | _ => cases j <;> cases nested

/-- Combining constants and normal operands leaves a constant or a normal formula. -/
theorem normal_combine {parts : List Formula}
    (operands : ∀ g ∈ parts, (∃ b, g = .const b) ∨ Normal d g) :
    (∃ b, j.combine d parts = .const b) ∨ Normal d (j.combine d parts) := by
  have brought : ∀ g ∈ parts, j.Brings (fun g => Normal d g ∧ j.Plain g) g := fun g mem =>
    (operands g mem).elim .inl Normal.brings
  rcases Junction.combine_cases (fun c undecided => ⟨.constraint undecided, plain_constraint c⟩)
    brought with const | ⟨fs, left, kind, eq⟩
  · exact .inl const
  have normal := Junction.normal_of_left? left (fun g mem => (kind g mem).2)
    (fun g mem => (kind _ mem).1.not)
  rw [eq]
  rcases Junction.ofOperands_cases (j := j) fs with eq | ⟨g, mem, eq⟩ | ⟨many, eq⟩ <;> rw [eq]
  · exact .inl ⟨_, rfl⟩
  · exact .inr (kind g mem).1
  · exact .inr (.junction (Junction.parts?_join fs) many normal.ascending
      (fun g mem => (normal.plain g mem).notNested) (fun _ _ _ => normal.admissible)
      fun g mem => (kind g mem).1)

/-- A round makes a formula with negations on propositions only a constant or normal. -/
theorem Joined.normal_step (joined : Joined IsLiteral f) :
    (∃ b, f.step d = .const b) ∨ Normal d (f.step d) := by
  induction joined with
  | leaf literal =>
    cases literal with
    | const b => exact .inl ⟨b, rfl⟩
    | prop a => exact .inr (.prop a)
    | notProp a => exact .inr (.notProp a)
    | constraint c =>
      rw [step]
      split
      · exact .inl ⟨_, rfl⟩
      · next undecided => exact .inr (.constraint undecided)
  | junction parts _ ih =>
    rw [Junction.step_of_parts? parts]
    exact normal_combine (List.forall_mem_map.2 ih)

/-- `!(1 <= x && x <= 2 && p)`: one round leaves a disjunction in a disjunction. -/
example : (not (.and [between (some 1) (some 2), .prop (.symbol "p")])).step .integer =
    .or [.not (.prop (.symbol "p")), .or [between none (some 0), between (some 3) none]] := by
  rfl

/-- Two rounds or more make a formula a constant or normal. -/
theorem normal_steps (d : Domain) (n : Nat) (f : Formula) :
    (∃ b, f.steps d (n + 2) = .const b) ∨ Normal d (f.steps d (n + 2)) := by
  rw [steps_eq_iterate, Function.iterate_succ_apply', Function.iterate_succ_apply']
  exact (joined_step d _).normal_step

/-- A simplified formula is a constant or in normal form: negations stand on propositions only,
a junction has two operands or more in ascending order, none of which is a constant or such a
junction, its constraints on one polynomial are merged, and no constraint is decided. -/
theorem normal_simplify (d : Domain) (f : Formula) :
    (∃ b, f.simplify d = .const b) ∨ Normal d (f.simplify d) := normal_steps d 6 f

end Formula
end PredicateStrength
