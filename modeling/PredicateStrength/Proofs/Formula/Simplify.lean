import Mathlib
import PredicateStrength.Formula.Simplify
import PredicateStrength.Proofs.Formula.Merge
import PredicateStrength.Proofs.Solver.Refutation

/-!
# Simplified formulas hold where the formulas do

A junction is settled by one of its operands: a conjunction by one that fails, a disjunction by
one that holds. Whether some operand settles it is what every stage of `combine` keeps, so the two
junctions share their lemmas.

Main statements: one round keeps the truth of a formula under every valuation that fits its
polynomials (`Formula.holds_step`), and so does simplifying (`Formula.holds_simplify_of_fits`).
Atoms that are quotients or remainders need no particular values for that. Simplifying brings no
proposition and no polynomial into a formula (`Formula.leaves_simplify`).
-/
namespace PredicateStrength

variable {V : Valuation} {d : Domain} {Q : Atom → Prop} {P : Poly → Prop}

theorem Bound.admits_decide? {nonneg : Bool} {b : Bound} {n : Int}
    (known : nonneg = true → 0 ≤ n) {truth : Bool} (h : b.decide? nonneg = some truth) :
    b.Admits n ↔ truth = true := by
  cases b with
  | range lo hi =>
    rw [admits_range_iff]
    cases lo <;> cases hi <;> cases nonneg <;>
      simp [decide?, effectiveLo, Interval.Contains] at known h ⊢
    all_goals grind
  | ne w =>
    simp only [decide?, Bool.and_eq_true, decide_eq_true_eq, Option.ite_none_right_eq_some,
      Option.some.injEq] at h
    obtain ⟨⟨nonneg, negative⟩, rfl⟩ := h
    have zero := known nonneg
    rw [admits_ne]
    exact iff_of_true (by omega) rfl

/-- The polynomial has integer coefficients, and a value from zero on if the domain says so. -/
structure Valuation.Fits (V : Valuation) (d : Domain) (p : Poly) : Prop where
  integers : p.IntegerCoeffs
  nonneg : d = .unsigned → p.isNonneg = true → 0 ≤ V.value p

theorem Valuation.Admissible.fits (adm : V.Admissible d) {p : Poly} (ints : p.Integral) :
    V.Fits d p where
  integers := ints.here
  nonneg := by
    rintro rfl nonneg
    exact Poly.value_nonneg adm nonneg ints

namespace Valuation.Fits

variable {p : Poly}

theorem exists_int (fits : V.Fits d p) : ∃ n : Int, V.value p = n :=
  fits.integers.value_eq_int V.number

theorem known (fits : V.Fits d p) {n : Int} (hn : V.value p = n)
    (h : (decide (d = .unsigned) && p.isNonneg) = true) : 0 ≤ n := by
  rw [Bool.and_eq_true, decide_eq_true_eq] at h
  have value := fits.nonneg h.1 h.2
  rwa [hn, Int.cast_nonneg_iff] at value

end Valuation.Fits

theorem Constraint.holds_decide? {c : Constraint} (fits : V.Fits d c.poly) {truth : Bool}
    (h : c.decide? d = some truth) : c.Holds V ↔ truth = true := by
  obtain ⟨n, value⟩ := fits.exists_int
  rw [Constraint.Holds, value]
  exact Bound.admits_decide? (fits.known value) h

namespace Formula

theorem holds_anyOf (fs : List Formula) : (anyOf fs).Holds V ↔ ∃ f ∈ fs, f.Holds V := by
  match fs with
  | [] => simp [anyOf, Holds]
  | [f] => simp [anyOf]
  | f :: g :: fs => exact holdSome_iff

theorem leaves_anyOf {fs : List Formula} (h : ∀ f ∈ fs, f.Leaves Q P) :
    (anyOf fs).Leaves Q P := by
  match fs, h with
  | [], _ => trivial
  | [f], h => exact h f (.head _)
  | f :: g :: fs, h => exact leavesAll_iff.2 h

mutual
theorem holds_negate : ∀ {f : Formula}, f.Leaves Q Poly.IntegerCoeffs →
    (f.negate.Holds V ↔ ¬f.Holds V)
  | .const b, _ => by cases b <;> simp [negate, Holds]
  | .prop a, _ => Iff.rfl
  | .constraint c, ints => by
    rw [negate, Constraint.negate, holds_anyOf, Holds, ← Constraint.holds_complement ints]
    simp [Holds]
  | .not f, _ => by rw [negate, Holds, not_not]
  | .and fs, ints => by rw [negate, Holds, Holds, holdSome_negateAll ints]
  | .or fs, ints => by rw [negate, Holds, Holds, holdAll_negateAll ints]

theorem holdSome_negateAll : ∀ {fs : List Formula}, LeavesAll Q Poly.IntegerCoeffs fs →
    (HoldSome V (negateAll fs) ↔ ¬HoldAll V fs)
  | [], _ => by simp [negateAll, HoldSome, HoldAll]
  | f :: fs, ints => by
    rw [negateAll, HoldSome, HoldAll, holds_negate ints.1, holdSome_negateAll ints.2, not_and_or]

theorem holdAll_negateAll : ∀ {fs : List Formula}, LeavesAll Q Poly.IntegerCoeffs fs →
    (HoldAll V (negateAll fs) ↔ ¬HoldSome V fs)
  | [], _ => by simp [negateAll, HoldSome, HoldAll]
  | f :: fs, ints => by
    rw [negateAll, HoldAll, HoldSome, holds_negate ints.1, holdAll_negateAll ints.2, not_or]
end

mutual
theorem leaves_negate : ∀ {f : Formula}, f.Leaves Q P → f.negate.Leaves Q P
  | .const _, _ => trivial
  | .prop _, h => h
  | .constraint c, h => by
    refine leaves_anyOf fun f mem => ?_
    obtain ⟨e, part, rfl⟩ := List.mem_map.1 mem
    obtain ⟨b, -, rfl⟩ := List.mem_map.1 part
    exact h
  | .not _, h => h
  | .and _, h => leaves_negateAll h
  | .or _, h => leaves_negateAll h

theorem leaves_negateAll : ∀ {fs : List Formula}, LeavesAll Q P fs → LeavesAll Q P (negateAll fs)
  | [], _ => trivial
  | _ :: _, h => ⟨leaves_negate h.1, leaves_negateAll h.2⟩
end

end Formula

namespace Junction

variable {j : Junction}

/-- An operand of this truth settles the junction. -/
def SettledBy : Junction → Prop → Prop
  | .all, p => ¬p
  | .any, p => p

/-- Some of the formulas settles the junction. -/
def Settled (j : Junction) (V : Valuation) (fs : List Formula) : Prop :=
  ∃ f ∈ fs, j.SettledBy (f.Holds V)

/-- Some formula of those left settles the junction, or it is known to be settled. -/
def SettledIn (j : Junction) (V : Valuation) : Option (List Formula) → Prop
  | none => True
  | some fs => j.Settled V fs

theorem settledBy_join (fs : List Formula) :
    j.SettledBy ((j.join fs).Holds V) ↔ j.Settled V fs := by
  cases j with
  | all => simp [SettledBy, join, Formula.Holds, Formula.holdAll_iff, Settled]
  | any => simp [SettledBy, join, Formula.Holds, Formula.holdSome_iff, Settled]

theorem settledBy_const (b : Bool) :
    j.SettledBy ((Formula.const b).Holds V) ↔ b = !j.unit := by
  cases j <;> cases b <;> simp [SettledBy, Formula.Holds, unit]

theorem settledBy_congr {p q : Prop} (h : p ↔ q) : j.SettledBy p ↔ j.SettledBy q := by rw [h]

theorem holds_iff_of_settledBy {p q : Prop} (h : j.SettledBy p ↔ j.SettledBy q) : p ↔ q := by
  cases j with
  | all => exact not_iff_not.1 h
  | any => exact h

theorem settled_append (fs gs : List Formula) :
    j.Settled V (fs ++ gs) ↔ j.Settled V fs ∨ j.Settled V gs := by
  simp only [Settled, List.mem_append, or_and_right, exists_or]

theorem settled_cons (f : Formula) (fs : List Formula) :
    j.Settled V (f :: fs) ↔ j.SettledBy (f.Holds V) ∨ j.Settled V fs := by
  simp [Settled]

theorem settled_parts? {f : Formula} {fs : List Formula} (h : j.parts? f = some fs) :
    j.Settled V fs ↔ j.SettledBy (f.Holds V) := by
  rw [← settledBy_join]
  cases j <;> cases f <;> cases h <;> rfl

theorem leaves_parts? {f : Formula} {fs : List Formula} (h : j.parts? f = some fs)
    (every : f.Leaves Q P) : Formula.LeavesAll Q P fs := by
  cases j <;> cases f <;> cases h <;> exact every

theorem settled_getD_parts? (f : Formula) :
    j.Settled V ((j.parts? f).getD [f]) ↔ j.SettledBy (f.Holds V) := by
  cases parts : j.parts? f with
  | none => simp [Settled]
  | some fs => exact settled_parts? parts

theorem flatten?_cons (j : Junction) (f : Formula) (fs : List Formula) :
    (∃ b, f = .const b ∧ j.flatten? (f :: fs) = if b = j.unit then j.flatten? fs else none) ∨
      j.flatten? (f :: fs) = (j.flatten? fs).map (((j.parts? f).getD [f]) ++ ·) := by
  cases f with
  | const b => exact .inl ⟨b, rfl, rfl⟩
  | _ => exact .inr rfl

/-- Only operands that settle the junction make the flat list fail. -/
theorem settledIn_flatten? (fs : List Formula) :
    j.SettledIn V (j.flatten? fs) ↔ j.Settled V fs := by
  induction fs with
  | nil => rfl
  | cons f fs ih =>
    rw [settled_cons, ← ih]
    rcases flatten?_cons j f fs with ⟨b, rfl, eq⟩ | eq <;> rw [eq]
    · rw [settledBy_const]
      split
      · next same => rw [same, or_iff_right (by cases j.unit <;> simp)]
      · next other => exact iff_of_true trivial (.inl (Bool.eq_not.2 other))
    · cases j.flatten? fs with
      | none => exact iff_of_true trivial (.inr trivial)
      | some rest =>
        rw [Option.map_some, SettledIn, settled_append, settled_getD_parts?]
        rfl

theorem leaves_flatten? {fs gs : List Formula} (h : j.flatten? fs = some gs)
    (every : Formula.LeavesAll Q P fs) : Formula.LeavesAll Q P gs := by
  induction fs generalizing gs with
  | nil =>
    cases h
    trivial
  | cons f fs ih =>
    rcases flatten?_cons j f fs with ⟨b, rfl, eq⟩ | eq <;> rw [eq] at h
    · split at h
      · exact ih h every.2
      · cases h
    · obtain ⟨rest, flat, rfl⟩ := Option.map_eq_some_iff.1 h
      refine Formula.leavesAll_iff.2 fun g mem => ?_
      rcases List.mem_append.1 mem with here | later
      · cases parts : j.parts? f with
        | none =>
          rw [parts] at here
          cases List.mem_singleton.1 here
          exact every.1
        | some fs' =>
          rw [parts] at here
          exact Formula.leavesAll_iff.1 (leaves_parts? parts every.1) g here
      · exact Formula.leavesAll_iff.1 (ih flat every.2) g later

theorem settled_of_isComplementary {fs : List Formula} (h : isComplementary fs = true) :
    j.Settled V fs := by
  obtain ⟨g, mem, negated⟩ := List.any_eq_true.1 h
  cases g <;> simp only [Bool.false_eq_true] at negated
  case not f =>
    have other : f ∈ fs := of_decide_eq_true negated
    by_cases settled : j.SettledBy (f.Holds V)
    · exact ⟨f, other, settled⟩
    · refine ⟨.not f, mem, ?_⟩
      cases j with
      | all => exact fun not => not (not_not.1 settled)
      | any => exact settled

theorem settledBy_dualParts? {f : Formula} {fs : List Formula} (h : j.dualParts? f = some fs) :
    j.SettledBy (f.Holds V) ↔ ∀ g ∈ fs, j.SettledBy (g.Holds V) := by
  cases j <;> cases f <;> cases h
  · simp [SettledBy, Formula.Holds, Formula.holdSome_iff]
  · simp [SettledBy, Formula.Holds, Formula.holdAll_iff]

theorem sizeOf_lt_of_dualParts? {f g : Formula} {fs : List Formula}
    (h : j.dualParts? f = some fs) (mem : g ∈ fs) : sizeOf g < sizeOf f := by
  have smaller := List.sizeOf_lt_of_mem mem
  cases j <;> cases f <;> cases h <;>
    simp only [Formula.and.sizeOf_spec, Formula.or.sizeOf_spec] <;> omega

/-- An absorbed operand that settles the junction contains an operand that does, and so on down
to one that is kept. -/
theorem settled_absorb (fs : List Formula) : j.Settled V (j.absorb fs) ↔ j.Settled V fs := by
  constructor
  · rintro ⟨f, mem, settled⟩
    exact ⟨f, List.mem_of_mem_filter mem, settled⟩
  · rintro ⟨f, mem, settled⟩
    induction size : sizeOf f using Nat.strong_induction_on generalizing f with
    | _ n ih =>
      by_cases kept : f ∈ j.absorb fs
      · exact ⟨f, kept, settled⟩
      · have absorbed : ((j.dualParts? f).any fun gs => gs.any (· ∈ fs)) = true := by
          by_contra h
          exact kept (List.mem_filter.2 ⟨mem, by simpa using h⟩)
        cases parts : j.dualParts? f with
        | none => simp [parts] at absorbed
        | some gs =>
          rw [parts, Option.any_some, List.any_eq_true] at absorbed
          obtain ⟨g, part, shared⟩ := absorbed
          have smaller : sizeOf g < n := size ▸ sizeOf_lt_of_dualParts? parts part
          have settledPart := (settledBy_dualParts? parts).1 settled g part
          exact ih _ smaller g (of_decide_eq_true shared) settledPart rfl

theorem leaves_absorb {fs : List Formula} (every : Formula.LeavesAll Q P fs) :
    Formula.LeavesAll Q P (j.absorb fs) :=
  Formula.leavesAll_iff.2 fun f mem => Formula.leavesAll_iff.1 every f (List.mem_of_mem_filter mem)

/-- A bound on the polynomial settles the junction. -/
def BoundSettles (j : Junction) (V : Valuation) (p : Poly) (bs : List Bound) : Prop :=
  ∃ b ∈ bs, j.SettledBy (b.Admits (V.value p))

theorem mem_constraints {fs : List Formula} {c : Constraint} :
    c ∈ constraints fs ↔ .constraint c ∈ fs := by
  rw [constraints, List.mem_filterMap]
  constructor
  · rintro ⟨f, mem, same⟩
    cases f <;> cases same
    exact mem
  · exact fun mem => ⟨_, mem, rfl⟩

theorem settled_others_or_constraints (fs : List Formula) :
    j.Settled V fs ↔
      j.Settled V (others fs) ∨ ∃ c ∈ constraints fs, j.SettledBy (c.Holds V) := by
  constructor
  · rintro ⟨f, mem, settled⟩
    cases f
    case constraint c => exact .inr ⟨c, mem_constraints.2 mem, settled⟩
    all_goals exact .inl ⟨_, List.mem_filter.2 ⟨mem, rfl⟩, settled⟩
  · rintro (⟨f, mem, settled⟩ | ⟨c, mem, settled⟩)
    · exact ⟨f, List.mem_of_mem_filter mem, settled⟩
    · exact ⟨.constraint c, mem_constraints.1 mem, settled⟩

theorem boundSettles_cons (p : Poly) (b : Bound) (bs : List Bound) :
    j.BoundSettles V p (b :: bs) ↔
      j.SettledBy (b.Admits (V.value p)) ∨ j.BoundSettles V p bs := by
  simp [BoundSettles]

theorem boundSettles_group (cs : List Constraint) :
    (∃ g ∈ group cs, j.BoundSettles V g.1 g.2) ↔ ∃ c ∈ cs, j.SettledBy (c.Holds V) := by
  induction cs with
  | nil => simp [group]
  | cons c cs ih =>
    rw [List.exists_mem_cons_iff, ← ih, group]
    have alone : j.BoundSettles V c.poly [c.bound] ↔ j.SettledBy (c.Holds V) := by
      simp [BoundSettles, Constraint.Holds]
    split
    · next none => simp [none, alone]
    · next p bs rest some =>
      rw [some]
      split
      · next same =>
        simp only [List.exists_mem_cons_iff, boundSettles_cons, ← same, or_assoc]
        rfl
      · simp only [List.exists_mem_cons_iff, alone]

theorem poly_mem_group {cs : List Constraint} {g : Poly × List Bound} (h : g ∈ group cs) :
    ∃ c ∈ cs, c.poly = g.1 := by
  induction cs generalizing g with
  | nil => cases h
  | cons c cs ih =>
    rw [group] at h
    have first : ∃ e ∈ c :: cs, e.poly = c.poly := ⟨c, .head _, rfl⟩
    have later {g : Poly × List Bound} (mem : g ∈ group cs) : ∃ e ∈ c :: cs, e.poly = g.1 := by
      obtain ⟨e, part, same⟩ := ih mem
      exact ⟨e, .tail _ part, same⟩
    split at h
    · cases List.mem_singleton.1 h
      exact first
    · next p bs rest some =>
      split at h
      · next same =>
        rcases List.mem_cons.1 h with rfl | mem
        · exact ⟨c, .head _, same⟩
        · exact later (some ▸ .tail _ mem)
      · rcases List.mem_cons.1 h with rfl | mem
        · exact first
        · exact later (some ▸ mem)

/-- Merging bounds keeps whether one of them settles the junction. -/
theorem boundSettles_merge {p : Poly} (fits : V.Fits d p) (bs : List Bound) :
    match j.merge (d = .unsigned && p.isNonneg) bs with
    | .always => j.BoundSettles V p bs ↔ j.unit = false
    | .never => j.BoundSettles V p bs ↔ j.unit = true
    | .bounds cs => j.BoundSettles V p bs ↔ j.BoundSettles V p cs := by
  obtain ⟨n, value⟩ := fits.exists_int
  have known := fits.known value
  simp only [BoundSettles, value]
  cases j with
  | all =>
    have same := Bound.holds_intersect known bs
    have fails (bs : List Bound) : (∃ b ∈ bs, ¬b.Admits n) ↔ ¬∀ b ∈ bs, b.Admits n := by simp
    simp only [merge, SettledBy, unit, fails]
    split <;> rename_i merged <;> rw [merged] at same <;> simp [← same, Merged.Holds]
  | any =>
    have same := Bound.holds_unite known bs
    simp only [merge, SettledBy, unit]
    split <;> rename_i merged <;> rw [merged] at same <;> simp [← same, Merged.Holds]

theorem settled_constraints (p : Poly) (bs : List Bound) :
    j.Settled V (bs.map fun b => Formula.constraint ⟨p, b⟩) ↔ j.BoundSettles V p bs := by
  simp [Settled, BoundSettles, Formula.Holds, Constraint.Holds]

/-- The constraints of one group after merging; `none` if it settles the junction. -/
def mergeGroup? (j : Junction) (d : Domain) (p : Poly) (bs : List Bound) : Option (List Formula) :=
  match j.merge (d = Domain.unsigned && p.isNonneg) bs with
  | .always => if j.unit then some [] else none
  | .never => if j.unit then none else some []
  | .bounds bs => some (bs.map fun b => .constraint ⟨p, b⟩)

theorem mergeGroups?_cons (j : Junction) (d : Domain) (p : Poly) (bs : List Bound)
    (rest : List (Poly × List Bound)) :
    j.mergeGroups? d ((p, bs) :: rest) =
      (j.mergeGroup? d p bs).bind fun cs =>
        (j.mergeGroups? d rest).bind fun more => some (cs ++ more) := by
  rw [mergeGroups?, mergeGroup?]
  cases j.merge (d = Domain.unsigned && p.isNonneg) bs <;> cases j.unit <;> rfl

theorem settledIn_mergeGroup? {p : Poly} (fits : V.Fits d p) (bs : List Bound) :
    j.SettledIn V (j.mergeGroup? d p bs) ↔ j.BoundSettles V p bs := by
  have merged := boundSettles_merge (j := j) fits bs
  rw [mergeGroup?]
  split at merged <;> rw [merged]
  · cases j.unit <;> simp [SettledIn, Settled]
  · cases j.unit <;> simp [SettledIn, Settled]
  · exact settled_constraints p _

theorem settledIn_mergeGroups? (gs : List (Poly × List Bound)) (fits : ∀ g ∈ gs, V.Fits d g.1) :
    j.SettledIn V (j.mergeGroups? d gs) ↔ ∃ g ∈ gs, j.BoundSettles V g.1 g.2 := by
  induction gs with
  | nil => simp [mergeGroups?, SettledIn, Settled]
  | cons g gs ih =>
    obtain ⟨p, bs⟩ := g
    have here := settledIn_mergeGroup? (j := j) (fits _ (.head _)) bs
    rw [mergeGroups?_cons, List.exists_mem_cons_iff, ← here,
      ← ih fun g mem => fits g (.tail _ mem)]
    cases j.mergeGroup? d p bs with
    | none => exact iff_of_true trivial (.inl trivial)
    | some cs =>
      cases j.mergeGroups? d gs with
      | none => exact iff_of_true trivial (.inr trivial)
      | some rest => exact settled_append cs rest

theorem leaves_mergeGroups? {gs : List (Poly × List Bound)} (every : ∀ g ∈ gs, P g.1)
    {fs : List Formula} (h : j.mergeGroups? d gs = some fs) : Formula.LeavesAll Q P fs := by
  induction gs generalizing fs with
  | nil =>
    cases h
    trivial
  | cons g gs ih =>
    obtain ⟨p, bs⟩ := g
    rw [mergeGroups?_cons] at h
    obtain ⟨cs, here, h⟩ := Option.bind_eq_some_iff.1 h
    obtain ⟨rest, later, same⟩ := Option.bind_eq_some_iff.1 h
    cases same
    refine Formula.leavesAll_iff.2 fun f mem => ?_
    rcases List.mem_append.1 mem with mem | mem
    · rw [mergeGroup?] at here
      split at here
      · split at here <;> cases here
        cases mem
      · split at here <;> cases here
        cases mem
      · cases here
        obtain ⟨b, -, rfl⟩ := List.mem_map.1 mem
        exact every _ (.head _)
    · exact Formula.leavesAll_iff.1 (ih (fun g mem => every g (.tail _ mem)) later) f mem

theorem settledBy_ofOperands (fs : List Formula) :
    j.SettledBy ((j.ofOperands fs).Holds V) ↔ j.Settled V fs := by
  match fs with
  | [] => rw [ofOperands, settledBy_const]; cases j.unit <;> simp [Settled]
  | [f] => simp [ofOperands, Settled]
  | f :: g :: fs => exact settledBy_join _

theorem leaves_ofOperands {fs : List Formula} (every : Formula.LeavesAll Q P fs) :
    (j.ofOperands fs).Leaves Q P := by
  match fs, every with
  | [], _ => trivial
  | [f], every => exact every.1
  | f :: g :: fs, every => cases j <;> exact every

theorem settled_congr {fs gs : List Formula} (h : ∀ f, f ∈ fs ↔ f ∈ gs) :
    j.Settled V fs ↔ j.Settled V gs := by
  simp only [Settled, h]

theorem leaves_sortDistinct {fs : List Formula} (every : Formula.LeavesAll Q P fs) :
    Formula.LeavesAll Q P (Sorting.sortDistinct Formula.cmp fs) :=
  Formula.leavesAll_iff.2 fun f mem =>
    Formula.leavesAll_iff.1 every f ((Sorting.mem_sortDistinct _).1 mem)

theorem leaves_group {fs : List Formula} (every : Formula.LeavesAll Q P fs) :
    ∀ g ∈ group (constraints fs), P g.1 := by
  intro g mem
  obtain ⟨c, part, same⟩ := poly_mem_group mem
  exact same ▸ Formula.leavesAll_iff.1 every _ (mem_constraints.1 part)

theorem settledBy_combine {parts : List Formula} (fits : Formula.LeavesAll Q (V.Fits d) parts) :
    j.SettledBy ((j.combine d parts).Holds V) ↔ j.Settled V parts := by
  have known : j.SettledBy ((Formula.const !j.unit).Holds V) := (settledBy_const _).2 rfl
  rw [combine, ← settledIn_flatten? parts]
  split
  · next none =>
    rw [none]
    exact iff_of_true known trivial
  · next flat eq =>
    have sorted : j.Settled V (Sorting.sortDistinct Formula.cmp flat) ↔ j.Settled V flat :=
      settled_congr fun f => Sorting.mem_sortDistinct _
    have fits := leaves_sortDistinct (leaves_flatten? eq fits)
    rw [eq, SettledIn, ← sorted]
    dsimp only
    split
    · next complementary => exact iff_of_true known (settled_of_isComplementary complementary)
    generalize Sorting.sortDistinct Formula.cmp flat = operands at fits ⊢
    have groups := settledIn_mergeGroups? (j := j) _ (leaves_group (leaves_absorb (j := j) fits))
    rw [← settled_absorb operands, settled_others_or_constraints, ← boundSettles_group, ← groups]
    split
    · next none =>
      rw [none]
      exact iff_of_true known (.inr trivial)
    · next merged eq =>
      rw [eq, settledBy_ofOperands, settled_congr fun f => Sorting.mem_sort _, settled_append]
      rfl

theorem leaves_combine {parts : List Formula} (every : Formula.LeavesAll Q P parts) :
    (j.combine d parts).Leaves Q P := by
  rw [combine]
  split
  · trivial
  · next flat eq =>
    dsimp only
    split
    · trivial
    split
    · trivial
    · next merged eq' =>
      have left := leaves_absorb (j := j) (leaves_sortDistinct (leaves_flatten? eq every))
      refine leaves_ofOperands (Formula.leavesAll_iff.2 fun f mem => ?_)
      rcases List.mem_append.1 ((Sorting.mem_sort _).1 mem) with mem | mem
      · exact Formula.leavesAll_iff.1 left f (List.mem_of_mem_filter mem)
      · exact Formula.leavesAll_iff.1 (leaves_mergeGroups? (leaves_group left) eq') f mem

end Junction

namespace Formula

mutual
theorem leaves_step : ∀ {f : Formula}, f.Leaves Q P → (f.step d).Leaves Q P
  | .const _, _ => trivial
  | .prop _, every => every
  | .constraint c, every => by
    rw [step]
    split
    · trivial
    · exact every
  | .not f, every => leaves_negate (leaves_step (f := f) every)
  | .and _, every => Junction.leaves_combine (leaves_stepAll every)
  | .or _, every => Junction.leaves_combine (leaves_stepAll every)

theorem leaves_stepAll : ∀ {fs : List Formula}, LeavesAll Q P fs → LeavesAll Q P (stepAll d fs)
  | [], _ => trivial
  | _ :: _, every => ⟨leaves_step every.1, leaves_stepAll every.2⟩
end

mutual
/-- One round keeps the formula's truth. -/
theorem holds_step : ∀ {f : Formula}, f.Leaves Q (V.Fits d) → ((f.step d).Holds V ↔ f.Holds V)
  | .const _, _ => Iff.rfl
  | .prop _, _ => Iff.rfl
  | .constraint c, fits => by
    rw [step]
    split
    · next decided => exact (Constraint.holds_decide? fits decided).symm
    · rfl
  | .not f, fits => by
    have inner : f.Leaves Q (V.Fits d) := fits
    rw [step, holds_negate (leaves_mono (fun _ => Valuation.Fits.integers) (leaves_step inner)),
      holds_step inner, Holds]
  | .and fs, fits => by
    refine Junction.holds_iff_of_settledBy (j := .all) ?_
    rw [step, Junction.settledBy_combine (leaves_stepAll fits), settled_stepAll fits]
    exact (Junction.settledBy_join fs).symm
  | .or fs, fits => by
    refine Junction.holds_iff_of_settledBy (j := .any) ?_
    rw [step, Junction.settledBy_combine (leaves_stepAll fits), settled_stepAll fits]
    exact (Junction.settledBy_join fs).symm

theorem settled_stepAll {j : Junction} : ∀ {fs : List Formula}, LeavesAll Q (V.Fits d) fs →
    (j.Settled V (stepAll d fs) ↔ j.Settled V fs)
  | [], _ => Iff.rfl
  | f :: fs, fits => by
    rw [stepAll, Junction.settled_cons, Junction.settled_cons,
      Junction.settledBy_congr (holds_step fits.1), settled_stepAll fits.2]
end

theorem leaves_steps (n : Nat) {f : Formula} (every : f.Leaves Q P) :
    (f.steps d n).Leaves Q P := by
  induction n generalizing f with
  | zero => exact every
  | succ n ih =>
    rw [steps]
    split
    · exact every
    · exact ih (leaves_step every)

theorem holds_steps (n : Nat) {f : Formula} (fits : f.Leaves Q (V.Fits d)) :
    (f.steps d n).Holds V ↔ f.Holds V := by
  induction n generalizing f with
  | zero => rfl
  | succ n ih =>
    rw [steps]
    split
    · rfl
    · rw [ih (leaves_step fits), holds_step fits]

theorem leaves_simplify {f : Formula} (every : f.Leaves Q P) : (f.simplify d).Leaves Q P :=
  leaves_steps maxRounds every

theorem over_simplify {P : Poly → Prop} {f : Formula} (every : f.Over P) :
    (f.simplify d).Over P :=
  over_iff_leaves.2 (leaves_simplify (over_iff_leaves.1 every))

theorem holds_simplify_of_fits {f : Formula} (fits : f.Over (V.Fits d)) :
    (f.simplify d).Holds V ↔ f.Holds V :=
  holds_steps maxRounds (over_iff_leaves.1 fits)

/-- Simplifying keeps the formula's truth under every admissible valuation. -/
theorem holds_simplify (adm : V.Admissible d) {f : Formula} (ints : f.Integral) :
    (f.simplify d).Holds V ↔ f.Holds V :=
  holds_simplify_of_fits (over_mono (fun _ => adm.fits) ints)

/-- Simplifying keeps the formula's truth whatever integers its atoms are, also those that are
quotients or remainders; in the unsigned domain, what is known to be at least zero has to be so. -/
theorem holds_simplify_iff (d : Domain) (V : Valuation)
    (nonneg : d = .unsigned → ∀ p : Poly, p.IntegerCoeffs → p.isNonneg = true → 0 ≤ V.value p)
    (f : Formula) (ints : f.Over Poly.IntegerCoeffs) : (f.simplify d).Holds V ↔ f.Holds V :=
  holds_simplify_of_fits (over_mono (fun p integers => ⟨integers, fun h => nonneg h p integers⟩) ints)

/-- `0 <= x / y && !(2 * x + 1 <= 6 || paused)`, with the constant term inside the constraint. -/
def halvesAbove : Formula :=
  .and [.constraint ⟨.ofAtom (.quot (.symbol "x") (.symbol "y")), .range (some 0) none⟩,
    .not (.or [.constraint ⟨(Poly.symbol "x").scale 2 + .const 1, .range none (some 6)⟩,
      .prop (.symbol "paused")])]

/-- All numbers are three, so `x / y` is not the quotient of `x` and `y`. -/
def allThree : Valuation := ⟨fun _ => false, fun _ => 3⟩

theorem holds_simplify_iff_halvesAbove :
    (∀ p : Poly, p.IntegerCoeffs → p.isNonneg = true → 0 ≤ allThree.value p) ∧
      halvesAbove.Over Poly.IntegerCoeffs ∧ (halvesAbove.simplify .unsigned).Holds allThree := by
  have nonneg : ∀ p : Poly, p.IntegerCoeffs → p.isNonneg = true → 0 ≤ allThree.value p :=
    fun p _ known => Poly.value_nonneg_of_atoms (fun _ _ => (by decide : (0 : Int) ≤ 3)) known
  have ints : halvesAbove.Over Poly.IntegerCoeffs := by
    refine ⟨Poly.integerCoeffs_ofAtom _, ⟨?_, trivial, trivial⟩, trivial⟩
    exact .add (.scale (by simp [Poly.symbol, Poly.ofAtom])) (Poly.integerCoeffs_const rfl)
  refine ⟨nonneg, ints, (holds_simplify_iff .unsigned allThree (fun _ => nonneg) _ ints).2 ?_⟩
  have holds : halvesAbove.Holds allThree := by
    simp [halvesAbove, allThree, Holds, HoldAll, HoldSome, Constraint.Holds, Bound.Admits,
      Poly.symbol]
    norm_num
  exact holds

end Formula
end PredicateStrength
