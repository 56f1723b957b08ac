import Mathlib
import PredicateStrength.Proofs.Solver.BackSubstitution
import PredicateStrength.Proofs.Solver.Refutation

/-!
# What a satisfiable answer comes with

A search that says yes has found a case of the formula: truth values of the atoms and constraints
whose relaxation is feasible, also after every disequality was split. So there are rational values
of the monomials under which the constraints of the case hold, each excluded value at a distance of
at least one, and with them all facts about the monomials.

Main statements: `exists_case_of_search` (the case is one of the formula) and
`exists_relaxes_of_decideCube` (it has values of the monomials); together `exists_case_of_sat` and
`exists_witness_of_sat`.
-/
namespace PredicateStrength

/-- The bound leaves the value, and a value that it leaves out is at least one away. -/
def Bound.Separates : Bound → Rat → Prop
  | .range lo hi, x => (∀ l ∈ lo, (l : Rat) ≤ x) ∧ ∀ h ∈ hi, x ≤ (h : Rat)
  | .ne v, x => x ≤ v - 1 ∨ v + 1 ≤ x

namespace Nnf

mutual
/-- The formula is true, given the truth values of atoms and which constraints hold. -/
def HoldsBy (truth : Atom → Bool) (C : Constraint → Prop) : Nnf → Prop
  | .const b => b = true
  | .literal a value => truth a = value
  | .constraint c => C c
  | .all fs => HoldAllBy truth C fs
  | .any fs => HoldSomeBy truth C fs

def HoldAllBy (truth : Atom → Bool) (C : Constraint → Prop) : List Nnf → Prop
  | [] => True
  | f :: fs => f.HoldsBy truth C ∧ HoldAllBy truth C fs

def HoldSomeBy (truth : Atom → Bool) (C : Constraint → Prop) : List Nnf → Prop
  | [] => False
  | f :: fs => f.HoldsBy truth C ∨ HoldSomeBy truth C fs
end

end Nnf

namespace Solver

variable {d : Domain} {cs done : List Constraint} {l : Limits} {s : Progress}

/-- Values of the monomials under which the inequalities of the constraints and all facts about
their columns hold. -/
structure Relaxes (d : Domain) (cs : List Constraint) (w : Monomial → Rat) : Prop where
  unit : w .unit = 1
  inequalities : ∀ c ∈ cs, ∀ p ∈ inequalities c, p.valueAt w ≤ 0
  facts : ∀ m ∈ relaxedColumns d cs, ∀ p ∈ monomialFacts d m, p.valueAt w ≤ 0
  nonneg : d = .unsigned → ∀ m : Monomial, m.isNonneg = true → 0 ≤ w m

/-- The values that a rational solution of the rows gives to the monomials. -/
def monomialValue (columns : List Monomial) (x : Nat → Int) (n : Int) (m : Monomial) : Rat :=
  if m.isUnit then 1 else if m ∈ columns then x (columns.idxOf m) / n else 0

theorem valueAt_nonpos_of_holdsOver {columns : List Monomial} {x : Nat → Int} {n : Int}
    (hn : 0 < n) {p : Poly} (hp : p.Ordered)
    (covered : ∀ m ∈ p.monomials, m.isUnit = false → m ∈ columns)
    (h : (Row.ofPoly columns p).HoldsOver x n) : p.valueAt (monomialValue columns x n) ≤ 0 := by
  have below : (Row.unrounded columns p).total x n ≤ 0 := Row.HoldsOver.of_tighten hn.le h
  have nonzero : (n : Rat) ≠ 0 := by exact_mod_cast hn.ne'
  have whole := Row.linear_unrounded (x := x) (n := n) (w := monomialValue columns x n) rfl hp
    fun m hm unit => by
      rw [monomialValue, if_neg (by simp [unit]), if_pos (covered m hm unit),
        mul_div_cancel₀ _ nonzero]
  have scaled : (p.denominatorLcm : Rat) * (n * p.valueAt (monomialValue columns x n)) ≤ 0 := by
    rw [← whole]
    exact_mod_cast below
  have lcm : (0 : Rat) < p.denominatorLcm := by exact_mod_cast p.denominatorLcm_pos
  have positive : (0 : Rat) < n := by exact_mod_cast hn
  exact nonpos_of_mul_nonpos_right (nonpos_of_mul_nonpos_right scaled lcm) positive

theorem Row.reduced_ofPoly (columns : List Monomial) (p : Poly) :
    (Row.ofPoly columns p).Reduced :=
  reduced_tighten (ascending_coeffsOf columns (fun c => (c * (p.denominatorLcm : Rat)).num) p.terms)

/-- A feasible relaxation has values of the monomials. -/
theorem exists_relaxes_of_eliminate (wf : ∀ c ∈ cs, c.poly.WellFormed)
    (h : (eliminate (relax d cs) l s).1 = some true) : ∃ w, Relaxes d cs w := by
  have reduced : ∀ r ∈ relax d cs, r.Reduced := by
    intro r hr
    obtain ⟨p, _, rfl⟩ := List.mem_map.1 (mem_distinctRows.1 hr)
    exact Row.reduced_ofPoly _ p
  obtain ⟨x, n, hn, solves⟩ := exists_solution_of_eliminate reduced h
  have rows : ∀ p ∈ cs.flatMap Solver.inequalities ++
      (relaxedColumns d cs).flatMap (monomialFacts d),
        (Row.ofPoly (relaxedColumns d cs) p).HoldsOver x n := fun p hp =>
    solves _ (mem_distinctRows.2 (List.mem_map_of_mem hp))
  have facts : ∀ m ∈ relaxedColumns d cs, ∀ p ∈ monomialFacts d m,
      p.valueAt (monomialValue (relaxedColumns d cs) x n) ≤ 0 := by
    intro m hm p hp
    obtain ⟨ordered, mentions⟩ :=
      monomialFacts_ordered (wellFormed_of_mem_relaxedColumns wf m hm) p hp
    refine valueAt_nonpos_of_holdsOver hn ordered (fun k hk unit => ?_)
      (rows p (List.mem_append_right _ (List.mem_flatMap.2 ⟨m, hm, hp⟩)))
    rcases mentions k hk unit with rfl | related
    · exact hm
    · exact related_subset_closure d _ _ (fun i hi => .inl hi) m hm k related
  refine ⟨monomialValue (relaxedColumns d cs) x n, rfl, fun c hc p hp => ?_, facts, ?_⟩
  · obtain ⟨ordered, _⟩ := inequalities_ordered (wf c hc).here p hp
    have mem : p ∈ cs.flatMap Solver.inequalities := List.mem_flatMap.2 ⟨c, hc, hp⟩
    exact valueAt_nonpos_of_holdsOver hn ordered
      (fun m hm unit => subset_closure d _ _ m (mem_mentioned.2 ⟨⟨p, mem, hm⟩, unit⟩))
      (rows p (List.mem_append_left _ mem))
  · rintro rfl m nonneg
    by_cases unit : m.isUnit = true
    · simp [monomialValue, unit]
    · by_cases column : m ∈ relaxedColumns .unsigned cs
      · have own := facts m column ⟨[⟨m, -1⟩]⟩ (by simp [monomialFacts, nonneg])
        simpa [Poly.valueAt] using own
      · simp [monomialValue, unit, column]

/-- What the inequalities of a range say. -/
theorem Relaxes.admits {w : Monomial → Rat} (h : Relaxes d cs w) {p : Poly} {lo hi : Option Int}
    (mem : ⟨p, .range lo hi⟩ ∈ cs) :
    (Bound.range lo hi).Separates (p.valueAt w) := by
  have below := h.inequalities _ mem
  constructor
  · rintro b rfl
    have := below (.const b - p) (by simp [Solver.inequalities])
    rw [Poly.valueAt_sub, Poly.valueAt_const w h.unit] at this
    linarith
  · rintro b rfl
    have := below (p - .const b) (by simp [Solver.inequalities])
    rw [Poly.valueAt_sub, Poly.valueAt_const w h.unit] at this
    linarith

/-- The computation says yes, from some progress on. -/
def Says (l : Limits) (c : Budgeted Bool) : Prop := ∃ s, (c l s).1 = some true

theorem Budgeted.exists_of_bind {α : Type} {c : Budgeted α} {f : α → Budgeted Bool}
    (h : Says l (c >>= f)) : ∃ a s s', c l s = (some a, s') ∧ (f a l s').1 = some true := by
  obtain ⟨s, h⟩ := h
  rw [run_bind] at h
  rcases run : c l s with ⟨outcome, s'⟩
  rw [run] at h
  cases outcome with
  | none => cases h
  | some a => exact ⟨a, s, s', run, h⟩

theorem Says.orElse {c e : Budgeted Bool} (h : Says l (c.orElse e)) : Says l c ∨ Says l e := by
  obtain ⟨a, s, s', first, h⟩ := Budgeted.exists_of_bind h
  cases a with
  | true => exact .inl ⟨s, congrArg Prod.fst first⟩
  | false => exact .inr ⟨s', h⟩

theorem Says.startBranch {c : Budgeted Bool} (h : Says l (do Budgeted.startBranch; c)) :
    Says l c := by
  obtain ⟨_, _, s', _, h⟩ := Budgeted.exists_of_bind h
  exact ⟨s', h⟩

theorem Says.ifFeasible {next : Budgeted Bool} (h : Says l (ifFeasible d cs next)) :
    (∃ s, (eliminate (relax d cs) l s).1 = some true) ∧ Says l next := by
  obtain ⟨a, s, s', feasible, h⟩ := Budgeted.exists_of_bind h
  cases a with
  | true => exact ⟨⟨s, congrArg Prod.fst feasible⟩, ⟨s', h⟩⟩
  | false => cases h

/-- What a branch makes of a constraint: a disequality becomes one of its two sides. -/
inductive Side : Constraint → Constraint → Prop
  | range {p lo hi} : Side ⟨p, .range lo hi⟩ ⟨p, .range lo hi⟩
  | below {p v} : Side ⟨p, .ne v⟩ ⟨p, .range none (some (v - 1))⟩
  | above {p v} : Side ⟨p, .ne v⟩ ⟨p, .range (some (v + 1)) none⟩

theorem Side.poly {c e : Constraint} (h : Side c e) : e.poly = c.poly := by cases h <;> rfl

theorem Side.separates {c e : Constraint} (h : Side c e) {w : Monomial → Rat}
    (relaxes : Relaxes d cs w) (mem : e ∈ cs) : c.bound.Separates (c.poly.valueAt w) := by
  cases h with
  | range => exact relaxes.admits mem
  | below =>
    have high := (relaxes.admits mem).2 _ rfl
    push_cast at high
    exact .inl high
  | above =>
    have low := (relaxes.admits mem).1 _ rfl
    push_cast at low
    exact .inr low

theorem exists_side_of_mem {es : List Constraint} (h : List.Forall₂ Side cs es) :
    ∀ c ∈ cs, ∃ e ∈ es, Side c e := by
  induction h with
  | nil => simp
  | @cons c e cs es side _ ih =>
    intro k hk
    rcases List.mem_cons.1 hk with rfl | hk
    · exact ⟨e, by simp, side⟩
    · obtain ⟨e', he', side'⟩ := ih k hk
      exact ⟨e', List.mem_cons_of_mem _ he', side'⟩

theorem wellFormed_replace {c e : Constraint} (same : e.poly = c.poly)
    (h : ∀ k ∈ done ++ c :: cs, k.poly.WellFormed) : ∀ k ∈ done ++ e :: cs, k.poly.WellFormed := by
  intro k hk
  rcases List.mem_append.1 hk with hk | hk
  · exact h k (List.mem_append_left _ hk)
  · rcases List.mem_cons.1 hk with rfl | hk
    · rw [same]
      exact h c (by simp)
    · exact h k (List.mem_append_right _ (List.mem_cons_of_mem _ hk))

theorem exists_sides_of_splitDisequalities (wf : ∀ c ∈ done ++ cs, c.poly.WellFormed)
    (feasible : ∃ w, Relaxes d (done ++ cs) w) (h : Says l (splitDisequalities d done cs)) :
    ∃ es, List.Forall₂ Side cs es ∧ ∃ w, Relaxes d (done ++ es) w := by
  induction cs generalizing done with
  | nil => exact ⟨[], .nil, feasible⟩
  | cons c cs ih =>
    obtain ⟨p, bound⟩ := c
    rw [splitDisequalities] at h
    cases bound with
    | range lo hi =>
      obtain ⟨es, sides, w, relaxes⟩ := ih (by simpa using wf) (by simpa using feasible) h
      exact ⟨_ :: es, .cons .range sides, w, by simpa using relaxes⟩
    | ne v =>
      have branch : ∀ {b : Bound}, Side ⟨p, .ne v⟩ ⟨p, b⟩ → Says l (do
          Budgeted.startBranch
          ifFeasible d (done ++ ⟨p, b⟩ :: cs) (splitDisequalities d (done ++ [⟨p, b⟩]) cs)) →
          ∃ es, List.Forall₂ Side (⟨p, .ne v⟩ :: cs) es ∧ ∃ w, Relaxes d (done ++ es) w := by
        intro b side yes
        obtain ⟨⟨s, found⟩, later⟩ := yes.startBranch.ifFeasible
        have wf' : ∀ c ∈ done ++ ⟨p, b⟩ :: cs, c.poly.WellFormed :=
          wellFormed_replace side.poly wf
        obtain ⟨es, sides, w, relaxes⟩ := ih (by simpa using wf')
          (by simpa using exists_relaxes_of_eliminate wf' found) later
        exact ⟨_ :: es, .cons side sides, w, by simpa using relaxes⟩
      rcases h.orElse with below | above
      · exact branch .below below
      · exact branch .above above

/-- A case that is decided to hold has values of the monomials, for one side of each
disequality. -/
theorem exists_relaxes_of_decideCube {cube : Cube}
    (wf : ∀ c ∈ cube.constraints, c.poly.WellFormed) (h : Says l (decideCube d cube)) :
    ∃ es, List.Forall₂ Side cube.constraints es ∧ ∃ w, Relaxes d es w := by
  obtain ⟨⟨s, found⟩, split⟩ := h.ifFeasible
  exact exists_sides_of_splitDisequalities (by simpa using wf)
    (by simpa using exists_relaxes_of_eliminate wf found) split

/-- The case is met, given the truth values of atoms and which constraints hold. -/
def Cube.Met (truth : Atom → Bool) (C : Constraint → Prop) (cube : Cube) : Prop :=
  (∀ a b, cube.truths.lookup a = some b → truth a = b) ∧ ∀ c ∈ cube.constraints, C c

/-- The case goes on from another one: it asks for no less, and for the formula besides. -/
structure Cube.Extends (cube' cube : Cube) (holds : (Atom → Bool) → (Constraint → Prop) → Prop)
    (P : Poly → Prop) : Prop where
  met : ∀ truth C, cube'.Met truth C → cube.Met truth C ∧ holds truth C
  polys : (∀ c ∈ cube.constraints, P c.poly) → ∀ c ∈ cube'.constraints, P c.poly

variable {P : Poly → Prop} {next : Cube → Budgeted Bool} {cube : Cube}

theorem Cube.extends_self {holds : (Atom → Bool) → (Constraint → Prop) → Prop}
    (always : ∀ truth C, holds truth C) : cube.Extends cube holds P :=
  ⟨fun truth C met => ⟨met, always truth C⟩, id⟩

theorem Cube.extends_of_assume? {a : Atom} {b : Bool} {cube' : Cube}
    (h : cube.assume? a b = some cube') :
    cube'.Extends cube (fun truth _ => truth a = b) P := by
  unfold Cube.assume? at h
  split at h
  · next old known =>
    split at h
    · next same =>
      cases h
      exact ⟨fun truth C met => ⟨met, (met.1 a old known).trans same⟩, id⟩
    · cases h
  · next unknown =>
    cases h
    refine ⟨fun truth C met => ⟨⟨fun e t known => met.1 e t ?_, met.2⟩, met.1 a b (by simp)⟩, id⟩
    have different : e ≠ a := by
      rintro rfl
      rw [unknown] at known
      cases known
    rw [List.lookup_cons, beq_eq_false_iff_ne.2 different]
    exact known

theorem Cube.extends_require {c : Constraint} (hc : P c.poly) :
    (cube.require c).Extends cube (fun _ C => C c) P where
  met := fun truth C met => ⟨⟨met.1, fun e he => met.2 e (List.mem_append_left _ he)⟩,
    met.2 c (by simp [Cube.require])⟩
  polys := fun every e he => (List.mem_append.1 he).elim (every e) fun he =>
    List.mem_singleton.1 he ▸ hc

mutual
/-- A search that says yes goes on in a case of the formula. -/
theorem exists_case_of_search : ∀ {f : Nnf} {next : Cube → Budgeted Bool} {cube : Cube},
    f.Over P → Says l (search next cube f) →
      ∃ cube', Says l (next cube') ∧ cube'.Extends cube (fun truth C => f.HoldsBy truth C) P
  | .const b, next, cube, _, h => by
    rw [search] at h
    split at h
    · next isTrue => exact ⟨cube, h, Cube.extends_self fun _ _ => isTrue⟩
    · obtain ⟨s, h⟩ := h
      cases h
  | .literal a value, next, cube, _, h => by
    rw [search] at h
    split at h
    · next cube' assumed => exact ⟨cube', h, Cube.extends_of_assume? assumed⟩
    · obtain ⟨s, h⟩ := h
      cases h
  | .constraint c, next, cube, every, h => by
    rw [search] at h
    exact ⟨cube.require c, h, Cube.extends_require every⟩
  | .all fs, next, cube, every, h => by
    rw [search] at h
    exact exists_case_of_searchAll every h
  | .any fs, next, cube, every, h => by
    rw [search] at h
    exact exists_case_of_searchAny every h

theorem exists_case_of_searchAll : ∀ {fs : List Nnf} {next : Cube → Budgeted Bool} {cube : Cube},
    Nnf.OverAll P fs → Says l (searchAll next cube fs) →
      ∃ cube', Says l (next cube') ∧ cube'.Extends cube (fun truth C => Nnf.HoldAllBy truth C fs) P
  | [], next, cube, _, h => by
    rw [searchAll] at h
    exact ⟨cube, h, Cube.extends_self fun _ _ => trivial⟩
  | f :: fs, next, cube, every, h => by
    rw [searchAll] at h
    obtain ⟨cube₁, h₁, extends₁⟩ := exists_case_of_searchAll every.2 h
    obtain ⟨cube₂, h₂, extends₂⟩ := exists_case_of_search every.1 h₁
    refine ⟨cube₂, h₂, fun truth C met => ?_, fun all => extends₂.polys (extends₁.polys all)⟩
    obtain ⟨met₁, first⟩ := extends₂.met truth C met
    obtain ⟨met₀, rest⟩ := extends₁.met truth C met₁
    exact ⟨met₀, first, rest⟩

theorem exists_case_of_searchAny : ∀ {fs : List Nnf} {next : Cube → Budgeted Bool} {cube : Cube},
    Nnf.OverAll P fs → Says l (searchAny next cube fs) →
      ∃ cube', Says l (next cube') ∧
        cube'.Extends cube (fun truth C => Nnf.HoldSomeBy truth C fs) P
  | [], next, cube, _, h => by
    rw [searchAny] at h
    obtain ⟨s, h⟩ := h
    cases h
  | f :: fs, next, cube, every, h => by
    rw [searchAny] at h
    rcases h.orElse with first | later
    · obtain ⟨cube', h', ext⟩ := exists_case_of_search every.1 first.startBranch
      exact ⟨cube', h', fun truth C met => (ext.met truth C met).imp_right .inl, ext.polys⟩
    · obtain ⟨cube', h', ext⟩ := exists_case_of_searchAny every.2 later
      exact ⟨cube', h', fun truth C met => (ext.met truth C met).imp_right .inr, ext.polys⟩
end

/-- A satisfiable answer comes with a case of the formula and, for one side of each of its
disequalities, with values of the monomials. Whatever satisfies the case satisfies the formula. -/
theorem exists_case_of_sat {f : Formula} (wf : f.WellFormed)
    (sat : (elimination.check d l f).value = .sat) :
    ∃ truth cs es w, (∀ c ∈ cs, c.poly.WellFormed) ∧ List.Forall₂ Side cs es ∧ Relaxes d es w ∧
      ∀ C : Constraint → Prop, (∀ c ∈ cs, C c) → (Nnf.ofFormula true f).HoldsBy truth C := by
  have yes : Says l (satisfiable d f) := by
    have answer : Answer.ofOutcome (satisfiable d f l {}).1 = .sat := sat
    refine ⟨{}, ?_⟩
    match outcome : (satisfiable d f l {}).1 with
    | none => simp [outcome, Answer.ofOutcome] at answer
    | some true => rfl
    | some false => simp [outcome, Answer.ofOutcome] at answer
  obtain ⟨cube, decided, ext⟩ :=
    exists_case_of_search (Nnf.over_ofFormula true wf) yes
  have polys := ext.polys (by simp)
  obtain ⟨es, sides, w, relaxes⟩ := exists_relaxes_of_decideCube polys decided
  refine ⟨fun a => (cube.truths.lookup a).getD false, cube.constraints, es, w, polys, sides,
    relaxes, fun C all => (ext.met _ C ⟨?_, all⟩).2⟩
  intro a b known
  rw [known]
  rfl

/-- A satisfiable answer has truth values of the atoms and values of the monomials under which the
formula holds, with every value that it leaves out at a distance. -/
theorem exists_witness_of_sat {f : Formula} (wf : f.WellFormed)
    (sat : (elimination.check d l f).value = .sat) :
    ∃ truth es w, Relaxes d es w ∧
      (Nnf.ofFormula true f).HoldsBy truth fun c => c.bound.Separates (c.poly.valueAt w) := by
  obtain ⟨truth, cs, es, w, -, sides, relaxes, holds⟩ := exists_case_of_sat wf sat
  refine ⟨truth, es, w, relaxes, holds _ fun c hc => ?_⟩
  obtain ⟨e, he, side⟩ := exists_side_of_mem sides c hc
  exact side.separates relaxes he

end Solver
end PredicateStrength
