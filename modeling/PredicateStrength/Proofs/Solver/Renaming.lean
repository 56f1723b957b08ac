import Mathlib
import PredicateStrength.Proofs.Poly.Renaming
import PredicateStrength.Solver.Search

/-!
# The elimination cannot see names

Columns are numbered in the order in which monomials appear, and a renaming that keeps the order of
names keeps that. So the rows of a renamed case are the rows of the case, and the search takes the
same course.

Main statement: `Solver.check_rename`.
-/
namespace PredicateStrength.Solver

variable {R : Renaming} {d : Domain}

theorem inequalities_rename (mono : R.Monotone) (c : Constraint) :
    inequalities (c.map (R.embedding mono)) = (inequalities c).map (Poly.rename R) := by
  obtain ⟨p, b⟩ := c
  cases b with
  | ne v => rfl
  | range lo hi =>
    cases lo <;> cases hi <;>
      simp [inequalities, Constraint.map, Renaming.embedding, Poly.rename_sub mono,
        Poly.rename_const]

theorem positiveInteger?_rename (p : Poly) :
    positiveInteger? (p.rename R) = positiveInteger? p := by
  rw [positiveInteger?, positiveInteger?, Poly.integer?_rename]

theorem atomFacts_rename (mono : R.Monotone) (a : Atom) :
    atomFacts (a.rename R) = (atomFacts a).map (Poly.rename R) := by
  cases a with
  | quot p q =>
    simp only [Atom.rename, atomFacts, Poly.isNonneg_rename, positiveInteger?_rename]
    split
    · simp only [List.map_cons, List.map_nil, Poly.rename_sub mono, Poly.rename_scale,
        Poly.rename_const, Poly.rename_ofAtom, Atom.rename]
    · rfl
  | rem p q =>
    simp only [Atom.rename, atomFacts, Poly.isNonneg_rename, positiveInteger?_rename]
    cases p.isNonneg <;> cases positiveInteger? q <;>
      simp [Poly.rename_sub mono, Poly.rename_const, Poly.rename_ofAtom, Atom.rename]
  | _ => rfl

theorem atom?_rename (m : Monomial) : (m.rename R).atom? = m.atom?.map (Atom.rename R) := by
  rw [Monomial.atom?, Monomial.atom?, Monomial.factors_rename]
  rcases m.factors with _ | ⟨⟨a, n⟩, _ | ⟨f, fs⟩⟩
  · rfl
  · rcases n with _ | _ | n <;> rfl
  · rcases n with _ | _ | n <;> rfl

theorem monomialFacts_rename (mono : R.Monotone) (m : Monomial) :
    monomialFacts d (m.rename R) = (monomialFacts d m).map (Poly.rename R) := by
  cases d with
  | integer => rfl
  | unsigned =>
    rw [monomialFacts, monomialFacts, Monomial.isNonneg_rename, atom?_rename, List.map_append]
    congr 1
    · split <;> rfl
    · cases m.atom? with
      | none => rfl
      | some a => exact atomFacts_rename mono a

theorem numerator?_rename (a : Atom) :
    numerator? (a.rename R) = (numerator? a).map (Poly.rename R) := by
  cases a with
  | quot p q =>
    simp only [Atom.rename, numerator?, Poly.isNonneg_rename, positiveInteger?_rename]
    split <;> rfl
  | rem p q =>
    simp only [Atom.rename, numerator?, Poly.isNonneg_rename]
    split <;> rfl
  | _ => rfl

theorem monomials_rename (p : Poly) :
    (p.rename R).monomials = p.monomials.map (Monomial.rename R) := by
  rw [Poly.monomials, Poly.monomials, Poly.terms_rename, List.map_map, List.map_map]
  rfl

theorem related_rename (m : Monomial) :
    related d (m.rename R) = (related d m).map (Monomial.rename R) := by
  cases d with
  | integer => rfl
  | unsigned =>
    rw [related, related, atom?_rename]
    cases m.atom? with
    | none => rfl
    | some a =>
      simp only [Option.map_some, Option.bind_some, numerator?_rename]
      cases numerator? a with
      | none => rfl
      | some p =>
        simp only [Option.map_some, Option.getD_some, monomials_rename, List.filter_map,
          Function.comp_def, Monomial.isUnit_rename]

theorem mem_map_rename (mono : R.Monotone) {m : Monomial} {ms : List Monomial} :
    m.rename R ∈ ms.map (Monomial.rename R) ↔ m ∈ ms :=
  List.mem_map_of_injective fun _ _ => (Monomial.rename_inj mono).1

theorem closure_rename (mono : R.Monotone) (pending known : List Monomial) :
    closure d (pending.map (Monomial.rename R)) (known.map (Monomial.rename R)) =
      (closure d pending known).map (Monomial.rename R) := by
  induction pending, known using closure.induct d with
  | case1 known => rw [List.map_nil, closure, closure]
  | case2 known m rest fresh ih =>
    rw [List.map_cons, closure, closure]
    have image : (related d (m.rename R)).filter (· ∉ known.map (Monomial.rename R)) =
        fresh.map (Monomial.rename R) := by
      rw [related_rename, List.filter_map]
      simp only [Function.comp_def, mem_map_rename mono]
      rfl
    rw [image, ← List.map_append, ← List.map_append]
    exact ih

theorem mentioned_rename (mono : R.Monotone) (ps : List Poly) :
    mentioned (ps.map (Poly.rename R)) = (mentioned ps).map (Monomial.rename R) := by
  have fold : ∀ ms known : List Monomial,
      (ms.map (Monomial.rename R)).foldl
          (fun ms m => if m.isUnit || m ∈ ms then ms else ms ++ [m])
          (known.map (Monomial.rename R)) =
        (ms.foldl (fun ms m => if m.isUnit || m ∈ ms then ms else ms ++ [m]) known).map
          (Monomial.rename R) := by
    intro ms
    induction ms with
    | nil => exact fun known => rfl
    | cons m ms ih =>
      intro known
      rw [List.map_cons, List.foldl_cons, List.foldl_cons, ← ih]
      simp only [Monomial.isUnit_rename, mem_map_rename mono]
      split
      · rfl
      · rw [List.map_append, List.map_singleton]
  rw [mentioned, mentioned, ← fold, List.map_nil, List.flatMap_map, List.map_flatMap]
  simp only [monomials_rename]

theorem ofPoly_rename (mono : R.Monotone) (columns : List Monomial) (p : Poly) :
    Row.ofPoly (columns.map (Monomial.rename R)) (p.rename R) = Row.ofPoly columns p := by
  have index : ∀ m : Monomial, (columns.map (Monomial.rename R)).idxOf (m.rename R) =
      columns.idxOf m := by
    intro m
    induction columns with
    | nil => rfl
    | cons c cs ih =>
      rw [List.map_cons, List.idxOf_cons, List.idxOf_cons, ih]
      simp only [beq_eq_decide, Monomial.rename_inj mono]
  simp only [Row.ofPoly, Poly.denominatorLcm_rename, Poly.terms_rename, List.foldr_map,
    Poly.constantTerm_rename, Term.rename, Monomial.isUnit_rename, index]

theorem relax_rename (mono : R.Monotone) (cs : List Constraint) :
    relax d (cs.map (Constraint.map (R.embedding mono))) = relax d cs := by
  have rows : (cs.map (Constraint.map (R.embedding mono))).flatMap inequalities =
      (cs.flatMap inequalities).map (Poly.rename R) := by
    rw [List.flatMap_map, List.map_flatMap]
    simp only [inequalities_rename mono]
  have columns : relaxedColumns d (cs.map (Constraint.map (R.embedding mono))) =
      (relaxedColumns d cs).map (Monomial.rename R) := by
    rw [relaxedColumns, relaxedColumns, rows, mentioned_rename mono]
    exact closure_rename mono _ _
  rw [relax, relax, rows, columns, List.flatMap_map]
  simp only [monomialFacts_rename mono, ← List.map_flatMap, ← List.map_append, List.map_map,
    Function.comp_def, ofPoly_rename mono]

/-- What the renamed formula assumes where the formula assumes this. -/
def Cube.rename (R : Renaming) (mono : R.Monotone) (cube : Cube) : Cube where
  truths := cube.truths.map fun (a, value) => (a.rename R, value)
  constraints := cube.constraints.map (Constraint.map (R.embedding mono))

theorem ifFeasible_rename (mono : R.Monotone) (cs : List Constraint) (next : Budgeted Bool) :
    ifFeasible d (cs.map (Constraint.map (R.embedding mono))) next = ifFeasible d cs next := by
  rw [ifFeasible, ifFeasible, relax_rename]

theorem splitDisequalities_rename (mono : R.Monotone) (done cs : List Constraint) :
    splitDisequalities d (done.map (Constraint.map (R.embedding mono)))
        (cs.map (Constraint.map (R.embedding mono))) = splitDisequalities d done cs := by
  induction cs generalizing done with
  | nil => rfl
  | cons c cs ih =>
    obtain ⟨p, b⟩ := c
    have behind : ∀ b : Bound, done.map (Constraint.map (R.embedding mono)) ++
        [⟨(R.embedding mono).poly p, b⟩] =
        (done ++ [(⟨p, b⟩ : Constraint)]).map (Constraint.map (R.embedding mono)) :=
      fun b => by rw [List.map_append, List.map_singleton, Constraint.map]
    cases b with
    | range lo hi =>
      rw [List.map_cons, splitDisequalities, splitDisequalities]
      dsimp only [Constraint.map]
      rw [behind]
      exact ih _
    | ne v =>
      have side : ∀ b : Bound,
          ifFeasible d (done.map (Constraint.map (R.embedding mono)) ++
              ⟨(R.embedding mono).poly p, b⟩ :: cs.map (Constraint.map (R.embedding mono)))
            (splitDisequalities d (done.map (Constraint.map (R.embedding mono)) ++
              [⟨(R.embedding mono).poly p, b⟩]) (cs.map (Constraint.map (R.embedding mono)))) =
          ifFeasible d (done ++ ⟨p, b⟩ :: cs) (splitDisequalities d (done ++ [⟨p, b⟩]) cs) := by
        intro b
        rw [behind, ih, List.append_cons, behind, ← List.map_append, ifFeasible_rename,
          ← List.append_cons]
      rw [List.map_cons, splitDisequalities, splitDisequalities]
      dsimp only [Constraint.map]
      rw [side, side]

theorem decideCube_rename (mono : R.Monotone) (cube : Cube) :
    decideCube d (cube.rename R mono) = decideCube d cube := by
  rw [decideCube, decideCube, Cube.rename]
  dsimp only
  rw [ifFeasible_rename]
  exact congrArg _ (splitDisequalities_rename mono [] cube.constraints)

theorem assume?_rename (mono : R.Monotone) (cube : Cube) (a : Atom) (value : Bool) :
    (cube.rename R mono).assume? (a.rename R) value =
      (cube.assume? a value).map (Cube.rename R mono) := by
  have lookup : (cube.truths.map fun (a, value) => (a.rename R, value)).lookup (a.rename R) =
      cube.truths.lookup a := by
    induction cube.truths with
    | nil => rfl
    | cons t ts ih =>
      rw [List.map_cons, List.lookup_cons, List.lookup_cons, ih]
      simp only [beq_eq_decide, Atom.rename_inj mono]
  rw [Cube.assume?, Cube.assume?, Cube.rename]
  dsimp only
  rw [lookup]
  split
  · split <;> rfl
  · rfl

mutual
theorem search_rename (mono : R.Monotone) {next next' : Cube → Budgeted Bool}
    (same : ∀ cube, next' (cube.rename R mono) = next cube) (cube : Cube) : ∀ f : Nnf,
    search next' (cube.rename R mono) (f.map (R.embedding mono)) = search next cube f
  | .const b => by
    rw [Nnf.map, search, search, same]
  | .literal a value => by
    rw [Nnf.map, search, search]
    have assumed := assume?_rename mono cube a value
    cases found : cube.assume? a value with
    | none => simp [Renaming.embedding, assumed, found]
    | some cube => simp [Renaming.embedding, assumed, found, same]
  | .constraint c => by
    rw [Nnf.map, search, search, ← same]
    congr 1
    simp only [Cube.require, Cube.rename, List.map_append, List.map_singleton]
  | .all fs => by rw [Nnf.map, search, search, searchAll_rename mono same cube fs]
  | .any fs => by rw [Nnf.map, search, search, searchAny_rename mono same cube fs]

theorem searchAll_rename (mono : R.Monotone) {next next' : Cube → Budgeted Bool}
    (same : ∀ cube, next' (cube.rename R mono) = next cube) (cube : Cube) : ∀ fs : List Nnf,
    searchAll next' (cube.rename R mono) (Nnf.mapAll (R.embedding mono) fs) =
      searchAll next cube fs
  | [] => by rw [Nnf.mapAll, searchAll, searchAll, same]
  | f :: fs => by
    rw [Nnf.mapAll, searchAll, searchAll]
    exact searchAll_rename mono (fun cube => search_rename mono same cube f) cube fs

theorem searchAny_rename (mono : R.Monotone) {next next' : Cube → Budgeted Bool}
    (same : ∀ cube, next' (cube.rename R mono) = next cube) (cube : Cube) : ∀ fs : List Nnf,
    searchAny next' (cube.rename R mono) (Nnf.mapAll (R.embedding mono) fs) =
      searchAny next cube fs
  | [] => by rw [Nnf.mapAll, searchAny, searchAny]
  | f :: fs => by
    rw [Nnf.mapAll, searchAny, searchAny, searchAny_rename mono same cube fs,
      search_rename mono same cube f]
end

/-- The answer to a renamed formula is the answer to the formula. -/
theorem check_rename (mono : R.Monotone) (l : Limits) (f : Formula) :
    elimination.check d l (f.map (R.embedding mono)) = elimination.check d l f := by
  show solve d l _ = solve d l f
  have course : satisfiable d (f.map (R.embedding mono)) = satisfiable d f := by
    rw [satisfiable, satisfiable, Nnf.ofFormula_map]
    exact search_rename mono (decideCube_rename mono) {} _
  rw [solve, solve, course]

end PredicateStrength.Solver
