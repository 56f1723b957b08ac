import PredicateStrength.Formula.Constraint
import PredicateStrength.Solver.Row

/-!
The linear relaxation of a conjunction of constraints: a column for each monomial, rows for the
ranges, and rows for what the domain tells about the monomials. Disequalities are left out.

Columns are numbered in the order in which their monomials first appear: in the constraints, then
in the facts about the columns before them.
-/
namespace PredicateStrength.Solver

/-- The polynomials that a constraint says are at most zero; a disequality says nothing. -/
def inequalities (c : Constraint) : List Poly :=
  match c.bound with
  | .range lo hi =>
    (hi.map fun h => c.poly - .const h).toList ++ (lo.map fun l => .const l - c.poly).toList
  | .ne _ => []

/-- The value of a constant polynomial that is a positive integer. -/
def positiveInteger? (p : Poly) : Option Int := p.integer?.filter (0 < ·)

/-- The polynomials that are at most zero because of what a quotient or remainder is. The numerator
has to be at least zero, where rounding toward zero is rounding down; the divisor of a quotient
has to be a positive constant. -/
def atomFacts (a : Atom) : List Poly :=
  match a with
  | .quot p q =>
    match p.isNonneg, positiveInteger? q with
    | true, some k =>
      -- `k · a ≤ p ≤ k · a + k - 1`
      let ka := (Poly.ofAtom a).scale k
      [ka - p, p - ka - .const (k - 1 : Int)]
    | _, _ => []
  | .rem p q =>
    let r := Poly.ofAtom a
    (if p.isNonneg then [r - p] else []) ++
      ((positiveInteger? q).map fun k => r - .const (k - 1 : Int)).toList
  | _ => []

/-- The polynomials that are at most zero whatever values of the domain names take. -/
def monomialFacts (d : Domain) (m : Monomial) : List Poly :=
  match d with
  | .integer => []
  | .unsigned => (if m.isNonneg then [⟨[⟨m, -1⟩]⟩] else []) ++ (m.atom?.map atomFacts).getD []

/-- The numerator that the facts about an atom compare it with. -/
def numerator? (a : Atom) : Option Poly :=
  match a with
  | .quot p q => if p.isNonneg && (positiveInteger? q).isSome then some p else none
  | .rem p _ => if p.isNonneg then some p else none
  | _ => none

/-- The monomials other than itself that the facts about a monomial mention. -/
def related (d : Domain) (m : Monomial) : List Monomial :=
  match d with
  | .integer => []
  | .unsigned =>
    (((m.atom?.bind numerator?).map Poly.monomials).getD []).filter (!·.isUnit)

/-- The total size of some monomials. -/
noncomputable def totalSize : List Monomial → Nat
  | [] => 0
  | m :: ms => sizeOf m + totalSize ms

theorem totalSize_append (ms ns : List Monomial) :
    totalSize (ms ++ ns) = totalSize ms + totalSize ns := by
  induction ms with
  | nil => simp [totalSize]
  | cons m ms ih => rw [List.cons_append, totalSize, totalSize, ih, Nat.add_assoc]

theorem totalSize_filter_le (p : Monomial → Bool) (ms : List Monomial) :
    totalSize (ms.filter p) ≤ totalSize ms := by
  induction ms with
  | nil => simp
  | cons m ms ih =>
    rw [List.filter_cons]
    split <;> simp only [totalSize] <;> omega

theorem totalSize_monomials_lt (p : Poly) : totalSize p.monomials < sizeOf p := by
  obtain ⟨ts⟩ := p
  have : totalSize (Poly.monomials ⟨ts⟩) ≤ sizeOf ts := by
    induction ts with
    | nil => simp [totalSize, Poly.monomials]
    | cons t ts ih =>
      obtain ⟨m, c⟩ := t
      simp only [totalSize, Poly.monomials, List.map_cons, List.cons.sizeOf_spec,
        Term.mk.sizeOf_spec] at *
      omega
  simp only [Poly.mk.sizeOf_spec]
  omega

theorem sizeOf_atom?_lt {m : Monomial} {a : Atom} (h : m.atom? = some a) :
    sizeOf a < sizeOf m := by
  unfold Monomial.atom? at h
  obtain ⟨fs⟩ := m
  split at h
  · next he =>
    cases h
    dsimp only at he
    subst he
    simp
    omega
  · cases h

theorem sizeOf_numerator?_lt {a : Atom} {p : Poly} (h : numerator? a = some p) :
    sizeOf p < sizeOf a := by
  unfold numerator? at h
  split at h
  · split at h <;> cases h
    simp
    omega
  · split at h <;> cases h
    simp
    omega
  · cases h

/-- The related monomials are together smaller than the monomial. -/
theorem totalSize_related_lt (d : Domain) (m : Monomial) : totalSize (related d m) < sizeOf m := by
  have hm : 0 < sizeOf m := by
    obtain ⟨fs⟩ := m
    rw [Monomial.mk.sizeOf_spec]
    omega
  unfold related
  split
  · simpa [totalSize] using hm
  · refine Nat.lt_of_le_of_lt (totalSize_filter_le _ _) ?_
    cases h : m.atom?.bind numerator? with
    | none => simpa [totalSize] using hm
    | some p =>
      obtain ⟨a, ha, hp⟩ := Option.bind_eq_some_iff.1 h
      simp only [Option.map_some, Option.getD_some]
      exact Nat.lt_trans (totalSize_monomials_lt p)
        (Nat.lt_trans (sizeOf_numerator?_lt hp) (sizeOf_atom?_lt ha))

/-- The known monomials and behind them those that facts about the pending ones mention, and facts
about those in turn. -/
def closure (d : Domain) (pending known : List Monomial) : List Monomial :=
  match pending with
  | [] => known
  | m :: rest =>
    let fresh := (related d m).filter (· ∉ known)
    closure d (rest ++ fresh) (known ++ fresh)
termination_by totalSize pending
decreasing_by
  have h := totalSize_filter_le (fun n => decide (n ∉ known)) (related d m)
  have := totalSize_related_lt d m
  rw [totalSize_append]
  simp only [totalSize] at *
  omega

/-- The monomials other than the unit that the polynomials mention, in order of first
appearance. -/
def mentioned (ps : List Poly) : List Monomial :=
  (ps.flatMap Poly.monomials).foldl
    (fun ms m => if m.isUnit || m ∈ ms then ms else ms ++ [m]) []

/-- The inequality `p ≤ 0` over numbered columns, with the denominators multiplied out. -/
def Row.ofPoly (columns : List Monomial) (p : Poly) : Row :=
  let integral (c : Rat) : Int := (c * (p.denominatorLcm : Rat)).num
  let coeffs := p.terms.foldr
    (fun t coeffs =>
      if t.monomial.isUnit then coeffs
      else Row.addCoeff (columns.idxOf t.monomial) (integral t.coeff) coeffs)
    []
  Row.tighten ⟨coeffs, integral p.constantTerm⟩

/-- The columns of a conjunction of constraints. -/
def relaxedColumns (d : Domain) (cs : List Constraint) : List Monomial :=
  let ms := mentioned (cs.flatMap inequalities)
  closure d ms ms

/-- The rows of a conjunction of constraints. -/
def relax (d : Domain) (cs : List Constraint) : List Row :=
  let columns := relaxedColumns d cs
  distinctRows
    ((cs.flatMap inequalities ++ columns.flatMap (monomialFacts d)).map (Row.ofPoly columns))

end PredicateStrength.Solver
