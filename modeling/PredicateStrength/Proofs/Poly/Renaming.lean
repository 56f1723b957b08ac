import Mathlib
import PredicateStrength.Proofs.Expr.Renaming
import PredicateStrength.Poly.Arithmetic

/-!
# Renaming in polynomials

Polynomials look at their atoms only to put them in order. So a renaming that keeps the order of
all names commutes with the operations, and it changes no coefficient, no exponent and no sign.

Main statements: `Poly.rename_add`, `Poly.rename_mul?`, `Poly.rename_pow?` and
`Poly.rename_primitive?`.
-/
namespace PredicateStrength

/-- The order of all names is kept, and that of all members. -/
abbrev Renaming.Monotone (R : Renaming) : Prop := R.KeepsOrder .all

def Head.rename (R : Renaming) : Head → Head
  | .function f => .function (R.name f)
  | .index m => .index (R.name m)
  | .indexField m field => .indexField (R.name m) (R.field field)

mutual
/-- The atom with every name and every member renamed. -/
def Atom.rename (R : Renaming) : Atom → Atom
  | .symbol x => .symbol (R.name x)
  | .app head ps => .app (head.rename R) (Poly.renameAll R ps)
  | .quot p q => .quot (Poly.rename R p) (Poly.rename R q)
  | .rem p q => .rem (Poly.rename R p) (Poly.rename R q)
  | .verbatim e => .verbatim (e.rename R)

def Factor.renameAll (R : Renaming) : List Factor → List Factor
  | [] => []
  | ⟨a, n⟩ :: fs => ⟨Atom.rename R a, n⟩ :: Factor.renameAll R fs

def Monomial.rename (R : Renaming) : Monomial → Monomial
  | ⟨fs⟩ => ⟨Factor.renameAll R fs⟩

def Term.renameAll (R : Renaming) : List Term → List Term
  | [] => []
  | ⟨m, c⟩ :: ts => ⟨Monomial.rename R m, c⟩ :: Term.renameAll R ts

def Poly.rename (R : Renaming) : Poly → Poly
  | ⟨ts⟩ => ⟨Term.renameAll R ts⟩

def Poly.renameAll (R : Renaming) : List Poly → List Poly
  | [] => []
  | p :: ps => Poly.rename R p :: Poly.renameAll R ps
end

variable {R : Renaming}

/-- The factor with its atom renamed. -/
def Factor.rename (R : Renaming) (f : Factor) : Factor := ⟨f.atom.rename R, f.exponent⟩

/-- The term with its monomial renamed. -/
def Term.rename (R : Renaming) (t : Term) : Term := ⟨t.monomial.rename R, t.coeff⟩

theorem Factor.renameAll_eq_map (fs : List Factor) : renameAll R fs = fs.map (rename R) := by
  induction fs with
  | nil => rfl
  | cons f fs ih =>
    obtain ⟨a, n⟩ := f
    rw [renameAll, ih, List.map_cons, rename]

theorem Term.renameAll_eq_map (ts : List Term) : renameAll R ts = ts.map (rename R) := by
  induction ts with
  | nil => rfl
  | cons t ts ih =>
    obtain ⟨m, c⟩ := t
    rw [renameAll, ih, List.map_cons, rename]

theorem Poly.renameAll_eq_map (ps : List Poly) : renameAll R ps = ps.map (rename R) := by
  induction ps with
  | nil => rfl
  | cons p ps ih => rw [renameAll, ih, List.map_cons]

theorem Monomial.factors_rename (m : Monomial) :
    (m.rename R).factors = m.factors.map (Factor.rename R) := by
  obtain ⟨fs⟩ := m
  exact Factor.renameAll_eq_map fs

theorem Poly.terms_rename (p : Poly) : (p.rename R).terms = p.terms.map (Term.rename R) := by
  obtain ⟨ts⟩ := p
  exact Term.renameAll_eq_map ts

theorem Poly.rename_mk (ts : List Term) : rename R ⟨ts⟩ = ⟨ts.map (Term.rename R)⟩ := by
  rw [rename, Term.renameAll_eq_map]

theorem Renaming.KeepsOrder.compare_name (mono : R.Monotone) (x y : String) :
    compare (R.name x) (R.name y) = compare x y := mono.name x trivial y trivial

theorem Renaming.KeepsOrder.compare_field (mono : R.Monotone) (f g : String) :
    compare (R.field f) (R.field g) = compare f g := mono.field f trivial g trivial

theorem Head.cmp_rename (mono : R.Monotone) (a b : Head) :
    (a.rename R).cmp (b.rename R) = a.cmp b := by
  cases a <;> cases b <;>
    simp [rename, cmp, Head.ctorIdx, mono.compare_name, mono.compare_field]

mutual
theorem Atom.cmp_rename (mono : R.Monotone) : ∀ a b : Atom, (a.rename R).cmp (b.rename R) = a.cmp b
  | .symbol _, b => by
    cases b <;> simp [Atom.rename, Atom.cmp, Atom.ctorIdx, mono.compare_name]
  | .app h ps, b => by
    cases b <;> simp [Atom.rename, Atom.cmp, Atom.ctorIdx, Head.cmp_rename mono,
      Poly.cmpList_rename mono ps]
  | .quot p q, b => by
    cases b <;> simp [Atom.rename, Atom.cmp, Atom.ctorIdx, Poly.cmp_rename mono p,
      Poly.cmp_rename mono q]
  | .rem p q, b => by
    cases b <;> simp [Atom.rename, Atom.cmp, Atom.ctorIdx, Poly.cmp_rename mono p,
      Poly.cmp_rename mono q]
  | .verbatim e, b => by
    cases b <;> simp [Atom.rename, Atom.cmp, Atom.ctorIdx,
      Expr.cmp_rename mono (Expr.within_all _) (Expr.within_all _)]

theorem Factor.cmpList_rename (mono : R.Monotone) : ∀ fs gs : List Factor,
    Factor.cmpList (Factor.renameAll R fs) (Factor.renameAll R gs) = Factor.cmpList fs gs
  | [], [] => rfl
  | [], ⟨_, _⟩ :: _ => by simp [Factor.renameAll, Factor.cmpList]
  | ⟨_, _⟩ :: _, [] => by simp [Factor.renameAll, Factor.cmpList]
  | ⟨a, _⟩ :: fs, ⟨b, _⟩ :: gs => by
    simp [Factor.renameAll, Factor.cmpList, Atom.cmp_rename mono a, Factor.cmpList_rename mono fs]

theorem Monomial.cmp_rename (mono : R.Monotone) :
    ∀ m n : Monomial, (m.rename R).cmp (n.rename R) = m.cmp n
  | ⟨fs⟩, ⟨gs⟩ => by simp [Monomial.rename, Monomial.cmp, Factor.cmpList_rename mono fs]

theorem Term.cmpList_rename (mono : R.Monotone) : ∀ ts us : List Term,
    Term.cmpList (Term.renameAll R ts) (Term.renameAll R us) = Term.cmpList ts us
  | [], [] => rfl
  | [], ⟨_, _⟩ :: _ => by simp [Term.renameAll, Term.cmpList]
  | ⟨_, _⟩ :: _, [] => by simp [Term.renameAll, Term.cmpList]
  | ⟨m, _⟩ :: ts, ⟨n, _⟩ :: us => by
    simp [Term.renameAll, Term.cmpList, Monomial.cmp_rename mono m, Term.cmpList_rename mono ts]

theorem Poly.cmp_rename (mono : R.Monotone) : ∀ p q : Poly, (p.rename R).cmp (q.rename R) = p.cmp q
  | ⟨ts⟩, ⟨us⟩ => by simp [Poly.rename, Poly.cmp, Term.cmpList_rename mono ts]

theorem Poly.cmpList_rename (mono : R.Monotone) : ∀ ps qs : List Poly,
    Poly.cmpList (Poly.renameAll R ps) (Poly.renameAll R qs) = Poly.cmpList ps qs
  | [], qs => by cases qs <;> simp [Poly.renameAll, Poly.cmpList]
  | _ :: _, [] => by simp [Poly.renameAll, Poly.cmpList]
  | p :: ps, q :: qs => by
    simp [Poly.renameAll, Poly.cmpList, Poly.cmp_rename mono p, Poly.cmpList_rename mono ps]
end

theorem Atom.rename_inj (mono : R.Monotone) {a b : Atom} : a.rename R = b.rename R ↔ a = b := by
  rw [← cmp_eq_iff, cmp_rename mono, cmp_eq_iff]

theorem Monomial.rename_inj (mono : R.Monotone) {m n : Monomial} :
    m.rename R = n.rename R ↔ m = n := by
  rw [← cmp_eq_iff, cmp_rename mono, cmp_eq_iff]

namespace Monomial

theorem isUnit_rename (m : Monomial) : (m.rename R).isUnit = m.isUnit := by
  rw [isUnit, isUnit, factors_rename, List.isEmpty_map]

theorem mulFactor_rename (mono : R.Monotone) (a : Atom) (n : Nat) (fs : List Factor) :
    mulFactor (a.rename R) n (fs.map (Factor.rename R)) =
      (mulFactor a n fs).map (Factor.rename R) := by
  induction fs with
  | nil => rfl
  | cons f fs ih =>
    rw [List.map_cons, mulFactor, mulFactor, Factor.rename, Atom.cmp_rename mono]
    split
    · rfl
    · rfl
    · rw [List.map_cons, ih]
      rfl

theorem rename_mul (mono : R.Monotone) (m n : Monomial) :
    (m * n).rename R = m.rename R * n.rename R := by
  have product : ∀ fs gs : List Factor,
      (gs.map (Factor.rename R)).foldr (fun f fs => mulFactor f.atom f.exponent fs)
          (fs.map (Factor.rename R)) =
        (gs.foldr (fun f fs => mulFactor f.atom f.exponent fs) fs).map (Factor.rename R) := by
    intro fs gs
    induction gs with
    | nil => rfl
    | cons g gs ih =>
      rw [List.map_cons, List.foldr_cons, List.foldr_cons, ih]
      exact mulFactor_rename mono g.atom g.exponent _
  show Monomial.rename R ⟨_⟩ = ⟨_⟩
  rw [rename, Factor.renameAll_eq_map, factors_rename, factors_rename, product]

theorem exponent_rename (mono : R.Monotone) (m : Monomial) (a : Atom) :
    (m.rename R).exponent (a.rename R) = m.exponent a := by
  rw [exponent, exponent, factors_rename, List.find?_map]
  simp only [Function.comp_def, Factor.rename, Atom.rename_inj mono, Option.map_map]

theorem mulFits_rename (mono : R.Monotone) (m n : Monomial) :
    (m.rename R).mulFits (n.rename R) = m.mulFits n := by
  simp only [mulFits, factors_rename, List.all_map, Function.comp_def, Factor.rename,
    exponent_rename mono]

end Monomial

namespace Poly

theorem rename_const (q : Rat) : (const q).rename R = const q := by
  unfold const
  split <;> rfl

theorem rename_ofAtom (a : Atom) : (ofAtom a).rename R = ofAtom (a.rename R) := rfl

theorem addTerm_rename (mono : R.Monotone) (m : Monomial) (c : Rat) (ts : List Term) :
    addTerm (m.rename R) c (ts.map (Term.rename R)) = (addTerm m c ts).map (Term.rename R) := by
  induction ts with
  | nil =>
    rw [List.map_nil, addTerm, addTerm]
    split <;> rfl
  | cons t ts ih =>
    rw [List.map_cons, addTerm, addTerm, Term.rename, Monomial.cmp_rename mono]
    split
    · split <;> rfl
    · dsimp only
      split <;> rfl
    · rw [List.map_cons, ih]
      rfl

theorem addTerms_rename (mono : R.Monotone) (g h : Term → Term)
    (same : ∀ t, h (t.rename R) = (g t).rename R) (ts us : List Term) :
    (us.map (Term.rename R)).foldr (fun t ts => addTerm (h t).monomial (h t).coeff ts)
        (ts.map (Term.rename R)) =
      (us.foldr (fun t ts => addTerm (g t).monomial (g t).coeff ts) ts).map (Term.rename R) := by
  induction us with
  | nil => rfl
  | cons u us ih =>
    rw [List.map_cons, List.foldr_cons, List.foldr_cons, ih, same]
    exact addTerm_rename mono _ _ _

theorem rename_add (mono : R.Monotone) (p q : Poly) :
    (p + q).rename R = p.rename R + q.rename R := by
  show Poly.rename R ⟨_⟩ = ⟨_⟩
  rw [rename_mk, terms_rename, terms_rename]
  exact congrArg _ (addTerms_rename mono id id (fun _ => rfl) p.terms q.terms).symm

theorem rename_scale (k : Rat) (p : Poly) : (p.scale k).rename R = (p.rename R).scale k := by
  unfold scale
  split
  · rfl
  · rw [rename_mk, terms_rename, List.map_map, List.map_map]
    rfl

theorem rename_neg (p : Poly) : (-p).rename R = -p.rename R := rename_scale (-1) p

theorem rename_sub (mono : R.Monotone) (p q : Poly) :
    (p - q).rename R = p.rename R - q.rename R := by
  show (p + -q).rename R = p.rename R + -q.rename R
  rw [rename_add mono, rename_neg]

theorem rename_mulTerm (mono : R.Monotone) (p : Poly) (t : Term) :
    (p.mulTerm t).rename R = (p.rename R).mulTerm (t.rename R) := by
  rw [mulTerm, mulTerm, rename_mk, terms_rename]
  refine congrArg _ (addTerms_rename mono (fun u => ⟨u.monomial * t.monomial, u.coeff * t.coeff⟩)
    (fun u => ⟨u.monomial * (t.rename R).monomial, u.coeff * (t.rename R).coeff⟩) (fun u => ?_)
    [] p.terms).symm
  simp only [Term.rename, Monomial.rename_mul mono]

theorem rename_mul (mono : R.Monotone) (p q : Poly) :
    (p * q).rename R = p.rename R * q.rename R := by
  show (Poly.mul p q).rename R = Poly.mul (p.rename R) (q.rename R)
  rw [mul, mul, terms_rename, List.foldr_map]
  induction q.terms with
  | nil => rfl
  | cons t ts ih => rw [List.foldr_cons, List.foldr_cons, rename_add mono, ih, rename_mulTerm mono]

theorem mulFits_rename (mono : R.Monotone) (p q : Poly) :
    (p.rename R).mulFits (q.rename R) = p.mulFits q := by
  simp only [mulFits, terms_rename, List.all_map, Function.comp_def, Term.rename,
    Monomial.mulFits_rename mono]

theorem rename_mul? (mono : R.Monotone) (p q : Poly) :
    (p.rename R).mul? (q.rename R) = (p.mul? q).map (rename R) := by
  rw [mul?, mul?, mulFits_rename mono]
  split
  · rw [Option.map_some, rename_mul mono]
  · rfl

theorem rename_pow? (mono : R.Monotone) (p : Poly) (n : Nat) :
    (p.rename R).pow? n = (p.pow? n).map (rename R) := by
  induction n with
  | zero => rw [pow?, pow?, Option.map_some, rename_const]
  | succ n ih =>
    rw [pow?, pow?, ih]
    cases p.pow? n with
    | none => rfl
    | some q => exact rename_mul? mono q p

theorem constant?_rename (p : Poly) : (p.rename R).constant? = p.constant? := by
  rw [constant?, constant?, terms_rename]
  rcases p.terms with _ | ⟨t, _ | ⟨u, ts⟩⟩
  · rfl
  · simp only [List.map_singleton, Term.rename, Monomial.isUnit_rename]
  · rfl

theorem integer?_rename (p : Poly) : (p.rename R).integer? = p.integer? := by
  rw [integer?, integer?, constant?_rename]

theorem constantTerm_rename (p : Poly) : (p.rename R).constantTerm = p.constantTerm := by
  rw [constantTerm, constantTerm, terms_rename, List.find?_map, Option.map_map]
  simp only [Function.comp_def, Term.rename, Monomial.isUnit_rename]

theorem rename_withoutConstant (p : Poly) :
    p.withoutConstant.rename R = (p.rename R).withoutConstant := by
  rw [withoutConstant, withoutConstant, rename_mk, terms_rename, List.filter_map]
  simp only [Function.comp_def, Term.rename, Monomial.isUnit_rename]

theorem divisibleBy_rename (p : Poly) (k : Int) :
    (p.rename R).divisibleBy k = p.divisibleBy k := by
  rw [divisibleBy, divisibleBy, terms_rename, List.all_map]
  rfl

theorem denominatorLcm_rename (p : Poly) : (p.rename R).denominatorLcm = p.denominatorLcm := by
  rw [denominatorLcm, denominatorLcm, terms_rename, List.foldl_map]
  rfl

theorem numeratorGcd_rename (p : Poly) : (p.rename R).numeratorGcd = p.numeratorGcd := by
  rw [numeratorGcd, numeratorGcd, denominatorLcm_rename, terms_rename, List.foldl_map]
  rfl

theorem rename_primitive? (p : Poly) :
    (p.rename R).primitive? = p.primitive?.map fun (k, q) => (k, q.rename R) := by
  rw [primitive?, primitive?, terms_rename, numeratorGcd_rename, denominatorLcm_rename]
  cases p.terms with
  | nil => rfl
  | cons t ts =>
    dsimp only [Option.map_some]
    rw [rename_scale]
    rfl

end Poly

mutual
theorem Expr.mayBeNegative_rename : ∀ e : Expr, (e.rename R).mayBeNegative = e.mayBeNegative
  | .op o args => by
    cases o <;> simp [Expr.rename, Expr.mayBeNegative, Expr.anyMayBeNegative_renameAll args]
  | .ident _ | .num _ | .bool _ | .not _ | .neg _ | .call _ _ | .index _ _ | .member _ _ => rfl

theorem Expr.anyMayBeNegative_renameAll : ∀ es : List Expr,
    Expr.anyMayBeNegative (Expr.renameAll R es) = Expr.anyMayBeNegative es
  | [] => rfl
  | e :: es => by
    rw [Expr.renameAll, Expr.anyMayBeNegative, Expr.anyMayBeNegative, Expr.mayBeNegative_rename e,
      Expr.anyMayBeNegative_renameAll es]
end

mutual
theorem Atom.isNonneg_rename : ∀ a : Atom, (a.rename R).isNonneg = a.isNonneg
  | .symbol _ | .app _ _ => rfl
  | .quot p q => by
    rw [Atom.rename, Atom.isNonneg, Atom.isNonneg, Poly.isNonneg_rename p, Poly.isNonneg_rename q]
  | .rem p _ => by rw [Atom.rename, Atom.isNonneg, Atom.isNonneg, Poly.isNonneg_rename p]
  | .verbatim e => by rw [Atom.rename, Atom.isNonneg, Atom.isNonneg, Expr.mayBeNegative_rename e]

theorem Factor.allNonneg_renameAll : ∀ fs : List Factor,
    Factor.allNonneg (Factor.renameAll R fs) = Factor.allNonneg fs
  | [] => rfl
  | ⟨a, _⟩ :: fs => by
    rw [Factor.renameAll, Factor.allNonneg, Factor.allNonneg, Atom.isNonneg_rename a,
      Factor.allNonneg_renameAll fs]

theorem Monomial.isNonneg_rename : ∀ m : Monomial, (m.rename R).isNonneg = m.isNonneg
  | ⟨fs⟩ => by
    rw [Monomial.rename, Monomial.isNonneg, Monomial.isNonneg, Factor.allNonneg_renameAll fs]

theorem Poly.isNonneg_rename : ∀ p : Poly, (p.rename R).isNonneg = p.isNonneg
  | ⟨ts⟩ => by rw [Poly.rename, Poly.isNonneg, Poly.isNonneg, Term.allNonneg_renameAll ts]

theorem Term.allNonneg_renameAll : ∀ ts : List Term,
    Term.allNonneg (Term.renameAll R ts) = Term.allNonneg ts
  | [] => rfl
  | ⟨m, _⟩ :: ts => by
    rw [Term.renameAll, Term.allNonneg, Term.allNonneg, Monomial.isNonneg_rename m,
      Term.allNonneg_renameAll ts]
end

/-- The replacement of atoms and polynomials that a renaming makes. -/
def Renaming.embedding (R : Renaming) (mono : R.Monotone) : Embedding where
  atom := Atom.rename R
  poly := Poly.rename R
  cmp_atom := Atom.cmp_rename mono
  cmp_poly := Poly.cmp_rename mono
  isNonneg_poly := Poly.isNonneg_rename

end PredicateStrength
