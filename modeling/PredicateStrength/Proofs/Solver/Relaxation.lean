import Mathlib
import PredicateStrength.Proofs.Formula.Truth
import PredicateStrength.Proofs.Poly.Content
import PredicateStrength.Proofs.Solver.Row
import PredicateStrength.Solver.Relaxation

/-!
# The linear relaxation holds wherever the constraints do

A valuation gives every column the value of its monomial. The columns are closed under the facts
about them (`related_subset_closure`), the facts hold under every admissible valuation
(`monomialFacts_nonpos`), and a row says of the columns what its polynomial says of the atoms
(`Row.holds_ofPoly`).

Main statement: what satisfies the constraints solves the relaxation (`solves_relax`).
-/
namespace PredicateStrength

namespace Solver

variable {V : Valuation} {d : Domain}

theorem subset_closure (d : Domain) (pending known : List Monomial) :
    ∀ m ∈ known, m ∈ closure d pending known := by
  fun_induction closure d pending known with
  | case1 => exact fun _ h => h
  | case2 known m rest fresh ih => exact fun n hn => ih n (List.mem_append_left _ hn)

/-- What the facts about a column mention has a column too. -/
theorem related_subset_closure (d : Domain) (pending known : List Monomial)
    (h : ∀ m ∈ known, m ∈ pending ∨ ∀ n ∈ related d m, n ∈ known) :
    ∀ m ∈ closure d pending known, ∀ n ∈ related d m, n ∈ closure d pending known := by
  fun_induction closure d pending known with
  | case1 known =>
    intro m hm n hn
    rcases h m hm with none | all
    · cases none
    · exact all n hn
  | case2 known m rest fresh ih =>
    apply ih
    have covered : ∀ n ∈ related d m, n ∈ known ++ fresh := by
      intro n hn
      by_cases old : n ∈ known
      · exact List.mem_append_left _ old
      · exact List.mem_append_right _ (List.mem_filter.2 ⟨hn, by simpa using old⟩)
    intro k hk
    rcases List.mem_append.1 hk with old | new
    · rcases h k old with waiting | all
      · rcases List.mem_cons.1 waiting with rfl | waiting
        · exact .inr covered
        · exact .inl (List.mem_append_left _ waiting)
      · exact .inr fun n hn => List.mem_append_left _ (all n hn)
    · exact .inl (List.mem_append_right _ new)

/-- A property of the columns that passes on to related monomials holds of all of them. -/
theorem forall_mem_closure {P : Monomial → Prop} (d : Domain) (pending known : List Monomial)
    (pass : ∀ m, P m → ∀ n ∈ related d m, P n) (hpending : ∀ m ∈ pending, P m)
    (hknown : ∀ m ∈ known, P m) : ∀ m ∈ closure d pending known, P m := by
  fun_induction closure d pending known with
  | case1 => exact hknown
  | case2 known m rest fresh ih =>
    have new : ∀ n ∈ fresh, P n := fun n hn =>
      pass m (hpending m (by simp)) n (List.mem_filter.1 hn).1
    refine ih (fun n hn => ?_) (fun n hn => ?_)
    · exact (List.mem_append.1 hn).elim (fun h => hpending n (List.mem_cons_of_mem _ h)) (new n)
    · exact (List.mem_append.1 hn).elim (hknown n) (new n)

theorem mem_foldl_mentioned {ms known : List Monomial} {m : Monomial} :
    m ∈ ms.foldl (fun ms m => if m.isUnit || m ∈ ms then ms else ms ++ [m]) known ↔
      m ∈ known ∨ m ∈ ms ∧ m.isUnit = false := by
  induction ms generalizing known with
  | nil => simp
  | cons n ns ih =>
    rw [List.foldl_cons, ih]
    by_cases unit : n.isUnit = true
    · grind
    · by_cases old : n ∈ known <;> grind

theorem mem_mentioned {ps : List Poly} {m : Monomial} :
    m ∈ mentioned ps ↔ (∃ p ∈ ps, m ∈ p.monomials) ∧ m.isUnit = false := by
  rw [mentioned, mem_foldl_mentioned]
  simp

/-- The value of the monomial of a column. -/
def columnValue (v : Atom → Int) (columns : List Monomial) (i : Nat) : Int :=
  ((columns[i]?).map (Monomial.value v)).getD 0

theorem columnValue_idxOf (v : Atom → Int) {columns : List Monomial} {m : Monomial}
    (h : m ∈ columns) : columnValue v columns (columns.idxOf m) = m.value v := by
  have found : columns[columns.idxOf m]? = some m := List.getElem?_idxOf h
  rw [columnValue, found]
  rfl

/-- The coefficients that the terms other than the constant one get. -/
def coeffsOf (columns : List Monomial) (integral : Rat → Int) (ts : List Term) :
    List (Nat × Int) :=
  ts.foldr
    (fun t coeffs =>
      if t.monomial.isUnit then coeffs
      else Row.addCoeff (columns.idxOf t.monomial) (integral t.coeff) coeffs)
    []

theorem linear_coeffsOf {x : Nat → Int} {w : Monomial → Rat} {columns : List Monomial}
    (integral : Rat → Int) {k n : Rat} {ts : List Term}
    (exact : ∀ t ∈ ts, (integral t.coeff : Rat) = t.coeff * k)
    (known : ∀ t ∈ ts, t.monomial.isUnit = false →
      (x (columns.idxOf t.monomial) : Rat) = n * w t.monomial) :
    (Row.linear x (coeffsOf columns integral ts) : Rat) =
      k * (n * (Poly.withoutConstant ⟨ts⟩).valueAt w) := by
  induction ts with
  | nil => simp [coeffsOf, Poly.withoutConstant, Poly.valueAt]
  | cons t ts ih =>
    have ih := ih (fun u hu => exact u (List.mem_cons_of_mem _ hu))
      (fun u hu => known u (List.mem_cons_of_mem _ hu))
    simp only [Poly.withoutConstant, Poly.valueAt] at ih ⊢
    rw [List.filter_cons]
    by_cases unit : t.monomial.isUnit = true
    · simpa [coeffsOf, unit] using ih
    · have unit : t.monomial.isUnit = false := by simpa using unit
      have step : coeffsOf columns integral (t :: ts) =
          Row.addCoeff (columns.idxOf t.monomial) (integral t.coeff)
            (coeffsOf columns integral ts) := by
        simp [coeffsOf, unit]
      rw [step, Row.linear_addCoeff]
      simp only [unit, Bool.not_false, if_true, Term.sumAt_cons]
      push_cast
      rw [ih, exact t (by simp), known t (by simp) unit]
      ring

theorem ascending_coeffsOf (columns : List Monomial) (integral : Rat → Int) (ts : List Term) :
    ((coeffsOf columns integral ts).map Prod.fst).Pairwise (· < ·) := by
  induction ts with
  | nil => exact .nil
  | cons t ts ih =>
    rw [coeffsOf, List.foldr_cons]
    split
    · exact ih
    · exact Row.ascending_addCoeff ih

theorem Row.ascending_ofPoly (columns : List Monomial) (p : Poly) :
    (Row.ofPoly columns p).Ascending := by
  refine Row.Ascending.tighten ?_
  exact ascending_coeffsOf columns (fun c => (c * (p.denominatorLcm : Rat)).num) p.terms

/-- The row of a polynomial before its constant is rounded. -/
def Row.unrounded (columns : List Monomial) (p : Poly) : Row :=
  ⟨coeffsOf columns (fun c => (c * (p.denominatorLcm : Rat)).num) p.terms,
    (p.constantTerm * (p.denominatorLcm : Rat)).num⟩

/-- The left side of the row is a multiple of the polynomial. -/
theorem Row.linear_unrounded {x : Nat → Int} {n : Int} {w : Monomial → Rat} (one : w .unit = 1)
    {columns : List Monomial} {p : Poly} (hp : p.Ordered)
    (known : ∀ m ∈ p.monomials, m.isUnit = false → (x (columns.idxOf m) : Rat) = n * w m) :
    ((Row.linear x (Row.unrounded columns p).coeffs +
      (Row.unrounded columns p).constant * n : Int) : Rat) =
        p.denominatorLcm * (n * p.valueAt w) := by
  have linear := linear_coeffsOf (fun c => (c * (p.denominatorLcm : Rat)).num)
    (k := p.denominatorLcm) (fun t ht => Poly.num_mul_denominatorLcm ht)
    (fun t ht => known t.monomial (List.mem_map_of_mem ht))
  have constant := p.num_constantTerm_mul_denominatorLcm
  simp only [Row.unrounded]
  push_cast
  rw [linear, constant, Poly.valueAt_eq_constantTerm_add one hp]
  obtain ⟨ts⟩ := p
  ring

/-- The row of a polynomial holds of the columns where the polynomial is at most zero. -/
theorem Row.holds_ofPoly (v : Atom → Int) {columns : List Monomial} {p : Poly} (hp : p.Ordered)
    (covered : ∀ m ∈ p.monomials, m.isUnit = false → m ∈ columns) (nonpos : p.value v ≤ 0) :
    (Row.ofPoly columns p).Holds (columnValue v columns) := by
  refine Row.Holds.tighten (r := Row.unrounded columns p) ?_
  have whole := Row.linear_unrounded (x := columnValue v columns) (n := 1)
    (w := fun m => (m.value v : Rat)) (by simp) hp fun m hm unit => by
      rw [columnValue_idxOf v (covered m hm unit)]
      simp
  have positive : (0 : Rat) < p.denominatorLcm := by exact_mod_cast p.denominatorLcm_pos
  have nonpos : (p.valueAt fun m => (m.value v : Rat)) ≤ 0 := nonpos
  have bound := mul_nonpos_of_nonneg_of_nonpos positive.le nonpos
  rw [Row.Holds]
  have small : ((Row.linear (columnValue v columns) (Row.unrounded columns p).coeffs +
      (Row.unrounded columns p).constant * 1 : Int) : Rat) ≤ 0 := by
    rw [whole]
    simpa using bound
  rw [mul_one] at small
  exact_mod_cast small

theorem positiveInteger?_eq_some {p : Poly} {k : Int} (h : positiveInteger? p = some k) :
    0 < k ∧ V.value p = k := by
  obtain ⟨integer, positive⟩ := Option.filter_eq_some_iff.1 h
  exact ⟨by simpa using positive, V.value_of_integer? integer⟩

theorem tmod_le_self {m : Int} (hm : 0 ≤ m) (n : Int) : m.tmod n ≤ m := by
  have size : (m.tmod n).natAbs ≤ m.natAbs := Int.natAbs_tmod m n ▸ Nat.mod_le _ _
  omega

/-- What is said of a quotient or remainder is so. -/
theorem atomFacts_nonpos (adm : V.Admissible .unsigned) {a : Atom}
    (ints : a.Everywhere Poly.IntegerCoeffs) : ∀ p ∈ atomFacts a, V.value p ≤ 0 := by
  intro f hf
  unfold atomFacts at hf
  split at hf
  · next p q =>
    obtain ⟨m, hm⟩ := ints.1.here.value_eq_int V.number
    split at hf
    · next k nonneg divisor =>
      obtain ⟨kpos, hk⟩ := positiveInteger?_eq_some (V := V) divisor
      have mpos := Poly.value_nonneg adm nonneg ints.1
      rw [Valuation.value, hm, Int.cast_nonneg_iff] at mpos
      have quotient : V.number (.quot p q) = m / k := by
        rw [adm.quot p q m k hm hk, Int.tdiv_eq_ediv_of_nonneg mpos]
      have below : k * (m / k) ≤ m := Int.mul_ediv_self_le kpos.ne'
      have above : m < k * (m / k) + k := Int.lt_mul_ediv_self_add kpos
      have value : V.value p = m := hm
      simp only [List.mem_cons, List.not_mem_nil, or_false] at hf
      rcases hf with rfl | rfl
      · rw [V.value_sub, V.value_scale, V.value_ofAtom, quotient, value]
        have : ((k * (m / k) : Int) : Rat) ≤ m := by exact_mod_cast below
        push_cast at this
        linarith
      · rw [V.value_sub, V.value_sub, V.value_scale, V.value_ofAtom, V.value_const, quotient, value]
        have : ((m + 1 : Int) : Rat) ≤ ((k * (m / k) + k : Int) : Rat) := by exact_mod_cast above
        push_cast at this ⊢
        linarith
    · simp at hf
  · next p q =>
    obtain ⟨m, hm⟩ := ints.1.here.value_eq_int V.number
    obtain ⟨n, hn⟩ := ints.2.here.value_eq_int V.number
    have remainder := adm.rem p q m n hm hn
    have value : V.value p = m := hm
    rcases List.mem_append.1 hf with hf | hf
    · split at hf
      · next nonneg =>
        have mpos := Poly.value_nonneg adm nonneg ints.1
        rw [Valuation.value, hm, Int.cast_nonneg_iff] at mpos
        rw [List.mem_singleton.1 hf, V.value_sub, V.value_ofAtom, remainder, value]
        have : (m.tmod n : Rat) ≤ m := by exact_mod_cast tmod_le_self mpos n
        linarith
      · simp at hf
    · obtain ⟨k, divisor, rfl⟩ := by simpa using hf
      obtain ⟨kpos, hk⟩ := positiveInteger?_eq_some (V := V) divisor
      have same : n = k := by
        have : (n : Rat) = k := hn.symm.trans hk
        exact_mod_cast this
      have below : m.tmod n < n := Int.tmod_lt_of_pos m (same ▸ kpos)
      rw [V.value_sub, V.value_ofAtom, V.value_const, remainder, ← same]
      have : ((m.tmod n + 1 : Int) : Rat) ≤ n := by exact_mod_cast below
      push_cast at this ⊢
      linarith
  · simp at hf

/-- Nothing in the monomial is out of order. -/
structure WellFormed (m : Monomial) : Prop where
  ordered : m.Ordered
  inside : m.Everywhere Poly.Ordered

/-- Nothing in the monomial is out of order, and all coefficients inside its atoms are integers. -/
structure Regular (m : Monomial) : Prop extends WellFormed m where
  integers : m.Everywhere Poly.IntegerCoeffs

theorem wellFormed_of_mem {p : Poly} (wf : p.WellFormed) {m : Monomial} (hm : m ∈ p.monomials) :
    WellFormed m := by
  refine ⟨?_, wf.monomial hm⟩
  obtain ⟨t, ht, rfl⟩ := List.mem_map.1 hm
  exact wf.here.monomial t ht

theorem regular_of_mem {p : Poly} (wf : p.WellFormed) (ints : p.Integral) {m : Monomial}
    (hm : m ∈ p.monomials) : Regular m :=
  ⟨wellFormed_of_mem wf hm, ints.monomial hm⟩

theorem eq_ofAtom_of_atom? {m : Monomial} {a : Atom} (h : m.atom? = some a) :
    m = .ofAtom a := by
  obtain ⟨fs⟩ := m
  unfold Monomial.atom? at h
  split at h
  · next only =>
    cases h
    dsimp only at only
    rw [only]
    rfl
  · cases h

theorem everywhere_of_atom? {P : Poly → Prop} {m : Monomial} {a : Atom} (h : m.atom? = some a)
    (everywhere : m.Everywhere P) : a.Everywhere P := by
  rw [eq_ofAtom_of_atom? h] at everywhere
  exact Monomial.everywhere_iff.1 everywhere a (by simp [Monomial.atoms, Monomial.ofAtom])

theorem everywhere_of_numerator? {P : Poly → Prop} {a : Atom} {p : Poly}
    (h : numerator? a = some p) (everywhere : a.Everywhere P) : p.Everywhere P := by
  unfold numerator? at h
  split at h
  · split at h
    · cases h
      exact everywhere.1
    · cases h
  · split at h
    · cases h
      exact everywhere.1
    · cases h
  · cases h

theorem mem_related {m n : Monomial} (h : n ∈ related d m) :
    ∃ a p, m.atom? = some a ∧ numerator? a = some p ∧ n ∈ p.monomials := by
  unfold related at h
  split at h
  · simp at h
  · obtain ⟨mem, _⟩ := List.mem_filter.1 h
    cases found : m.atom?.bind numerator? with
    | none => simp [found] at mem
    | some p =>
      obtain ⟨a, ha, hp⟩ := Option.bind_eq_some_iff.1 found
      exact ⟨a, p, ha, hp, by simpa [found] using mem⟩

theorem WellFormed.related {m : Monomial} (h : WellFormed m) :
    ∀ n ∈ related d m, WellFormed n := by
  intro n hn
  obtain ⟨a, p, ha, hp, mem⟩ := mem_related hn
  exact wellFormed_of_mem (everywhere_of_numerator? hp (everywhere_of_atom? ha h.inside)) mem

theorem Regular.related {m : Monomial} (h : Regular m) : ∀ n ∈ related d m, Regular n := by
  intro n hn
  obtain ⟨a, p, ha, hp, mem⟩ := mem_related hn
  exact regular_of_mem (everywhere_of_numerator? hp (everywhere_of_atom? ha h.inside))
    (everywhere_of_numerator? hp (everywhere_of_atom? ha h.integers)) mem

/-- The facts about a monomial hold under every admissible valuation. -/
theorem monomialFacts_nonpos (adm : V.Admissible d) {m : Monomial} (regular : Regular m) :
    ∀ p ∈ monomialFacts d m, V.value p ≤ 0 := by
  intro f hf
  unfold monomialFacts at hf
  split at hf
  · simp at hf
  · rcases List.mem_append.1 hf with hf | hf
    · split at hf
      · next nonneg =>
        have value := Monomial.value_nonneg adm nonneg regular.integers
        rw [List.mem_singleton.1 hf, Valuation.value, Poly.value, Term.sum_cons, Term.sum_nil]
        have : (0 : Rat) ≤ (m.value V.number : Rat) := by exact_mod_cast value
        linarith
      · simp at hf
    · cases found : m.atom? with
      | none => simp [found] at hf
      | some a =>
        exact atomFacts_nonpos adm (everywhere_of_atom? found regular.integers) f
          (by simpa [found] using hf)

theorem numerator?_quot {p q : Poly} {k : Int} (nonneg : p.isNonneg = true)
    (divisor : positiveInteger? q = some k) : numerator? (.quot p q) = some p := by
  simp [numerator?, nonneg, divisor]

theorem numerator?_rem {p : Poly} (q : Poly) (nonneg : p.isNonneg = true) :
    numerator? (.rem p q) = some p := by
  simp [numerator?, nonneg]

/-- The polynomials said of an atom are in order, and mention the atom and its numerator only. -/
theorem atomFacts_ordered {a : Atom} (inside : a.Everywhere Poly.Ordered) :
    ∀ f ∈ atomFacts a, f.Ordered ∧ ∀ m ∈ f.monomials, m.isUnit = false →
      m = .ofAtom a ∨ ∃ p, numerator? a = some p ∧ m ∈ p.monomials := by
  intro f hf
  unfold atomFacts at hf
  split at hf
  · next p q =>
    split at hf
    · next k nonneg divisor =>
      have num := numerator?_quot nonneg divisor
      have own : ∀ {m}, m ∈ ((Poly.ofAtom (.quot p q)).scale k).monomials →
          m = .ofAtom (.quot p q) := fun hm => by
        simpa [Poly.monomials, Poly.ofAtom] using Poly.mem_monomials_scale hm
      have ordered := (Poly.ordered_ofAtom (.quot p q)).scale k
      simp only [List.mem_cons, List.not_mem_nil, or_false] at hf
      rcases hf with rfl | rfl
      · refine ⟨ordered.sub inside.1.here, fun m hm _ => ?_⟩
        rcases Poly.mem_monomials_sub hm with hm | hm
        · exact .inl (own hm)
        · exact .inr ⟨p, num, hm⟩
      · refine ⟨(inside.1.here.sub ordered).sub (Poly.ordered_const _), fun m hm unit => ?_⟩
        rcases Poly.mem_monomials_sub hm with hm | hm
        · rcases Poly.mem_monomials_sub hm with hm | hm
          · exact .inr ⟨p, num, hm⟩
          · exact .inl (own hm)
        · rw [Poly.isUnit_of_mem_const hm] at unit
          cases unit
    · simp at hf
  · next p q =>
    have own : ∀ {m}, m ∈ (Poly.ofAtom (.rem p q)).monomials → m = .ofAtom (.rem p q) :=
      fun hm => by simpa [Poly.monomials, Poly.ofAtom] using hm
    have ordered := Poly.ordered_ofAtom (.rem p q)
    rcases List.mem_append.1 hf with hf | hf
    · split at hf
      · next nonneg =>
        rw [List.mem_singleton.1 hf]
        refine ⟨ordered.sub inside.1.here, fun m hm _ => ?_⟩
        rcases Poly.mem_monomials_sub hm with hm | hm
        · exact .inl (own hm)
        · exact .inr ⟨p, numerator?_rem q nonneg, hm⟩
      · simp at hf
    · obtain ⟨k, _, rfl⟩ := by simpa using hf
      refine ⟨ordered.sub (Poly.ordered_const _), fun m hm unit => ?_⟩
      rcases Poly.mem_monomials_sub hm with hm | hm
      · exact .inl (own hm)
      · rw [Poly.isUnit_of_mem_const hm] at unit
        cases unit
  · simp at hf

theorem mem_related_unsigned {m n : Monomial} {a : Atom} {p : Poly} (ha : m.atom? = some a)
    (hp : numerator? a = some p) (hn : n ∈ p.monomials) (unit : n.isUnit = false) :
    n ∈ related .unsigned m := by
  simp [related, ha, hp, hn, unit]

/-- The facts about a monomial are in order and mention it and the related monomials only. -/
theorem monomialFacts_ordered {m : Monomial} (wf : WellFormed m) :
    ∀ f ∈ monomialFacts d m, f.Ordered ∧ ∀ n ∈ f.monomials, n.isUnit = false →
      n = m ∨ n ∈ related d m := by
  intro f hf
  unfold monomialFacts at hf
  split at hf
  · simp at hf
  · rcases List.mem_append.1 hf with hf | hf
    · split at hf
      · rw [List.mem_singleton.1 hf]
        exact ⟨Poly.ordered_singleton wf.ordered (by norm_num),
          fun n hn _ => .inl (by simpa [Poly.monomials] using hn)⟩
      · simp at hf
    · cases found : m.atom? with
      | none => simp [found] at hf
      | some a =>
        obtain ⟨ordered, mentions⟩ := atomFacts_ordered (everywhere_of_atom? found wf.inside) f
          (by simpa [found] using hf)
        refine ⟨ordered, fun n hn unit => ?_⟩
        rcases mentions n hn unit with own | ⟨p, hp, mem⟩
        · exact .inl (own.trans (eq_ofAtom_of_atom? found).symm)
        · exact .inr (mem_related_unsigned found hp mem unit)

/-- The polynomials of the constraints are in order, with integer coefficients inside. -/
def RegularConstraints (cs : List Constraint) : Prop :=
  ∀ c ∈ cs, c.poly.WellFormed ∧ c.poly.Integral

theorem inequalities_nonpos {c : Constraint} (h : c.Holds V) :
    ∀ p ∈ inequalities c, V.value p ≤ 0 := by
  obtain ⟨p, bound⟩ := c
  intro f hf
  unfold inequalities at hf
  cases bound with
  | range lo hi =>
    obtain ⟨low, high⟩ := h
    rcases List.mem_append.1 hf with hf | hf
    · obtain ⟨b, hb, rfl⟩ := by simpa using hf
      have := high b hb
      rw [V.value_sub, V.value_const]
      linarith
    · obtain ⟨b, hb, rfl⟩ := by simpa using hf
      have := low b hb
      rw [V.value_sub, V.value_const]
      linarith
  | ne w => simp at hf

/-- The inequalities of a constraint are in order and mention the monomials of its polynomial. -/
theorem inequalities_ordered {c : Constraint} (ordered : c.poly.Ordered) :
    ∀ f ∈ inequalities c, f.Ordered ∧ ∀ m ∈ f.monomials, m.isUnit = false →
      m ∈ c.poly.monomials := by
  obtain ⟨p, bound⟩ := c
  intro f hf
  unfold inequalities at hf
  cases bound with
  | range lo hi =>
    rcases List.mem_append.1 hf with hf | hf
    · obtain ⟨b, _, rfl⟩ := by simpa using hf
      refine ⟨ordered.sub (Poly.ordered_const _), fun m hm unit => ?_⟩
      rcases Poly.mem_monomials_sub hm with hm | hm
      · exact hm
      · rw [Poly.isUnit_of_mem_const hm] at unit
        cases unit
    · obtain ⟨b, _, rfl⟩ := by simpa using hf
      refine ⟨(Poly.ordered_const _).sub ordered, fun m hm unit => ?_⟩
      rcases Poly.mem_monomials_sub hm with hm | hm
      · rw [Poly.isUnit_of_mem_const hm] at unit
        cases unit
      · exact hm
  | ne w => simp at hf

/-- What the monomials of the constraints have and pass on, all columns have. -/
theorem forall_mem_relaxedColumns {P : Monomial → Prop} {cs : List Constraint}
    (ordered : ∀ c ∈ cs, c.poly.Ordered) (start : ∀ c ∈ cs, ∀ m ∈ c.poly.monomials, P m)
    (pass : ∀ m, P m → ∀ n ∈ related d m, P n) : ∀ m ∈ relaxedColumns d cs, P m := by
  have mentioned : ∀ m ∈ mentioned (cs.flatMap inequalities), P m := by
    intro m hm
    obtain ⟨⟨f, hf, mem⟩, unit⟩ := mem_mentioned.1 hm
    obtain ⟨c, hc, hf⟩ := List.mem_flatMap.1 hf
    exact start c hc m ((inequalities_ordered (ordered c hc) f hf).2 m mem unit)
  exact forall_mem_closure d _ _ pass mentioned mentioned

theorem wellFormed_of_mem_relaxedColumns {cs : List Constraint}
    (wf : ∀ c ∈ cs, c.poly.WellFormed) : ∀ m ∈ relaxedColumns d cs, WellFormed m :=
  forall_mem_relaxedColumns (fun c hc => (wf c hc).here)
    (fun c hc _ hm => wellFormed_of_mem (wf c hc) hm) fun _ hm => hm.related

theorem regular_of_mem_relaxedColumns {cs : List Constraint} (regular : RegularConstraints cs) :
    ∀ m ∈ relaxedColumns d cs, Regular m :=
  forall_mem_relaxedColumns (fun c hc => (regular c hc).1.here)
    (fun c hc _ hm => regular_of_mem (regular c hc).1 (regular c hc).2 hm) fun _ hm => hm.related

/-- Where the constraints hold, the columns' values solve the relaxation. -/
theorem solves_relax (adm : V.Admissible d) {cs : List Constraint}
    (regular : RegularConstraints cs) (holds : ∀ c ∈ cs, c.Holds V) :
    Solves (columnValue V.number (relaxedColumns d cs)) (relax d cs) := by
  refine Solves.distinctRows ?_
  intro r hr
  obtain ⟨f, hf, rfl⟩ := List.mem_map.1 hr
  refine ⟨Row.ascending_ofPoly _ _, ?_⟩
  rcases List.mem_append.1 hf with hf | hf
  · obtain ⟨c, hc, hf'⟩ := List.mem_flatMap.1 hf
    obtain ⟨ordered, _⟩ := inequalities_ordered (regular c hc).1.here f hf'
    refine Row.holds_ofPoly V.number ordered (fun m hm unit => ?_)
      (inequalities_nonpos (holds c hc) f hf')
    exact subset_closure d _ _ m (mem_mentioned.2 ⟨⟨f, hf, hm⟩, unit⟩)
  · obtain ⟨m, hm, hf⟩ := List.mem_flatMap.1 hf
    have mRegular := regular_of_mem_relaxedColumns regular m hm
    obtain ⟨ordered, mentions⟩ := monomialFacts_ordered mRegular.toWellFormed f hf
    refine Row.holds_ofPoly V.number ordered (fun n hn unit => ?_)
      (monomialFacts_nonpos adm mRegular f hf)
    rcases mentions n hn unit with rfl | rel
    · exact hm
    · exact related_subset_closure d _ _ (fun k hk => .inl hk) m hm n rel

end Solver
end PredicateStrength
