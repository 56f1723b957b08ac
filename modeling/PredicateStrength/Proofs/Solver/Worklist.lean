import Mathlib
import PredicateStrength.Proofs.Solver.RelaxedModel

/-!
# The columns that facts introduce

The relaxation can be set up in one pass over a list of columns that grows while it is gone through:
an inequality brings a column for each of its monomials that has none, a visit to a column puts down
the inequalities that are the facts about it (`System.visit`). The numerator that a fact mentions is
smaller than the quotient or remainder, so the visits catch up with the columns.

Main statements: the visits end after one for each column of the relaxation, with its columns and
rows (`System.after_relaxedColumns`); the rows state the facts about all columns, those that were
introduced on the way included (`statesFacts_relax`).
-/
namespace PredicateStrength

namespace Poly

variable {p q : Poly} {m : Monomial}

theorem mem_addTerm_of_ne {c : Rat} {ts : List Term} {t : Term} (mem : t ∈ ts)
    (other : t.monomial ≠ m) : t ∈ addTerm m c ts := by
  induction ts with
  | nil => cases mem
  | cons u us ih =>
    rw [addTerm]
    split
    · split
      · exact mem
      · exact List.mem_cons_of_mem _ mem
    · next same =>
      have different : t ≠ u := fun h => other (h ▸ ((Monomial.cmp_eq_iff _ _).1 same).symm)
      have later := (List.mem_cons.1 mem).resolve_left different
      split
      · exact later
      · exact List.mem_cons_of_mem _ later
    · rcases List.mem_cons.1 mem with rfl | mem
      · exact List.mem_cons_self
      · exact List.mem_cons_of_mem _ (ih mem)

theorem mem_addTerm_self {c : Rat} (hc : c ≠ 0) {ts : List Term}
    (absent : ∀ t ∈ ts, t.monomial ≠ m) : (⟨m, c⟩ : Term) ∈ addTerm m c ts := by
  induction ts with
  | nil => simp [addTerm, hc]
  | cons u us ih =>
    obtain ⟨first, rest⟩ := List.forall_mem_cons.1 absent
    rw [addTerm]
    split
    · rw [if_neg hc]
      exact List.mem_cons_self
    · next same => exact absurd ((Monomial.cmp_eq_iff _ _).1 same).symm first
    · exact List.mem_cons_of_mem _ (ih rest)

theorem mem_monomials_add_of_right (hq : q.Ordered) (mem : m ∈ q.monomials)
    (left : m ∉ p.monomials) : m ∈ (p + q).monomials := by
  show m ∈ (q.terms.foldr (fun t ts => addTerm t.monomial t.coeff ts) p.terms).map Term.monomial
  obtain ⟨us⟩ := q
  induction us with
  | nil => cases mem
  | cons u us ih =>
    obtain ⟨⟨nonzero, -, below⟩, rest⟩ := Ordered.cons_iff.1 hq
    have first : u.monomial ∉ Poly.monomials ⟨us⟩ :=
      (List.nodup_cons.1 (hq.ascending.nodup Monomial.cmp)).1
    rcases List.mem_cons.1 mem with rfl | mem
    · have absent : ∀ t ∈ us.foldr (fun t ts => addTerm t.monomial t.coeff ts) p.terms,
          t.monomial ≠ u.monomial := by
        intro t ht same
        rcases mem_monomials_add (p := p) (q := ⟨us⟩) (List.mem_map_of_mem ht) with old | new
        · exact left (same ▸ old)
        · exact first (same ▸ new)
      exact List.mem_map.2 ⟨_, mem_addTerm_self nonzero absent, rfl⟩
    · obtain ⟨t, ht, rfl⟩ := List.mem_map.1 (ih rest mem)
      exact List.mem_map_of_mem (mem_addTerm_of_ne ht fun same => first (same ▸ mem))

theorem monomials_neg (p : Poly) : (-p).monomials = p.monomials := by
  rw [monomials, monomials, terms_neg, List.map_map]
  rfl

end Poly

namespace Solver

variable {d : Domain} {cs : List Constraint} {columns : List Monomial}

/-- The columns with those that the monomials bring, in order. -/
def extend (columns ms : List Monomial) : List Monomial :=
  ms.foldl (fun ms m => if m.isUnit || m ∈ ms then ms else ms ++ [m]) columns

theorem mem_extend {ms : List Monomial} {m : Monomial} :
    m ∈ extend columns ms ↔ m ∈ columns ∨ m ∈ ms ∧ m.isUnit = false := mem_foldl_mentioned

theorem extend_cons (m : Monomial) (ms : List Monomial) :
    extend columns (m :: ms) =
      extend (if m.isUnit || m ∈ columns then columns else columns ++ [m]) ms := rfl

theorem extend_append (ms ns : List Monomial) :
    extend columns (ms ++ ns) = extend (extend columns ms) ns := List.foldl_append

theorem prefix_extend (ms : List Monomial) : columns <+: extend columns ms := by
  induction ms generalizing columns with
  | nil => exact List.prefix_rfl
  | cons m ms ih =>
    rw [extend_cons]
    split
    · exact ih
    · exact (List.prefix_append columns [m]).trans ih

/-- Monomials with a column bring no new one. -/
theorem extend_of_covered {ms : List Monomial}
    (covered : ∀ m ∈ ms, m.isUnit = false → m ∈ columns) : extend columns ms = columns := by
  induction ms with
  | nil => rfl
  | cons m ms ih =>
    obtain ⟨first, rest⟩ := List.forall_mem_cons.1 covered
    have known : (m.isUnit || m ∈ columns) = true := by
      cases unit : m.isUnit <;> simp_all
    rw [extend_cons, if_pos known, ih rest]

theorem extend_of_nodup {ms : List Monomial} (distinct : ms.Nodup) :
    extend columns ms = columns ++ (ms.filter (!·.isUnit)).filter (· ∉ columns) := by
  induction ms generalizing columns with
  | nil => simp [extend]
  | cons m ms ih =>
    obtain ⟨absent, distinct⟩ := List.nodup_cons.1 distinct
    rw [extend_cons]
    by_cases unit : m.isUnit = true
    · rw [if_pos (by simp [unit]), ih distinct, List.filter_cons_of_neg (by simpa using unit)]
    · rw [List.filter_cons_of_pos (by simpa using unit)]
      by_cases known : m ∈ columns
      · rw [if_pos (by simp [known]), ih distinct, List.filter_cons_of_neg (by simpa using known)]
      · have others : (ms.filter (!·.isUnit)).filter (· ∉ columns ++ [m]) =
            (ms.filter (!·.isUnit)).filter (· ∉ columns) := by
          refine List.filter_congr fun n mem => ?_
          have other : n ≠ m := fun same => absent (same ▸ (List.mem_filter.1 mem).1)
          simp [other]
        rw [if_neg (by simp [unit, known]), ih distinct, others,
          List.filter_cons_of_pos (by simpa using known), List.append_assoc, List.singleton_append]

/-- A comparison with a column brings columns for the monomials of what it is compared with. -/
theorem extend_sub {x p : Poly} {m : Monomial} (hx : x.Ordered) (hp : p.Ordered)
    (own : x.monomials = [m]) (mem : m ∈ columns) :
    extend columns (x - p).monomials =
      columns ++ (p.monomials.filter (!·.isUnit)).filter (· ∉ columns) := by
  have ordered := hx.sub hp
  rw [extend_of_nodup (ordered.ascending.nodup Monomial.cmp), List.append_cancel_left_eq]
  refine Sorting.StrictlyAscending.eq_of_mem_iff Monomial.cmp
    ((ordered.ascending.filter _).filter _) ((hp.ascending.filter _).filter _) fun n => ?_
  have same : n ∉ columns → (n ∈ (x - p).monomials ↔ n ∈ p.monomials) := by
    intro fresh
    have other : n ∉ x.monomials := by
      rw [own, List.mem_singleton]
      exact fun same => fresh (same ▸ mem)
    constructor
    · exact fun h => (Poly.mem_monomials_sub h).resolve_left other
    · intro h
      have negated : n ∈ (-p).monomials := by rwa [Poly.monomials_neg]
      exact Poly.mem_monomials_add_of_right hp.neg negated other
  simp only [List.mem_filter, decide_eq_true_eq]
  constructor
  · exact fun ⟨⟨h, unit⟩, fresh⟩ => ⟨⟨(same fresh).1 h, unit⟩, fresh⟩
  · exact fun ⟨⟨h, unit⟩, fresh⟩ => ⟨⟨(same fresh).2 h, unit⟩, fresh⟩

theorem mem_append_fresh {ms : List Monomial} {n : Monomial} (mem : n ∈ ms)
    (unit : n.isUnit = false) :
    n ∈ columns ++ (ms.filter (!·.isUnit)).filter (· ∉ columns) := by
  by_cases known : n ∈ columns
  · exact List.mem_append_left _ known
  · exact List.mem_append_right _ (by simp [mem, unit, known])

/-- The facts about a quotient or remainder bring the columns of its numerator. -/
theorem extend_atomFacts {a : Atom} (inside : a.Everywhere Poly.Ordered)
    (mem : .ofAtom a ∈ columns) :
    extend columns ((atomFacts a).flatMap Poly.monomials) = columns ++
      ((((numerator? a).map Poly.monomials).getD []).filter (!·.isUnit)).filter (· ∉ columns) := by
  cases a with
  | symbol | app | verbatim => simp [atomFacts, numerator?, extend]
  | quot p q =>
    by_cases known : p.isNonneg = true ∧ ∃ k, positiveInteger? q = some k
    · obtain ⟨nonneg, k, divisor⟩ := known
      have positive : 0 < k := by simpa using (Option.filter_eq_some_iff.1 divisor).2
      have nonzero : (k : Rat) ≠ 0 := by exact_mod_cast positive.ne'
      have own : ((Poly.ofAtom (.quot p q)).scale k).monomials = [.ofAtom (.quot p q)] := by
        rw [Poly.monomials, Poly.terms_scale nonzero]
        rfl
      have facts : (atomFacts (.quot p q)).flatMap Poly.monomials =
          ((Poly.ofAtom (.quot p q)).scale k - p).monomials ++
            (p - (Poly.ofAtom (.quot p q)).scale k - .const (k - 1 : Int)).monomials := by
        simp [atomFacts, nonneg, divisor]
      rw [facts, extend_append, numerator?_quot nonneg divisor, Option.map_some, Option.getD_some,
        extend_sub ((Poly.ordered_ofAtom _).scale k) inside.1.here own mem]
      refine extend_of_covered fun n hn unit => ?_
      rcases Poly.mem_monomials_sub hn with hn | hn
      · rcases Poly.mem_monomials_sub hn with hn | hn
        · exact mem_append_fresh hn unit
        · rw [own, List.mem_singleton] at hn
          exact List.mem_append_left _ (hn ▸ mem)
      · rw [Poly.isUnit_of_mem_const hn] at unit
        cases unit
    · have none : numerator? (.quot p q) = none := by
        rw [numerator?, if_neg]
        simpa [Option.isSome_iff_exists] using known
      have facts : atomFacts (.quot p q) = [] := by
        rw [atomFacts]
        split
        · next k nonneg divisor => exact absurd ⟨nonneg, k, divisor⟩ known
        · rfl
      simp [none, facts, extend]
  | rem p q =>
    have own : (Poly.ofAtom (.rem p q)).monomials = [.ofAtom (.rem p q)] := rfl
    have bound (known : List Monomial) (kept : .ofAtom (.rem p q) ∈ known) :
        extend known (((positiveInteger? q).map fun k =>
          Poly.ofAtom (.rem p q) - .const (k - 1 : Int)).toList.flatMap Poly.monomials) = known := by
      refine extend_of_covered fun n hn unit => ?_
      obtain ⟨f, hf, hn⟩ := List.mem_flatMap.1 hn
      obtain ⟨k, -, rfl⟩ := by simpa using hf
      rcases Poly.mem_monomials_sub hn with hn | hn
      · rw [own, List.mem_singleton] at hn
        exact hn ▸ kept
      · rw [Poly.isUnit_of_mem_const hn] at unit
        cases unit
    rw [atomFacts, List.flatMap_append, extend_append]
    by_cases nonneg : p.isNonneg = true
    · rw [if_pos nonneg, List.flatMap_singleton, numerator?_rem q nonneg, Option.map_some,
        Option.getD_some, extend_sub (Poly.ordered_ofAtom _) inside.1.here own mem]
      exact bound _ (List.mem_append_left _ mem)
    · have none : numerator? (.rem p q) = none := by
        rw [numerator?, if_neg nonneg]
      rw [if_neg nonneg, none]
      simpa [extend] using bound columns mem

/-- A visit brings the columns of the related monomials. -/
theorem extend_monomialFacts {m : Monomial} (wf : WellFormed m) (mem : m ∈ columns) :
    extend columns ((monomialFacts d m).flatMap Poly.monomials) =
      columns ++ (related d m).filter (· ∉ columns) := by
  cases d with
  | integer => simp [monomialFacts, related, extend]
  | unsigned =>
    have first : extend columns ((if m.isNonneg then [(⟨[⟨m, -1⟩]⟩ : Poly)] else []).flatMap
        Poly.monomials) = columns := by
      refine extend_of_covered fun n hn _ => ?_
      split at hn
      · have same : n = m := by simpa [Poly.monomials] using hn
        exact same ▸ mem
      · cases hn
    rw [monomialFacts, List.flatMap_append, extend_append, first, related]
    cases found : m.atom? with
    | none => simp [extend]
    | some a =>
      rw [eq_ofAtom_of_atom? found] at mem
      exact extend_atomFacts (everywhere_of_atom? found wf.inside) mem

theorem coeffsOf_of_prefix {all : List Monomial} (front : columns <+: all) (integral : Rat → Int)
    {ts : List Term} (covered : ∀ t ∈ ts, t.monomial.isUnit = false → t.monomial ∈ columns) :
    coeffsOf columns integral ts = coeffsOf all integral ts := by
  obtain ⟨more, rfl⟩ := front
  induction ts with
  | nil => rfl
  | cons t ts ih =>
    obtain ⟨first, rest⟩ := List.forall_mem_cons.1 covered
    have later := ih rest
    rw [coeffsOf, coeffsOf] at later ⊢
    rw [List.foldr_cons, List.foldr_cons, later]
    split
    · rfl
    · next unit => rw [List.idxOf_append_of_mem (first (by simpa using unit))]

/-- Columns that come later do not change the row of an inequality. -/
theorem Row.ofPoly_of_prefix {all : List Monomial} (front : columns <+: all) {p : Poly}
    (covered : ∀ m ∈ p.monomials, m.isUnit = false → m ∈ columns) :
    Row.ofPoly columns p = Row.ofPoly all p := by
  have inside : ∀ t ∈ p.terms, t.monomial.isUnit = false → t.monomial ∈ columns := fun t ht =>
    covered t.monomial (List.mem_map_of_mem ht)
  have coeffs := coeffsOf_of_prefix front (fun c => (c * (p.denominatorLcm : Rat)).num) inside
  show Row.tighten (Row.unrounded columns p) = Row.tighten (Row.unrounded all p)
  rw [Row.unrounded, Row.unrounded, coeffs]

/-- The columns and rows that were put down so far. -/
@[ext]
structure System where
  columns : List Monomial := []
  rows : List Row := []

namespace System

/-- Put down `p ≤ 0`, with a column for each monomial that has none yet. -/
def leqZero (s : System) (p : Poly) : System :=
  ⟨extend s.columns p.monomials, insertRow (Row.ofPoly (extend s.columns p.monomials) p) s.rows⟩

/-- The inequalities of the constraints. -/
def ofConstraints (cs : List Constraint) : System := (cs.flatMap inequalities).foldl leqZero {}

/-- Put down the facts about the column number `done`; `none` if the columns end before. -/
def visit (d : Domain) (s : System) (done : Nat) : Option System :=
  s.columns[done]?.map fun m => (monomialFacts d m).foldl leqZero s

/-- The system after visits to the first `n` columns. -/
def after (d : Domain) (s : System) : Nat → System
  | 0 => s
  | n + 1 => ((after d s n).visit d n).getD (after d s n)

theorem columns_foldl_leqZero (s : System) (ps : List Poly) :
    (ps.foldl leqZero s).columns = extend s.columns (ps.flatMap Poly.monomials) := by
  induction ps generalizing s with
  | nil => rfl
  | cons p ps ih => rw [List.foldl_cons, ih, List.flatMap_cons, extend_append, leqZero]

theorem rows_foldl_leqZero {s : System} {ps : List Poly}
    (front : (ps.foldl leqZero s).columns <+: columns) :
    (ps.foldl leqZero s).rows =
      (ps.map (Row.ofPoly columns)).foldl (fun rows r => insertRow r rows) s.rows := by
  induction ps generalizing s with
  | nil => rfl
  | cons p ps ih =>
    have grown : extend s.columns p.monomials <+: columns := by
      rw [List.foldl_cons, columns_foldl_leqZero] at front
      exact (prefix_extend _).trans front
    have own : Row.ofPoly (extend s.columns p.monomials) p = Row.ofPoly columns p :=
      Row.ofPoly_of_prefix grown fun m hm unit => mem_extend.2 (.inr ⟨hm, unit⟩)
    rw [List.foldl_cons] at front ⊢
    rw [ih front, List.map_cons, List.foldl_cons, leqZero, own]

theorem prefix_closure (pending known : List Monomial) : known <+: closure d pending known := by
  fun_induction closure d pending known with
  | case1 => exact List.prefix_rfl
  | case2 known m rest fresh ih => exact (List.prefix_append known fresh).trans ih

/-- What holds after visits to the first `n` columns: the columns that are still to come are those
that the pending ones bring, and the rows are those of the constraints and of the visits. -/
structure Visited (d : Domain) (cs : List Constraint) (n : Nat) (s : System) : Prop where
  columns : closure d (s.columns.drop n) s.columns = relaxedColumns d cs
  rows : s.rows = distinctRows ((cs.flatMap inequalities ++
    ((relaxedColumns d cs).take n).flatMap (monomialFacts d)).map
      (Row.ofPoly (relaxedColumns d cs)))

theorem Visited.front {n : Nat} {s : System} (h : Visited d cs n s) :
    s.columns <+: relaxedColumns d cs := h.columns ▸ prefix_closure _ _

theorem visited_ofConstraints (d : Domain) (cs : List Constraint) :
    Visited d cs 0 (ofConstraints cs) := by
  have columns : (ofConstraints cs).columns = mentioned (cs.flatMap inequalities) :=
    columns_foldl_leqZero _ _
  have start : closure d ((ofConstraints cs).columns.drop 0) (ofConstraints cs).columns =
      relaxedColumns d cs := by
    rw [columns]
    rfl
  refine ⟨start, ?_⟩
  have front : (ofConstraints cs).columns <+: relaxedColumns d cs := start ▸ prefix_closure _ _
  rw [List.take_zero, List.flatMap_nil, List.append_nil]
  exact rows_foldl_leqZero front

/-- A visit to the next column. -/
theorem Visited.visit {n : Nat} {s : System} (h : Visited d cs n s)
    (wf : ∀ m ∈ relaxedColumns d cs, WellFormed m) {m : Monomial} (next : s.columns[n]? = some m) :
    Visited d cs (n + 1) ((monomialFacts d m).foldl leqZero s) := by
  obtain ⟨short, at_next⟩ := List.getElem?_eq_some_iff.1 next
  have mem : m ∈ s.columns := List.mem_of_getElem? next
  have grown : ((monomialFacts d m).foldl leqZero s).columns =
      s.columns ++ (related d m).filter (· ∉ s.columns) := by
    rw [columns_foldl_leqZero, extend_monomialFacts (wf m (h.front.subset mem)) mem]
  have columns : closure d (((monomialFacts d m).foldl leqZero s).columns.drop (n + 1))
      ((monomialFacts d m).foldl leqZero s).columns = relaxedColumns d cs := by
    rw [grown, List.drop_append_of_le_length short, ← h.columns, List.drop_eq_getElem_cons short,
      at_next, closure]
  have front : ((monomialFacts d m).foldl leqZero s).columns <+: relaxedColumns d cs :=
    columns ▸ prefix_closure _ _
  have taken : (relaxedColumns d cs).take (n + 1) = (relaxedColumns d cs).take n ++ [m] := by
    obtain ⟨more, all⟩ := h.front
    rw [List.take_add_one, ← all, List.getElem?_append_left short, next]
    rfl
  refine ⟨columns, ?_⟩
  rw [rows_foldl_leqZero front, h.rows, taken, List.flatMap_append, List.flatMap_singleton,
    ← List.append_assoc]
  generalize cs.flatMap inequalities ++ _ = earlier
  rw [List.map_append, distinctRows, distinctRows, List.foldl_append]

/-- Before the last column of the relaxation was visited there is a next one. -/
theorem Visited.exists_next {n : Nat} {s : System} (h : Visited d cs n s)
    (short : n < (relaxedColumns d cs).length) : ∃ m, s.columns[n]? = some m := by
  by_contra none
  have ended : s.columns.length ≤ n :=
    List.getElem?_eq_none_iff.1 (Option.eq_none_iff_forall_not_mem.2 fun m hm => none ⟨m, hm⟩)
  have columns := h.columns
  rw [List.drop_eq_nil_of_le ended, closure] at columns
  rw [← columns] at short
  omega

theorem visited_after (wf : ∀ m ∈ relaxedColumns d cs, WellFormed m) {n : Nat}
    (le : n ≤ (relaxedColumns d cs).length) :
    Visited d cs n (after d (ofConstraints cs) n) := by
  induction n with
  | zero => exact visited_ofConstraints d cs
  | succ n ih =>
    have before := ih (Nat.le_of_succ_le le)
    obtain ⟨m, next⟩ := before.exists_next le
    rw [after, System.visit, next, Option.map_some, Option.getD_some]
    exact before.visit wf next

/-- The visits end after one for each column of the relaxation, with its columns and rows. -/
theorem after_relaxedColumns (wf : ∀ m ∈ relaxedColumns d cs, WellFormed m) :
    (∀ n < (relaxedColumns d cs).length,
      ((after d (ofConstraints cs) n).visit d n).isSome = true) ∧
    (after d (ofConstraints cs) (relaxedColumns d cs).length).visit d
      (relaxedColumns d cs).length = none ∧
    after d (ofConstraints cs) (relaxedColumns d cs).length =
      ⟨relaxedColumns d cs, relax d cs⟩ := by
  have visited := visited_after wf (Nat.le_refl (relaxedColumns d cs).length)
  have columns : (after d (ofConstraints cs) (relaxedColumns d cs).length).columns =
      relaxedColumns d cs := by
    have all := visited.columns
    rwa [List.drop_eq_nil_of_le visited.front.length_le, closure] at all
  have rows := visited.rows
  rw [List.take_length] at rows
  refine ⟨fun n short => ?_, ?_, ?_⟩
  · obtain ⟨m, next⟩ := (visited_after wf (Nat.le_of_lt short)).exists_next short
    rw [System.visit, next]
    rfl
  · rw [System.visit, columns, List.getElem?_eq_none (Nat.le_refl _)]
    rfl
  · exact System.ext columns rows

end System

/-- The rows that state the facts about the columns. -/
structure StatesFacts (columns : List Monomial) (rows : List Row) : Prop where
  nonneg : ∀ m ∈ columns, m.isNonneg = true → ⟨[(columns.idxOf m, -1)], 0⟩ ∈ rows
  quotient : ∀ (p q : Poly) (k : Int), .ofAtom (.quot p q) ∈ columns → p.isNonneg = true →
    q.integer? = some k → 0 < k →
      Row.ofPoly columns ((Poly.ofAtom (.quot p q)).scale k - p) ∈ rows ∧
      Row.ofPoly columns (p - (Poly.ofAtom (.quot p q)).scale k - .const (k - 1 : Int)) ∈ rows
  remainder_le : ∀ p q : Poly, .ofAtom (.rem p q) ∈ columns → p.isNonneg = true →
    Row.ofPoly columns (Poly.ofAtom (.rem p q) - p) ∈ rows
  remainder_lt : ∀ (p q : Poly) (k : Int), .ofAtom (.rem p q) ∈ columns →
    q.integer? = some k → 0 < k →
      Row.ofPoly columns (Poly.ofAtom (.rem p q) - .const (k - 1 : Int)) ∈ rows
  /-- The facts mention columns only. -/
  closed : ∀ m ∈ columns, ∀ p ∈ monomialFacts .unsigned m, ∀ n ∈ p.monomials,
    n.isUnit = false → n ∈ columns

theorem isUnit_of_mem_relaxedColumns {m : Monomial} (mem : m ∈ relaxedColumns d cs) :
    m.isUnit = false := by
  have start : ∀ m ∈ mentioned (cs.flatMap inequalities), m.isUnit = false :=
    fun m hm => (mem_mentioned.1 hm).2
  refine forall_mem_closure d _ _ (fun m _ n hn => ?_) start start m mem
  unfold related at hn
  split at hn
  · cases hn
  · simpa using (List.mem_filter.1 hn).2

theorem Row.ofPoly_neg_monomial {m : Monomial} (unit : m.isUnit = false) :
    Row.ofPoly columns ⟨[⟨m, -1⟩]⟩ = ⟨[(columns.idxOf m, -1)], 0⟩ := by
  simp [Row.ofPoly, unit, Poly.denominatorLcm, Row.addCoeff, Row.tighten, Poly.constantTerm]

theorem ofPoly_mem_relax {m : Monomial} (mem : m ∈ relaxedColumns d cs) {p : Poly}
    (fact : p ∈ monomialFacts d m) : Row.ofPoly (relaxedColumns d cs) p ∈ relax d cs :=
  mem_distinctRows.2 (List.mem_map_of_mem
    (List.mem_append_right _ (List.mem_flatMap.2 ⟨m, mem, fact⟩)))

/-- The relaxation states the facts about all its columns. -/
theorem statesFacts_relax (cs : List Constraint)
    (wf : ∀ m ∈ relaxedColumns .unsigned cs, WellFormed m) :
    StatesFacts (relaxedColumns .unsigned cs) (relax .unsigned cs) where
  nonneg m mem nonneg := by
    rw [← Row.ofPoly_neg_monomial (isUnit_of_mem_relaxedColumns mem)]
    exact ofPoly_mem_relax mem (by simp [monomialFacts, nonneg])
  quotient p q k mem nonneg integer positive := by
    have facts : atomFacts (.quot p q) =
        [(Poly.ofAtom (.quot p q)).scale k - p,
          p - (Poly.ofAtom (.quot p q)).scale k - .const (k - 1 : Int)] := by
      rw [atomFacts, nonneg, positiveInteger?_of_integer? integer positive]
    exact ⟨ofPoly_mem_relax mem (mem_monomialFacts (by simp [facts])),
      ofPoly_mem_relax mem (mem_monomialFacts (by simp [facts]))⟩
  remainder_le p q mem nonneg :=
    ofPoly_mem_relax mem (mem_monomialFacts (by simp [atomFacts, nonneg]))
  remainder_lt p q k mem integer positive :=
    ofPoly_mem_relax mem (mem_monomialFacts
      (by simp [atomFacts, positiveInteger?_of_integer? integer positive]))
  closed m mem p fact n hn unit := by
    rcases (monomialFacts_ordered (wf m mem) p fact).2 n hn unit with rfl | near
    · exact mem
    · exact related_subset_closure .unsigned _ _ (fun k hk => .inl hk) m mem n near

end Solver
end PredicateStrength
