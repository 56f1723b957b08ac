import Mathlib
import PredicateStrength.Solver.Elimination

/-!
# Integer solutions survive elimination

A row is read at an integer for each column. Every step of the elimination keeps every integer
solution: the tightened row rounds its constant to the next value that an integer combination can
meet, and a resolvent is a combination of its parents with coefficients from zero on.

Main statement: rows with an integer solution are never found infeasible (`eliminate_ne_false`).
-/
namespace PredicateStrength.Solver

namespace Row

variable (x : Nat → Int)

/-- The value of the coefficients at integer columns. -/
def linear (cs : List (Nat × Int)) : Int := (cs.map fun c => c.2 * x c.1).sum

/-- The integers satisfy the inequality. -/
def Holds (r : Row) : Prop := linear x r.coeffs + r.constant ≤ 0

/-- Columns are different and ascend. -/
def Ascending (r : Row) : Prop := r.columns.Pairwise (· < ·)

@[simp] theorem linear_nil : linear x [] = 0 := rfl

@[simp] theorem linear_cons (c : Nat × Int) (cs : List (Nat × Int)) :
    linear x (c :: cs) = c.2 * x c.1 + linear x cs := by
  simp [linear]

theorem linear_addCoeff (col : Nat) (w : Int) (cs : List (Nat × Int)) :
    linear x (addCoeff col w cs) = w * x col + linear x cs := by
  induction cs with
  | nil => simp [addCoeff]
  | cons c cs ih =>
    rw [addCoeff]
    split
    · simp
    · split
      · next same =>
        simp only [linear_cons, same]
        ring
      · simp only [linear_cons, ih]
        ring

theorem linear_scale (k : Int) (cs : List (Nat × Int)) :
    linear x (cs.map fun c => (c.1, c.2 * k)) = linear x cs * k := by
  induction cs with
  | nil => simp
  | cons c cs ih =>
    rw [List.map_cons, linear_cons, linear_cons, ih]
    ring

theorem linear_add (r s : Row) :
    linear x (r.add s).coeffs = linear x r.coeffs + linear x s.coeffs := by
  show linear x (s.coeffs.foldr (fun c coeffs => addCoeff c.1 c.2 coeffs) r.coeffs) = _
  generalize s.coeffs = ss
  induction ss with
  | nil => simp
  | cons c ss ih =>
    rw [List.foldr_cons, linear_addCoeff, ih, linear_cons]
    ring

/-- Columns with coefficient zero do not count. -/
theorem linear_filter (p : Nat × Int → Bool) {cs : List (Nat × Int)}
    (zero : ∀ c ∈ cs, p c = false → c.2 = 0) : linear x (cs.filter p) = linear x cs := by
  induction cs with
  | nil => rfl
  | cons c cs ih =>
    have rest := ih fun d hd => zero d (List.mem_cons_of_mem _ hd)
    rw [List.filter_cons]
    split
    · rw [linear_cons, linear_cons, rest]
    · next out =>
      have := zero c (by simp) (by simpa using out)
      rw [linear_cons, rest, this]
      ring

variable {x}

theorem Holds.scale {r : Row} (h : r.Holds x) {k : Int} (hk : 0 ≤ k) : (r.scale k).Holds x := by
  have value : linear x (r.scale k).coeffs + (r.scale k).constant =
      (linear x r.coeffs + r.constant) * k := by
    have := linear_scale x k r.coeffs
    simp only [Row.scale]
    linarith
  rw [Holds, value]
  exact mul_nonpos_of_nonpos_of_nonneg h hk

theorem Holds.add {r s : Row} (hr : r.Holds x) (hs : s.Holds x) : (r.add s).Holds x := by
  rw [Holds] at hr hs ⊢
  rw [linear_add]
  simp only [Row.add]
  linarith

/-- The greatest common divisor of the coefficients and `n`. -/
def gcdFrom (n : Int) (cs : List (Nat × Int)) : Int :=
  cs.foldl (fun n c => (n.gcd c.2.natAbs : Int)) n

theorem gcdFrom_dvd (n : Int) (cs : List (Nat × Int)) :
    gcdFrom n cs ∣ n ∧ ∀ c ∈ cs, gcdFrom n cs ∣ c.2 := by
  induction cs generalizing n with
  | nil => simp [gcdFrom]
  | cons c cs ih =>
    obtain ⟨start, rest⟩ := ih (n.gcd c.2.natAbs : Int)
    change gcdFrom (n.gcd c.2.natAbs : Int) cs ∣ n ∧ ∀ d ∈ c :: cs, _ ∣ d.2
    refine ⟨start.trans (Int.gcd_dvd_left _ _), fun d hd => ?_⟩
    rcases List.mem_cons.1 hd with rfl | hd
    · exact start.trans (Int.dvd_natAbs.1 (Int.gcd_dvd_right _ _))
    · exact rest d hd

theorem linear_div {cs : List (Nat × Int)} {g : Int} (dvd : ∀ c ∈ cs, g ∣ c.2) :
    g * linear x (cs.map fun c => (c.1, c.2 / g)) = linear x cs := by
  induction cs with
  | nil => simp
  | cons c cs ih =>
    have rest := ih fun d hd => dvd d (List.mem_cons_of_mem _ hd)
    have own := Int.mul_ediv_cancel' (dvd c (by simp))
    rw [List.map_cons, linear_cons, linear_cons, ← rest, mul_add, ← mul_assoc, own]

/-- An integer multiple of `g` that is at most `-n` is at most `-n` rounded down to a multiple. -/
theorem add_ceilDiv_nonpos {n g s : Int} (hg : 0 < g) (h : g * s + n ≤ 0) :
    s + ceilDiv n g ≤ 0 := by
  have bound : s ≤ (-n).fdiv g := by
    rw [Int.fdiv_eq_ediv_of_nonneg _ hg.le]
    exact (Int.le_ediv_iff_mul_le hg).2 (by linarith)
  rw [ceilDiv]
  linarith

theorem Holds.tighten {r : Row} (h : r.Holds x) : r.tighten.Holds x := by
  have nonzero : linear x (r.coeffs.filter fun c => c.2 ≠ 0) = linear x r.coeffs :=
    linear_filter x _ fun c _ hc => by simpa using hc
  rw [Holds, ← nonzero] at h
  unfold Row.tighten
  dsimp only
  split
  · next hg =>
    rw [← linear_div (gcdFrom_dvd 0 _).2] at h
    exact add_ceilDiv_nonpos (lt_trans one_pos hg) h
  · exact h

theorem ascending_addCoeff {col : Nat} {w : Int} {cs : List (Nat × Int)}
    (h : (cs.map Prod.fst).Pairwise (· < ·)) :
    ((addCoeff col w cs).map Prod.fst).Pairwise (· < ·) := by
  induction cs with
  | nil => simp [addCoeff]
  | cons c cs ih =>
    obtain ⟨below, rest⟩ := List.pairwise_cons.1 h
    rw [addCoeff]
    split
    · next less =>
      refine List.pairwise_cons.2 ⟨fun d hd => ?_, h⟩
      rcases List.mem_cons.1 hd with rfl | hd
      · exact less
      · exact less.trans (below d hd)
    · split
      · exact h
      · next greater different =>
        refine List.pairwise_cons.2 ⟨fun d hd => ?_, ih rest⟩
        rcases mem_addCoeff hd with rfl | hd
        · omega
        · exact below d hd

theorem Ascending.scale {r : Row} (h : r.Ascending) (k : Int) : (r.scale k).Ascending := by
  rw [Ascending, columns_scale]
  exact h

theorem Ascending.add {r : Row} (h : r.Ascending) (s : Row) : (r.add s).Ascending := by
  show ((s.coeffs.foldr (fun c coeffs => addCoeff c.1 c.2 coeffs) r.coeffs).map _).Pairwise _
  generalize s.coeffs = ss
  induction ss with
  | nil => exact h
  | cons c ss ih => exact ascending_addCoeff ih

theorem Ascending.filter {r : Row} (h : r.Ascending) (p : Nat × Int → Bool) :
    ((r.coeffs.filter p).map Prod.fst).Pairwise (· < ·) :=
  h.sublist (List.filter_sublist.map _)

theorem Ascending.tighten {r : Row} (h : r.Ascending) : r.tighten.Ascending := by
  unfold Row.tighten
  dsimp only
  split
  · simpa [Ascending, columns, Function.comp_def] using h.filter fun c => c.2 ≠ 0
  · exact h.filter fun c => c.2 ≠ 0

theorem Ascending.resolve {u : Row} (h : u.Ascending) (col : Nat) (l : Row) :
    (Row.resolve col u l).Ascending :=
  .tighten (((h.scale _).add _).filter _)

theorem lookup_cons_getD (c d : Nat) (w : Int) (cs : List (Nat × Int)) :
    (((d, w) :: cs).lookup c).getD 0 = if c = d then w else (cs.lookup c).getD 0 := by
  by_cases h : c = d
  · simp [h]
  · have different : (c == d) = false := by simpa using h
    simp [List.lookup_cons, h, different]

theorem lookup_of_lt {cs : List (Nat × Int)} {col : Nat} (h : ∀ c ∈ cs.map Prod.fst, col < c) :
    (cs.lookup col).getD 0 = 0 := by
  induction cs with
  | nil => rfl
  | cons c cs ih =>
    obtain ⟨d, w⟩ := c
    obtain ⟨less, rest⟩ := List.forall_mem_cons.1 h
    rw [lookup_cons_getD, if_neg (Nat.ne_of_lt less), ih rest]

theorem lookup_addCoeff {col c : Nat} {w : Int} {cs : List (Nat × Int)}
    (h : (cs.map Prod.fst).Pairwise (· < ·)) :
    ((addCoeff col w cs).lookup c).getD 0 = (if c = col then w else 0) + (cs.lookup c).getD 0 := by
  induction cs with
  | nil => simp [addCoeff, lookup_cons_getD]
  | cons d cs ih =>
    obtain ⟨d, z⟩ := d
    obtain ⟨below, rest⟩ := List.pairwise_cons.1 h
    rw [addCoeff]
    split
    · next less =>
      have absent : (((d, z) :: cs).lookup col).getD 0 = 0 :=
        lookup_of_lt (List.forall_mem_cons.2 ⟨less, fun e he => less.trans (below e he)⟩)
      rw [lookup_cons_getD]
      split
      · next hc => rw [hc, absent, add_zero]
      · rw [zero_add]
    · split
      · next same =>
        subst same
        have absent : (cs.lookup col).getD 0 = 0 := lookup_of_lt below
        simp only [lookup_cons_getD]
        split
        · ring
        · rw [zero_add]
      · next different =>
        simp only [lookup_cons_getD, ih rest]
        by_cases hd : c = d
        · have hc : c ≠ col := by omega
          simp [hd, Ne.symm different]
        · simp [hd]

theorem coeff_scale (k : Int) (r : Row) (col : Nat) :
    (r.scale k).coeff col = r.coeff col * k := by
  show ((r.coeffs.map fun c => (c.1, c.2 * k)).lookup col).getD 0 = (r.coeffs.lookup col).getD 0 * k
  induction r.coeffs with
  | nil => simp
  | cons c cs ih =>
    obtain ⟨d, w⟩ := c
    rw [List.map_cons, lookup_cons_getD, lookup_cons_getD, ih, ite_mul]

theorem coeff_add {r s : Row} (hr : r.Ascending) (hs : s.Ascending) (col : Nat) :
    (r.add s).coeff col = r.coeff col + s.coeff col := by
  show ((s.coeffs.foldr (fun c coeffs => addCoeff c.1 c.2 coeffs) r.coeffs).lookup col).getD 0 =
    (r.coeffs.lookup col).getD 0 + (s.coeffs.lookup col).getD 0
  rw [Ascending, columns] at hs
  generalize s.coeffs = ss at hs
  induction ss with
  | nil => simp
  | cons c ss ih =>
    obtain ⟨d, w⟩ := c
    obtain ⟨below, rest⟩ := List.pairwise_cons.1 hs
    have ascending : ((ss.foldr (fun c coeffs => addCoeff c.1 c.2 coeffs) r.coeffs).map
        Prod.fst).Pairwise (· < ·) := Ascending.add hr ⟨ss, 0⟩
    rw [List.foldr_cons, lookup_addCoeff ascending, ih rest, lookup_cons_getD]
    by_cases hc : col = d
    · subst hc
      rw [if_pos rfl, if_pos rfl, lookup_of_lt below]
      ring
    · rw [if_neg hc, if_neg hc]
      ring

theorem eq_coeff_of_mem {r : Row} (h : r.Ascending) {c : Nat × Int} (hc : c ∈ r.coeffs) :
    c.2 = r.coeff c.1 := by
  rw [Ascending, columns] at h
  rw [coeff]
  generalize r.coeffs = cs at h hc
  induction cs with
  | nil => cases hc
  | cons d cs ih =>
    obtain ⟨d, w⟩ := d
    obtain ⟨below, rest⟩ := List.pairwise_cons.1 h
    rw [lookup_cons_getD]
    rcases List.mem_cons.1 hc with rfl | hc
    · rw [if_pos rfl]
    · have less := below c.1 (List.mem_map_of_mem hc)
      rw [if_neg (Nat.ne_of_gt less)]
      exact ih rest hc

theorem Holds.drop {r : Row} (h : r.Holds x) (ascending : r.Ascending) {col : Nat}
    (zero : r.coeff col = 0) : (r.drop col).Holds x := by
  have same : linear x (r.drop col).coeffs = linear x r.coeffs := by
    refine linear_filter x _ fun c hc out => ?_
    have hcol : c.1 = col := by simpa using out
    rw [eq_coeff_of_mem ascending hc, hcol, zero]
  rw [Holds, same]
  exact h

/-- In the combination of two rows with each other's coefficients the column cancels. -/
theorem coeff_cancel {u l : Row} (au : u.Ascending) (al : l.Ascending) (col : Nat) :
    ((u.scale (-l.coeff col)).add (l.scale (u.coeff col))).coeff col = 0 := by
  rw [coeff_add (au.scale _) (al.scale _), coeff_scale, coeff_scale]
  ring

/-- An upper and a lower bound of a column imply their resolvent. -/
theorem Holds.resolve {u l : Row} {col : Nat} (hu : u.Holds x) (hl : l.Holds x)
    (au : u.Ascending) (al : l.Ascending) (upper : 0 < u.coeff col) (lower : l.coeff col ≤ 0) :
    (Row.resolve col u l).Holds x := by
  have sum := (hu.scale (show 0 ≤ -l.coeff col by omega)).add (hl.scale upper.le)
  exact (sum.drop ((au.scale _).add _) (coeff_cancel au al col)).tighten

end Row

variable {x : Nat → Int}

/-- The rows are in order and the integers satisfy them. -/
def Solves (x : Nat → Int) (rows : List Row) : Prop := ∀ r ∈ rows, r.Ascending ∧ r.Holds x

theorem Solves.insertRow {rows : List Row} (h : Solves x rows) {r : Row}
    (hr : r.Ascending ∧ r.Holds x) : Solves x (insertRow r rows) := by
  intro s hs
  unfold Solver.insertRow at hs
  split at hs
  · exact h s hs
  · rcases List.mem_append.1 hs with hs | hs
    · exact h s hs
    · exact List.mem_singleton.1 hs ▸ hr

theorem Solves.distinctRows {rows : List Row} (h : Solves x rows) :
    Solves x (distinctRows rows) := by
  have aux : ∀ (rows kept : List Row), Solves x rows → Solves x kept →
      Solves x (rows.foldl (fun rows r => Solver.insertRow r rows) kept) := by
    intro rows
    induction rows with
    | nil => exact fun _ _ kept => kept
    | cons r rows ih =>
      intro kept all hkept
      exact ih _ (fun s hs => all s (List.mem_cons_of_mem _ hs)) (hkept.insertRow (all r (by simp)))
  exact aux rows [] h (by simp [Solves])

theorem Solves.resolveAll {maxRows col : Nat} {rows next : List Row} (h : Solves x rows)
    (resolved : resolveAll maxRows col rows = some next) : Solves x next := by
  refine foldlM_invariant (P := Solves x) ?_ ?_ resolved
  · exact fun r hr => h r (List.mem_filter.1 hr).1
  · intro kept hkept u hu out hout
    refine foldlM_invariant (P := Solves x) hkept ?_ hout
    intro kept hkept l hl out hout
    have inserted : Solver.insertRow (Row.resolve col u l) kept = out := by
      dsimp only at hout
      split at hout <;> simp_all
    subst inserted
    obtain ⟨uIn, upper⟩ := List.mem_filter.1 hu
    obtain ⟨lIn, lower⟩ := List.mem_filter.1 hl
    have upper : 0 < u.coeff col := by simpa using upper
    have lower : l.coeff col ≤ 0 := by
      simp only [Bool.and_eq_true, Bool.not_eq_true', decide_eq_false_iff_not] at lower
      omega
    obtain ⟨ua, uHolds⟩ := h u uIn
    obtain ⟨la, lHolds⟩ := h l lIn
    exact hkept.insertRow ⟨ua.resolve col l, uHolds.resolve lHolds ua la upper lower⟩

theorem Solves.not_contradiction {rows : List Row} (h : Solves x rows) :
    rows.any Row.isContradiction = false := by
  rw [List.any_eq_false]
  intro r hr contradiction
  obtain ⟨_, holds⟩ := h r hr
  simp only [Row.isContradiction, Row.isConstant, Bool.and_eq_true, List.isEmpty_iff,
    decide_eq_true_eq] at contradiction
  rw [Row.Holds, contradiction.1, Row.linear_nil] at holds
  omega

/-- Rows with an integer solution are not found infeasible, whatever the limits are. -/
theorem eliminate_ne_false {rows : List Row} (h : Solves x rows) (l : Limits) (s : Progress) :
    (eliminate rows l s).1 ≠ some false := by
  fun_induction eliminate rows l s with
  | case1 => simp
  | case2 rows s s' alive contradiction =>
    rw [h.not_contradiction] at contradiction
    cases contradiction
  | case3 => simp
  | case4 => simp
  | case5 => simp
  | case6 rows s s' alive consistent col chosen next resolved s'' reported ih =>
    exact ih ((show Solves x (liveRows rows) from fun r hr => h r (List.mem_filter.1 hr).1).resolveAll
      resolved)

end PredicateStrength.Solver
