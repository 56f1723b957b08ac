import Mathlib
import PredicateStrength.Proofs.Solver.Row

/-!
# Rows that are not refuted have a rational solution

A rational solution is integers for the columns and one positive integer that divides them all.
The columns are given back in the order opposite to that of their elimination: where all resolvents
hold, the largest of the lower bounds on the eliminated column is below every upper bound, and
where there are no lower bounds, the column may be as small as the upper bounds ask. Rounding the
constants only makes the rows stronger, so it needs no argument in this direction.

Main statement: if elimination answers that the rows are feasible, they have a rational solution
(`exists_solution_of_eliminate`).
-/
namespace PredicateStrength.Solver

namespace Row

variable (x : Nat → Int) (n : Int)

/-- The left side of the inequality at the columns `x / n`, times `n`. -/
def total (r : Row) : Int := linear x r.coeffs + r.constant * n

/-- The rationals `x / n` satisfy the inequality. -/
def HoldsOver (r : Row) : Prop := r.total x n ≤ 0

/-- Columns ascend and no coefficient is zero. -/
structure Reduced (r : Row) : Prop where
  ascending : r.Ascending
  nonzero : ∀ c ∈ r.coeffs, c.2 ≠ 0

variable {x n} {r u l : Row} {col : Nat}

theorem total_scale (k : Int) : (r.scale k).total x n = k * r.total x n := by
  simp only [total, scale, linear_scale]
  ring

theorem total_add (s : Row) : (r.add s).total x n = r.total x n + s.total x n := by
  rw [total, linear_add]
  simp only [total, add]
  ring

theorem total_drop (ascending : r.Ascending) (zero : r.coeff col = 0) :
    (r.drop col).total x n = r.total x n := by
  have same : linear x (r.drop col).coeffs = linear x r.coeffs := by
    refine linear_filter x _ fun c hc out => ?_
    have hcol : c.1 = col := by simpa using out
    rw [eq_coeff_of_mem ascending hc, hcol, zero]
  rw [total, same]
  rfl

theorem le_mul_ceilDiv {g : Int} (hg : 0 < g) (k : Int) : k ≤ g * ceilDiv k g := by
  have below := Int.mul_ediv_self_le (x := -k) hg.ne'
  rw [ceilDiv, Int.fdiv_eq_ediv_of_nonneg _ hg.le]
  linarith

/-- Rounding the constant up makes a row stronger. -/
theorem HoldsOver.of_tighten (hn : 0 ≤ n) (h : r.tighten.HoldsOver x n) : r.HoldsOver x n := by
  have nonzero : linear x (r.coeffs.filter fun c => c.2 ≠ 0) = linear x r.coeffs :=
    linear_filter x _ fun c _ hc => by simpa using hc
  rw [HoldsOver, total, ← nonzero]
  unfold Row.tighten at h
  dsimp only at h
  split at h
  · next hg =>
    have positive : 0 < gcdFrom 0 (r.coeffs.filter fun c => c.2 ≠ 0) := lt_trans one_pos hg
    have rounded := mul_le_mul_of_nonneg_right (le_mul_ceilDiv positive r.constant) hn
    have whole := mul_nonpos_of_nonneg_of_nonpos positive.le h
    rw [← linear_div (gcdFrom_dvd 0 _).2]
    refine le_trans (add_le_add_right rounded _) (le_of_eq_of_le ?_ whole)
    rw [total, mul_add, mul_assoc]
    rfl
  · exact h

theorem reduced_tighten (ascending : r.Ascending) : r.tighten.Reduced := by
  refine ⟨ascending.tighten, fun c hc => ?_⟩
  unfold Row.tighten at hc
  dsimp only at hc
  split at hc
  · obtain ⟨d, hd, rfl⟩ := List.mem_map.1 hc
    have nonzero : d.2 ≠ 0 := by simpa using (List.mem_filter.1 hd).2
    have dvd := (gcdFrom_dvd 0 _).2 d hd
    exact fun zero => nonzero (Int.eq_zero_of_ediv_eq_zero dvd zero)
  · simpa using (List.mem_filter.1 hc).2

/-- What a resolvent says of its parents. -/
theorem HoldsOver.of_resolve (hn : 0 ≤ n) (au : u.Ascending) (al : l.Ascending)
    (h : (resolve col u l).HoldsOver x n) :
    -l.coeff col * u.total x n + u.coeff col * l.total x n ≤ 0 := by
  have sum := HoldsOver.of_tighten hn h
  rw [HoldsOver, total_drop ((au.scale _).add _) (coeff_cancel au al col), total_add, total_scale,
    total_scale] at sum
  exact sum

theorem total_mul (k : Int) : r.total (fun i => k * x i) (k * n) = k * r.total x n := by
  have linear_mul : ∀ cs, linear (fun i => k * x i) cs = k * linear x cs := by
    intro cs
    induction cs with
    | nil => simp
    | cons c _ ih =>
      rw [linear_cons, linear_cons, ih]
      ring
  rw [total, total, linear_mul]
  ring

theorem coeff_eq_zero (h : col ∉ r.columns) : r.coeff col = 0 := by
  rw [coeff, List.lookup_eq_none_iff.2]
  · rfl
  · intro c hc
    have different : col ≠ c.1 := fun same => h (same ▸ List.mem_map_of_mem hc)
    simpa using different

theorem linear_update (v : Int) {cs : List (Nat × Int)} (h : (cs.map Prod.fst).Pairwise (· < ·)) :
    linear (Function.update x col v) cs =
      linear x cs + (cs.lookup col).getD 0 * (v - x col) := by
  induction cs with
  | nil => simp
  | cons c cs ih =>
    obtain ⟨d, w⟩ := c
    obtain ⟨below, rest⟩ := List.pairwise_cons.1 h
    rw [linear_cons, linear_cons, ih rest, lookup_cons_getD]
    by_cases same : col = d
    · subst same
      rw [if_pos rfl, lookup_of_lt below, Function.update_self]
      ring
    · rw [if_neg same, Function.update_of_ne (Ne.symm same)]
      ring

/-- The left side with another value in one column. -/
theorem total_update (ascending : r.Ascending) (v : Int) :
    r.total (Function.update x col v) n = r.total x n + r.coeff col * (v - x col) := by
  rw [total, linear_update v ascending, total, coeff]
  ring

end Row

/-- What each element of a fold brings about, and what is kept once it is so, holds at the end. -/
theorem foldlM_covers {α β : Type} {f : β → α → Option β} {P : α → β → Prop}
    (here : ∀ b x c, f b x = some c → P x c) (keeps : ∀ b x c y, f b x = some c → P y b → P y c)
    {xs : List α} {b c : β} (h : xs.foldlM f b = some c) : ∀ x ∈ xs, P x c := by
  induction xs generalizing b with
  | nil => simp
  | cons x xs ih =>
    rw [List.foldlM_cons] at h
    obtain ⟨d, hd, later⟩ := Option.bind_eq_some_iff.1 h
    intro y hy
    rcases List.mem_cons.1 hy with rfl | hy
    · exact foldlM_invariant (P := P y) (here b y d hd)
        (fun b old x _ c hc => keeps b x c y hc old) later
    · exact ih later y hy

theorem mem_insertRow {r s : Row} {rows : List Row} : s ∈ insertRow r rows ↔ s = r ∨ s ∈ rows := by
  unfold insertRow
  split
  · next old => exact ⟨.inr, fun h => h.elim (fun same => same ▸ old) id⟩
  · rw [List.mem_append, List.mem_singleton, or_comm]

theorem mem_foldl_insertRow {rows kept : List Row} {r : Row} :
    r ∈ rows.foldl (fun rows r => insertRow r rows) kept ↔ r ∈ rows ∨ r ∈ kept := by
  induction rows generalizing kept with
  | nil => simp
  | cons s rows ih =>
    rw [List.foldl_cons, ih, mem_insertRow, List.mem_cons]
    tauto

theorem mem_distinctRows {rows : List Row} {r : Row} : r ∈ distinctRows rows ↔ r ∈ rows := by
  rw [distinctRows, mem_foldl_insertRow]
  simp

variable {maxRows col : Nat} {rows next : List Row} {x : Nat → Int} {n : Int}

theorem mem_of_insertRow {r : Row} (h : (if maxRows < (insertRow r rows).length then none
    else some (insertRow r rows)) = some next) : r ∈ next ∧ ∀ s ∈ rows, s ∈ next := by
  split at h
  · cases h
  · cases h
    exact ⟨mem_insertRow.2 (.inl rfl), fun s hs => mem_insertRow.2 (.inr hs)⟩

/-- The rows without the column and all resolvents on it are there afterwards. -/
theorem mem_of_resolveAll (h : resolveAll maxRows col rows = some next) :
    (∀ r ∈ rows, col ∉ r.columns → r ∈ next) ∧
      ∀ u ∈ uppers col rows, ∀ l ∈ lowers col rows, Row.resolve col u l ∈ next := by
  unfold resolveAll at h
  refine ⟨fun r hr absent => ?_, ?_⟩
  · refine foldlM_invariant (P := (r ∈ ·)) (List.mem_filter.2 ⟨hr, by simpa using absent⟩)
      (fun _ old u _ _ step => ?_) h
    exact foldlM_invariant (P := (r ∈ ·)) old
      (fun _ old l _ _ step => (mem_of_insertRow step).2 r old) step
  · refine foldlM_covers (P := fun u next => ∀ l ∈ lowers col rows, Row.resolve col u l ∈ next)
      (fun _ u _ step => ?_) (fun _ _ _ u step old l hl => ?_) h
    · exact foldlM_covers (P := fun l next => Row.resolve col u l ∈ next)
        (fun _ _ _ step => (mem_of_insertRow step).1)
        (fun _ _ _ _ step old => (mem_of_insertRow step).2 _ old) step
    · exact foldlM_invariant (P := (Row.resolve col u l ∈ ·)) (old l hl)
        (fun _ old _ _ _ step => (mem_of_insertRow step).2 _ old) step

/-- The left side without the column. -/
def Row.others (x : Nat → Int) (n : Int) (col : Nat) (r : Row) : Int :=
  r.total x n - r.coeff col * x col

/-- Of several rows, one says the most about a column below which it is negative. -/
theorem exists_strongest (x : Nat → Int) (n : Int) (col : Nat) {ls : List Row} (some : ls ≠ [])
    (negative : ∀ l ∈ ls, l.coeff col < 0) :
    ∃ m ∈ ls, ∀ l ∈ ls,
      l.others x n col * -m.coeff col ≤ m.others x n col * -l.coeff col := by
  obtain ⟨m, hm, most⟩ := ls.toFinset.exists_max_image
    (fun l => (l.others x n col : Rat) / (-l.coeff col : Int)) (by simpa using some)
  refine ⟨m, by simpa using hm, fun l hl => ?_⟩
  have above := most l (by simpa using hl)
  have lpos : (0 : Rat) < ((-l.coeff col : Int) : Rat) := by
    exact_mod_cast Int.neg_pos.2 (negative l hl)
  have mpos : (0 : Rat) < ((-m.coeff col : Int) : Rat) := by
    exact_mod_cast Int.neg_pos.2 (negative m (by simpa using hm))
  rw [div_le_div_iff₀ lpos mpos] at above
  exact_mod_cast above

theorem exists_above (x : Nat → Int) (n : Int) (col : Nat) (us : List Row) :
    ∃ k : Int, 0 ≤ k ∧ ∀ u ∈ us, u.others x n col ≤ k := by
  induction us with
  | nil => exact ⟨0, le_refl 0, by simp⟩
  | cons u us ih =>
    obtain ⟨k, nonneg, above⟩ := ih
    refine ⟨max k (u.others x n col), le_max_of_le_left nonneg, fun v hv => ?_⟩
    rcases List.mem_cons.1 hv with rfl | hv
    · exact le_max_right _ _
    · exact le_max_of_le_left (above v hv)

theorem Row.total_giveBack {r : Row} (ascending : r.Ascending) (k v : Int) :
    r.total (Function.update (fun i => k * x i) col v) (k * n) =
      k * r.others x n col + r.coeff col * v := by
  rw [total_update ascending, total_mul, others]
  ring

theorem Row.others_of_not_mem {r : Row} (absent : col ∉ r.columns) :
    r.others x n col = r.total x n := by
  rw [others, coeff_eq_zero absent]
  ring

theorem mem_uppers {r : Row} : r ∈ uppers col rows ↔ r ∈ rows ∧ 0 < r.coeff col := by
  simp [uppers]

theorem coeff_neg_of_mem_lowers (reduced : ∀ r ∈ rows, r.Reduced) {l : Row}
    (h : l ∈ lowers col rows) : l.coeff col < 0 := by
  obtain ⟨mem, side⟩ := List.mem_filter.1 h
  simp only [Bool.and_eq_true, Bool.not_eq_true', decide_eq_false_iff_not,
    decide_eq_true_eq] at side
  obtain ⟨c, hc, rfl⟩ := List.mem_map.1 side.1
  have nonzero := (reduced l mem).nonzero c hc
  rw [Row.eq_coeff_of_mem (reduced l mem).ascending hc] at nonzero
  omega

theorem upper_or_lower {r : Row} (h : r ∈ rows) :
    r ∈ uppers col rows ∨ r ∈ lowers col rows ∨ col ∉ r.columns := by
  by_cases upper : 0 < r.coeff col
  · exact .inl (mem_uppers.2 ⟨h, upper⟩)
  · by_cases mem : col ∈ r.columns
    · exact .inr (.inl (List.mem_filter.2 ⟨h, by simp [upper, mem]⟩))
    · exact .inr (.inr mem)

/-- A rational solution of the rows after an elimination extends to the rows before it. -/
theorem exists_solution_of_resolveAll (reduced : ∀ r ∈ rows, r.Reduced)
    (h : resolveAll maxRows col rows = some next) (hn : 0 < n)
    (solves : ∀ r ∈ next, r.HoldsOver x n) :
    ∃ y k, 0 < k ∧ ∀ r ∈ rows, r.HoldsOver y k := by
  obtain ⟨kept, resolved⟩ := mem_of_resolveAll h
  have without : ∀ r ∈ rows, col ∉ r.columns → r.others x n col ≤ 0 := fun r hr absent =>
    le_of_eq_of_le (Row.others_of_not_mem absent) (solves r (kept r hr absent))
  by_cases unbounded : lowers col rows = []
  · obtain ⟨k, nonneg, above⟩ := exists_above x n col (uppers col rows)
    refine ⟨Function.update (fun i => 1 * x i) col (-k), 1 * n, by omega, fun r hr => ?_⟩
    rw [Row.HoldsOver, Row.total_giveBack (reduced r hr).ascending]
    rcases upper_or_lower hr with upper | lower | absent
    · have bound := above r upper
      have positive := (mem_uppers.1 upper).2
      nlinarith
    · rw [unbounded] at lower
      cases lower
    · rw [Row.coeff_eq_zero absent]
      linarith [without r hr absent]
  · obtain ⟨m, hm, most⟩ := exists_strongest x n col unbounded
      fun l hl => coeff_neg_of_mem_lowers reduced hl
    have negative := coeff_neg_of_mem_lowers reduced hm
    refine ⟨Function.update (fun i => -m.coeff col * x i) col (m.others x n col),
      -m.coeff col * n, mul_pos (by omega) hn, fun r hr => ?_⟩
    rw [Row.HoldsOver, Row.total_giveBack (reduced r hr).ascending]
    rcases upper_or_lower hr with upper | lower | absent
    · have mem := (List.mem_filter.1 hm).1
      have resolvent := Row.HoldsOver.of_resolve hn.le (reduced r hr).ascending
        (reduced m mem).ascending (solves _ (resolved r upper m hm))
      simp only [Row.others]
      linarith
    · linarith [most r lower]
    · rw [Row.coeff_eq_zero absent]
      nlinarith [without r hr absent]

theorem reduced_resolveAll (reduced : ∀ r ∈ rows, r.Reduced)
    (h : resolveAll maxRows col rows = some next) : ∀ r ∈ next, r.Reduced := by
  unfold resolveAll at h
  refine foldlM_invariant (P := fun rows => ∀ r ∈ rows, r.Reduced) ?_ ?_ h
  · exact fun r hr => reduced r (List.mem_filter.1 hr).1
  · intro b hb u hu c hc
    refine foldlM_invariant (P := fun rows => ∀ r ∈ rows, r.Reduced) hb ?_ hc
    intro b hb l hl c hc r hr
    have ascending := (reduced u (List.mem_filter.1 hu).1).ascending
    dsimp only at hc
    split at hc
    · cases hc
    · cases hc
      rcases mem_insertRow.1 hr with rfl | old
      · exact Row.reduced_tighten (((ascending.scale _).add _).filter _)
      · exact hb r old

theorem columns_eq_nil_of_cheapest {cs : List Nat} (h : cheapest rows cs = none) : cs = [] := by
  cases cs with
  | nil => rfl
  | cons c cs =>
    rw [cheapest] at h
    dsimp only at h
    split at h
    · cases h
    · split at h <;> cases h

theorem Row.holdsOver_of_isConstant {r : Row} (constant : r.isConstant = true)
    (consistent : r.isContradiction = false) (hn : 0 ≤ n) : r.HoldsOver x n := by
  have empty : r.coeffs = [] := by simpa [isConstant] using constant
  have nonpos : r.constant ≤ 0 := by simpa [isContradiction, constant] using consistent
  rw [HoldsOver, total, empty, linear_nil]
  nlinarith

theorem isConstant_of_columns_eq_nil (h : columns rows = []) {r : Row} (hr : r ∈ rows) :
    r.isConstant = true := by
  rw [Row.isConstant, List.isEmpty_iff]
  by_contra some
  obtain ⟨c, hc⟩ := List.exists_mem_of_ne_nil _ some
  have mem : c.1 ∈ columns rows := mem_columns.2 ⟨r, hr, List.mem_map_of_mem hc⟩
  rw [h] at mem
  cases mem

/-- Rows that are found feasible have a rational solution. -/
theorem exists_solution_of_eliminate {rows : List Row} (reduced : ∀ r ∈ rows, r.Reduced)
    {l : Limits} {s : Progress} (h : (eliminate rows l s).1 = some true) :
    ∃ x n, 0 < n ∧ ∀ r ∈ rows, r.HoldsOver x n := by
  fun_induction eliminate rows l s with
  | case1 | case2 | case4 | case5 => simp at h
  | case3 rows s s' alive consistent none =>
    have consistent : ∀ r ∈ rows, r.isContradiction = false := by simpa using consistent
    have empty : columns rows = [] := by
      rw [← columns_liveRows]
      exact columns_eq_nil_of_cheapest none
    exact ⟨0, 1, one_pos, fun r hr => Row.holdsOver_of_isConstant
      (isConstant_of_columns_eq_nil empty hr) (consistent r hr) zero_le_one⟩
  | case6 rows s s' alive consistent col chosen next resolved s'' reported ih =>
    have consistent : ∀ r ∈ rows, r.isContradiction = false := by simpa using consistent
    have live : ∀ r ∈ liveRows rows, r.Reduced := fun r hr => reduced r (List.mem_filter.1 hr).1
    obtain ⟨x, n, hn, solves⟩ := ih (reduced_resolveAll live resolved) h
    obtain ⟨y, k, hk, all⟩ := exists_solution_of_resolveAll live resolved hn solves
    refine ⟨y, k, hk, fun r hr => ?_⟩
    by_cases constant : r.isConstant = true
    · exact Row.holdsOver_of_isConstant constant (consistent r hr) hk.le
    · exact all r (List.mem_filter.2 ⟨hr, by simpa using constant⟩)

end PredicateStrength.Solver
