import PredicateStrength.Sorting

/-!
Linear inequalities between integer unknowns, which are numbered columns, and the elimination of
one column.

Main statements: a resolvent mentions no column that its parents do not, and not the column that
was resolved on (`mem_columns_resolve`); so resolving a set of rows on a column leaves fewer
columns (`length_columns_resolveAll_lt`).
-/
namespace PredicateStrength.Solver

/-- `Σ coeffs[i] · x_i + constant ≤ 0`. Columns ascend and coefficients are not zero. -/
structure Row where
  coeffs : List (Nat × Int)
  constant : Int
deriving DecidableEq, Repr

namespace Row

/-- The coefficient of a column, zero if it is not mentioned. -/
def coeff (r : Row) (col : Nat) : Int := (r.coeffs.lookup col).getD 0

/-- The columns that are mentioned. -/
def columns (r : Row) : List Nat := r.coeffs.map Prod.fst

/-- No column is mentioned. -/
def isConstant (r : Row) : Bool := r.coeffs.isEmpty

/-- No column is mentioned and the inequality is false. -/
def isContradiction (r : Row) : Bool := r.isConstant && 0 < r.constant

/-- The coefficients with `v` added to that of `col`. -/
def addCoeff (col : Nat) (v : Int) : List (Nat × Int) → List (Nat × Int)
  | [] => [(col, v)]
  | (c, w) :: rest =>
    if col < c then (col, v) :: (c, w) :: rest
    else if col = c then (c, w + v) :: rest
    else (c, w) :: addCoeff col v rest

/-- Both sides multiplied by `k`. -/
def scale (k : Int) (r : Row) : Row :=
  ⟨r.coeffs.map fun (c, v) => (c, v * k), r.constant * k⟩

/-- The sum of two inequalities. -/
def add (r s : Row) : Row :=
  ⟨s.coeffs.foldr (fun (c, v) coeffs => addCoeff c v coeffs) r.coeffs, r.constant + s.constant⟩

/-- Quotient of integers rounded up. -/
def ceilDiv (n d : Int) : Int := -((-n).fdiv d)

/-- The coefficients that are not zero divided by their greatest common divisor; the constant
rounds up, since every column is an integer. -/
def tighten (r : Row) : Row :=
  let coeffs := r.coeffs.filter fun (_, v) => v ≠ 0
  let g := coeffs.foldl (fun n (_, v) => n.gcd v.natAbs) 0
  if 1 < g then ⟨coeffs.map fun (c, v) => (c, v / g), ceilDiv r.constant g⟩
  else ⟨coeffs, r.constant⟩

/-- The inequality without the column, for one in which its coefficient is zero. -/
def drop (col : Nat) (r : Row) : Row := ⟨r.coeffs.filter fun (c, _) => c ≠ col, r.constant⟩

/-- The consequence of an upper and a lower bound of a column in which the column cancels. -/
def resolve (col : Nat) (upper lower : Row) : Row :=
  (((upper.scale (-lower.coeff col)).add (lower.scale (upper.coeff col))).drop col).tighten

theorem columns_scale (k : Int) (r : Row) : (r.scale k).columns = r.columns := by
  simp [columns, scale, Function.comp_def]

theorem mem_addCoeff {col x : Nat} {v : Int} {cs : List (Nat × Int)} :
    x ∈ (addCoeff col v cs).map Prod.fst → x = col ∨ x ∈ cs.map Prod.fst := by
  induction cs with
  | nil => simp [addCoeff]
  | cons c cs ih =>
    rw [addCoeff]
    grind

theorem mem_columns_add {r s : Row} {x : Nat} (h : x ∈ (r.add s).columns) :
    x ∈ r.columns ∨ x ∈ s.columns := by
  have aux : ∀ ss : List (Nat × Int),
      x ∈ (ss.foldr (fun (c, v) coeffs => addCoeff c v coeffs) r.coeffs).map Prod.fst →
        x ∈ r.columns ∨ x ∈ ss.map Prod.fst := by
    intro ss
    induction ss with
    | nil => exact .inl
    | cons c ss ih =>
      intro h
      rcases mem_addCoeff h with h | h
      · simp [h]
      · rcases ih h with h | h
        · exact .inl h
        · exact .inr (by simp_all)
  exact aux s.coeffs h

theorem mem_columns_tighten {r : Row} {x : Nat} (h : x ∈ r.tighten.columns) :
    x ∈ r.columns := by
  unfold tighten at h
  grind [columns]

theorem mem_columns_resolve {col x : Nat} {u l : Row} (h : x ∈ (resolve col u l).columns) :
    (x ∈ u.columns ∨ x ∈ l.columns) ∧ x ≠ col := by
  have h := mem_columns_tighten h
  have hx : x ∈ ((u.scale (-l.coeff col)).add (l.scale (u.coeff col))).columns ∧ x ≠ col := by
    simp only [drop, columns, List.mem_map, List.mem_filter] at h ⊢
    grind
  refine ⟨?_, hx.2⟩
  simpa only [columns_scale] using mem_columns_add hx.1

end Row

/-- The columns that a list of rows mentions, ascending. -/
def columns (rows : List Row) : List Nat := Sorting.sortDistinct compare (rows.flatMap Row.columns)

theorem mem_columns {rows : List Row} {x : Nat} :
    x ∈ columns rows ↔ ∃ r ∈ rows, x ∈ r.columns := by
  simp [columns]

/-- The rows that mention a column. -/
def liveRows (rows : List Row) : List Row := rows.filter (!·.isConstant)

@[simp] theorem columns_liveRows (rows : List Row) : columns (liveRows rows) = columns rows := by
  have : (liveRows rows).flatMap Row.columns = rows.flatMap Row.columns := by
    induction rows with
    | nil => rfl
    | cons r rows ih =>
      rw [liveRows, List.filter_cons]
      split
      · rw [List.flatMap_cons, List.flatMap_cons, ← ih, liveRows]
      · next h =>
        have : r.columns = [] := by simpa [Row.isConstant, Row.columns] using h
        rw [List.flatMap_cons, this, List.nil_append, ← ih, liveRows]
  rw [columns, columns, this]

/-- Rows are kept once. -/
def insertRow (r : Row) (rows : List Row) : List Row := if r ∈ rows then rows else rows ++ [r]

/-- The distinct rows, in order of first appearance. -/
def distinctRows (rows : List Row) : List Row := rows.foldl (fun rows r => insertRow r rows) []

/-- The rows in which the column is bounded above. -/
def uppers (col : Nat) (rows : List Row) : List Row := rows.filter fun r => 0 < r.coeff col

/-- The rows in which the column is bounded below. -/
def lowers (col : Nat) (rows : List Row) : List Row :=
  rows.filter fun r => col ∈ r.columns && !(0 < r.coeff col)

/-- The column whose elimination makes the fewest resolvents; the first of several. -/
def cheapest (rows : List Row) : List Nat → Option Nat
  | [] => none
  | c :: cs =>
    let cost (c : Nat) := (uppers c rows).length * (lowers c rows).length
    match cheapest rows cs with
    | none => some c
    | some d => if cost c ≤ cost d then some c else some d

/-- The rows without the column, and all resolvents on it; `none` if there are more than `maxRows`
after a resolvent was put in. -/
def resolveAll (maxRows col : Nat) (rows : List Row) : Option (List Row) :=
  (uppers col rows).foldlM
    (fun next u =>
      (lowers col rows).foldlM
        (fun next l =>
          let next := insertRow (Row.resolve col u l) next
          if maxRows < next.length then none else some next)
        next)
    (rows.filter fun r => col ∉ r.columns)

theorem cheapest_mem {rows : List Row} {cs : List Nat} {c : Nat} (h : cheapest rows cs = some c) :
    c ∈ cs := by
  induction cs generalizing c with
  | nil => simp [cheapest] at h
  | cons d ds ih =>
    rw [cheapest] at h
    grind

theorem foldlM_invariant {α β : Type} {f : β → α → Option β} {P : β → Prop}
    {xs : List α} {b c : β} (hb : P b)
    (hf : ∀ b, P b → ∀ x ∈ xs, ∀ c, f b x = some c → P c)
    (h : xs.foldlM f b = some c) : P c := by
  induction xs generalizing b with
  | nil => simp at h; exact h ▸ hb
  | cons x xs ih =>
    rw [List.foldlM_cons] at h
    obtain ⟨d, hd, h⟩ := Option.bind_eq_some_iff.1 h
    exact ih (hf b hb x (by simp) d hd) (fun b hb y hy => hf b hb y (by simp [hy])) h

theorem mem_columns_of_resolveAll {maxRows col : Nat} {rows next : List Row}
    (h : resolveAll maxRows col rows = some next) {x : Nat} (hx : x ∈ columns next) :
    x ∈ columns rows ∧ x ≠ col := by
  let P (rs : List Row) : Prop := ∀ r ∈ rs, ∀ x ∈ r.columns, x ∈ columns rows ∧ x ≠ col
  suffices hP : P next by
    obtain ⟨r, hr, hx⟩ := mem_columns.1 hx
    exact hP r hr x hx
  refine foldlM_invariant (P := P) ?_ ?_ h
  · intro r hr x hx
    rw [List.mem_filter] at hr
    exact ⟨mem_columns.2 ⟨r, hr.1, hx⟩, fun e => by simp_all⟩
  · intro b hb u hu c hc
    refine foldlM_invariant (P := P) hb ?_ hc
    intro b hb l hl c hc
    have hc : insertRow (Row.resolve col u l) b = c := by
      dsimp only at hc
      split at hc <;> simp_all
    subst hc
    intro r hr x hx
    have hr : r = Row.resolve col u l ∨ r ∈ b := by
      unfold insertRow at hr
      grind
    rcases hr with rfl | hr
    · have hm := Row.mem_columns_resolve hx
      refine ⟨mem_columns.2 ?_, hm.2⟩
      rcases hm.1 with hm | hm
      · exact ⟨u, (List.mem_filter.1 hu).1, hm⟩
      · exact ⟨l, (List.mem_filter.1 hl).1, hm⟩
    · exact hb r hr x hx

private theorem length_le_of_nodup_subset {xs ys : List Nat} (hx : xs.Nodup)
    (h : ∀ x ∈ xs, x ∈ ys) : xs.length ≤ ys.length := by
  induction xs generalizing ys with
  | nil => simp
  | cons x xs ih =>
    rw [List.nodup_cons] at hx
    have hmem := h x (by simp)
    have herase : ∀ y ∈ xs, y ∈ ys.erase x := fun y hy =>
      (List.mem_erase_of_ne (by rintro rfl; exact hx.1 hy)).2 (h y (by simp [hy]))
    have := ih hx.2 herase
    rw [List.length_erase_of_mem hmem] at this
    have := List.length_pos_of_mem hmem
    simp only [List.length_cons]
    omega

theorem nodup_columns (rows : List Row) : (columns rows).Nodup :=
  (Sorting.sortDistinct_strictlyAscending compare _).imp fun h e => by simp [e] at h

/-- Resolving on a mentioned column leaves fewer columns. -/
theorem length_columns_resolveAll_lt {maxRows col : Nat} {rows next : List Row}
    (h : resolveAll maxRows col rows = some next) (hcol : col ∈ columns rows) :
    (columns next).length < (columns rows).length := by
  have hle : (columns next).length ≤ ((columns rows).erase col).length :=
    length_le_of_nodup_subset (nodup_columns next) fun x hx =>
      have hm := mem_columns_of_resolveAll h hx
      (List.mem_erase_of_ne hm.2).2 hm.1
  rw [List.length_erase_of_mem hcol] at hle
  have := List.length_pos_of_mem hcol
  omega

end PredicateStrength.Solver
