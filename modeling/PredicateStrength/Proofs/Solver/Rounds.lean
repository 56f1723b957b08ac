import Mathlib
import PredicateStrength.Proofs.Formula.Ordered
import PredicateStrength.Proofs.Solver.Worklist

/-!
# The loops of the solver end

Setting up the relaxation visits each of its columns once (`System.after_relaxedColumns`).
Elimination goes in rounds; a round resolves all rows on one column. In a resolvent of rows in
order the column cancels, so leaving it out by name changes nothing (`Row.resolve_eq`), and no other
column is new, so the columns are different from round to round (`Rounds.nodup`).

Main statement: both loops end, for every list of constraints and every list of rows
(`loops_end`).
-/
namespace PredicateStrength.Solver

namespace Row

variable {u l r : Row} {col : Nat}

/-- Leaving out a column with coefficient zero does nothing that rounding would not do. -/
theorem tighten_drop (ascending : r.Ascending) (zero : r.coeff col = 0) :
    (r.drop col).tighten = r.tighten := by
  have same : (r.drop col).coeffs.filter (fun c => c.2 ≠ 0) =
      r.coeffs.filter fun c => c.2 ≠ 0 := by
    rw [drop, List.filter_filter]
    refine List.filter_congr fun c mem => ?_
    by_cases own : c.1 = col
    · have value : c.2 = 0 := (eq_coeff_of_mem ascending mem).trans (own ▸ zero)
      simp [value]
    · simp [own]
  show Row.tighten ⟨(r.drop col).coeffs, r.constant⟩ = _
  unfold tighten
  dsimp only at same ⊢
  rw [same]

/-- A resolvent is the rounded combination in which the column cancels. -/
theorem resolve_eq (au : u.Ascending) (al : l.Ascending) (col : Nat) :
    resolve col u l = ((u.scale (-l.coeff col)).add (l.scale (u.coeff col))).tighten :=
  tighten_drop ((au.scale _).add _) (coeff_cancel au al col)

end Row

/-- Rounds of elimination: the columns that were resolved on and the rows that are left. -/
inductive Rounds (maxRows : Nat) : List Row → List Nat → List Row → Prop
  | done (rows : List Row) : Rounds maxRows rows [] rows
  | round {rows next last : List Row} {col : Nat} {cols : List Nat}
      (chosen : cheapest (liveRows rows) (columns (liveRows rows)) = some col)
      (resolved : resolveAll maxRows col (liveRows rows) = some next)
      (later : Rounds maxRows next cols last) : Rounds maxRows rows (col :: cols) last

/-- A round removes a column that there is and brings no new one. -/
theorem columns_round {maxRows col : Nat} {rows next : List Row}
    (chosen : cheapest (liveRows rows) (columns (liveRows rows)) = some col)
    (resolved : resolveAll maxRows col (liveRows rows) = some next) :
    col ∈ columns rows ∧ ∀ x ∈ columns next, x ∈ columns rows ∧ x ≠ col := by
  refine ⟨columns_liveRows rows ▸ cheapest_mem chosen, fun x mem => ?_⟩
  rw [← columns_liveRows rows]
  exact mem_columns_of_resolveAll resolved mem

namespace Rounds

variable {maxRows : Nat} {rows last : List Row} {cols : List Nat}

theorem mem_columns (h : Rounds maxRows rows cols last) : ∀ c ∈ cols, c ∈ columns rows := by
  induction h with
  | done => nofun
  | round chosen resolved _ ih =>
    obtain ⟨present, fewer⟩ := columns_round chosen resolved
    exact List.forall_mem_cons.2 ⟨present, fun c mem => (fewer c (ih c mem)).1⟩

theorem nodup (h : Rounds maxRows rows cols last) : cols.Nodup := by
  induction h with
  | done => exact List.nodup_nil
  | round chosen resolved later ih =>
    refine List.nodup_cons.2 ⟨fun mem => ?_, ih⟩
    exact ((columns_round chosen resolved).2 _ (later.mem_columns _ mem)).2 rfl

/-- The columns that are left were there before and were not resolved on. -/
theorem columns_last (h : Rounds maxRows rows cols last) :
    ∀ x ∈ columns last, x ∈ columns rows ∧ x ∉ cols := by
  induction h with
  | done => exact fun x mem => ⟨mem, List.not_mem_nil⟩
  | round chosen resolved _ ih =>
    intro x mem
    obtain ⟨kept, absent⟩ := ih x mem
    obtain ⟨present, other⟩ := (columns_round chosen resolved).2 x kept
    exact ⟨present, fun mem => (List.mem_cons.1 mem).elim other absent⟩

theorem length_le (h : Rounds maxRows rows cols last) : cols.length ≤ (columns rows).length :=
  (h.nodup.subperm h.mem_columns).length_le

/-- Rows in order stay in order. -/
theorem reduced (h : Rounds maxRows rows cols last) (start : ∀ r ∈ rows, r.Reduced) :
    ∀ r ∈ last, r.Reduced := by
  induction h with
  | done => exact start
  | round chosen resolved _ ih =>
    have live : ∀ r ∈ liveRows _, r.Reduced := fun r mem => start r (List.mem_filter.1 mem).1
    exact ih (reduced_resolveAll live resolved)

end Rounds

theorem requireAlive_snd {l : Limits} {s s' : Progress} {granted : Option Unit}
    (h : Budgeted.requireAlive l s = (granted, s')) :
    s' = { s with requests := s.requests + 1 } := (congrArg Prod.snd h).symm

/-- Elimination goes through rounds: it asks to go on before each of them and once at the end, and
records each. If it finds a solution no column is left. -/
theorem exists_rounds_of_eliminate (rows : List Row) (l : Limits) (s : Progress) :
    ∃ cols last, Rounds l.maxRows rows cols last ∧
      (eliminate rows l s).2.requests = s.requests + cols.length + 1 ∧
      (eliminate rows l s).2.records.length = s.records.length + cols.length ∧
      ((eliminate rows l s).1 = some true → columns last = []) := by
  fun_induction eliminate rows l s with
  | case1 rows s s' refused =>
    rw [requireAlive_snd refused]
    exact ⟨[], rows, .done rows, rfl, rfl, by simp⟩
  | case2 rows s s' alive contradiction =>
    rw [requireAlive_snd alive]
    exact ⟨[], rows, .done rows, rfl, rfl, by simp⟩
  | case3 rows s s' alive consistent none =>
    rw [requireAlive_snd alive]
    exact ⟨[], rows, .done rows, rfl, rfl, fun _ =>
      columns_liveRows rows ▸ columns_eq_nil_of_cheapest none⟩
  | case4 rows s s' alive consistent col chosen full =>
    rw [requireAlive_snd alive]
    exact ⟨[], rows, .done rows, rfl, rfl, by simp⟩
  | case5 rows s s' alive consistent col chosen next resolved s'' refused => cases refused
  | case6 rows s s' alive consistent col chosen next resolved s'' reported ih =>
    obtain ⟨cols, last, later, requests, records, feasible⟩ := ih
    have asked : s'.requests = s.requests + 1 := by rw [requireAlive_snd alive]
    have kept : s'.records = s.records := by rw [requireAlive_snd alive]
    cases reported
    refine ⟨col :: cols, last, .round chosen resolved later, ?_, ?_, feasible⟩
    · rw [requests, asked, List.length_cons]
      omega
    · rw [records, kept, List.length_cons, List.length_cons]
      omega

/-- Both loops end. The visits to the columns end after one for each column of the relaxation, and
then the rows state the facts about all of them. Elimination ends after at most as many rounds as
the rows have columns, since each round removes its column and brings no other one; in rows that
were in order at the start the column of a resolvent is gone because it cancels. -/
theorem loops_end (d : Domain) {cs : List Constraint} (wf : ∀ c ∈ cs, c.poly.WellFormed) :
    ((∀ n < (relaxedColumns d cs).length,
        ((System.after d (.ofConstraints cs) n).visit d n).isSome = true) ∧
      (System.after d (.ofConstraints cs) (relaxedColumns d cs).length).visit d
        (relaxedColumns d cs).length = none ∧
      System.after d (.ofConstraints cs) (relaxedColumns d cs).length =
        ⟨relaxedColumns d cs, relax d cs⟩ ∧
      (d = .unsigned → StatesFacts (relaxedColumns d cs) (relax d cs))) ∧
    (∀ (rows : List Row) (l : Limits) (s : Progress), ∃ cols last,
      Rounds l.maxRows rows cols last ∧
      (eliminate rows l s).2.requests = s.requests + cols.length + 1 ∧
      (eliminate rows l s).2.records.length = s.records.length + cols.length ∧
      cols.length ≤ (columns rows).length ∧ cols.Nodup ∧ (∀ c ∈ cols, c ∈ columns rows) ∧
      ∀ x ∈ columns last, x ∈ columns rows ∧ x ∉ cols) ∧
    ∀ (maxRows : Nat) (rows : List Row) (cols : List Nat) (last : List Row),
      Rounds maxRows rows cols last → (∀ r ∈ rows, r.Reduced) →
      ∀ u ∈ last, ∀ v ∈ last, ∀ col, Row.resolve col u v =
        ((u.scale (-v.coeff col)).add (v.scale (u.coeff col))).tighten := by
  have wf : ∀ m ∈ relaxedColumns d cs, WellFormed m := wellFormed_of_mem_relaxedColumns wf
  obtain ⟨visits, ended, all⟩ := System.after_relaxedColumns wf
  refine ⟨⟨visits, ended, all, ?_⟩, fun rows l s => ?_, ?_⟩
  · rintro rfl
    exact statesFacts_relax cs wf
  · obtain ⟨cols, last, rounds, requests, records, -⟩ := exists_rounds_of_eliminate rows l s
    exact ⟨cols, last, rounds, requests, records, rounds.length_le, rounds.nodup,
      rounds.mem_columns, rounds.columns_last⟩
  · intro maxRows rows cols last rounds start u hu v hv col
    have reduced := rounds.reduced start
    exact Row.resolve_eq (reduced u hu).ascending (reduced v hv).ascending col

/-- `x / 2 / 3 >= 1`. -/
def nestedQuotient : Constraint :=
  ⟨.ofAtom (.quot (.ofAtom (.quot (.symbol "x") (.const 2))) (.const 3)), .range (some 1) none⟩

/-- The quotient brings a column for its numerator, and that one a column for `x`. -/
theorem loops_end_nestedQuotient :
    relaxedColumns .unsigned [nestedQuotient] =
      [.ofAtom (.quot (.ofAtom (.quot (.symbol "x") (.const 2))) (.const 3)),
        .ofAtom (.quot (.symbol "x") (.const 2)), .ofAtom (.symbol "x")] ∧
    System.after .unsigned (.ofConstraints [nestedQuotient]) 3 =
      ⟨relaxedColumns .unsigned [nestedQuotient], relax .unsigned [nestedQuotient]⟩ := by
  have wf : ∀ c ∈ [nestedQuotient], c.poly.WellFormed := by
    have inner : (Poly.ofAtom (.quot (.symbol "x") (.const 2))).WellFormed :=
      Poly.wellFormed_ofAtom ⟨Poly.wellFormed_ofAtom trivial, Poly.wellFormed_const 2⟩
    exact List.forall_mem_singleton.2
      (Poly.wellFormed_ofAtom ⟨inner, Poly.wellFormed_const 3⟩)
  have columns : relaxedColumns .unsigned [nestedQuotient] =
      [.ofAtom (.quot (.ofAtom (.quot (.symbol "x") (.const 2))) (.const 3)),
        .ofAtom (.quot (.symbol "x") (.const 2)), .ofAtom (.symbol "x")] := by
    decide +kernel
  obtain ⟨⟨-, -, all, -⟩, -⟩ := loops_end .unsigned wf
  have three : (relaxedColumns .unsigned [nestedQuotient]).length = 3 := by rw [columns]; rfl
  rw [three] at all
  exact ⟨columns, all⟩

end PredicateStrength.Solver
