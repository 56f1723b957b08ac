import PredicateStrength.Solver.Budget
import PredicateStrength.Solver.Row

/-!
Whether inequalities have a rational solution, by eliminating one column after the other. Rounding
of the constants makes more systems infeasible than rational arithmetic alone, all of them without
an integer solution.
-/
namespace PredicateStrength.Solver

/-- The record of one elimination. -/
def eliminationRecord (col rows : Nat) : LogRecord :=
  ⟨.trace, .solver, s!"eliminated column {col}: {rows} rows remain"⟩

/-- Whether the inequalities have a solution. Each round eliminates a column and brings no new one,
so there are at most as many rounds as columns. -/
def eliminate (rows : List Row) : Budgeted Bool := fun l s =>
  match Budgeted.requireAlive l s with
  | (none, s) => (none, s)
  | (some (), s) =>
    if rows.any Row.isContradiction then (some false, s)
    else
      match _hc : cheapest (liveRows rows) (columns (liveRows rows)) with
      | none => (some true, s)
      | some col =>
        match _hr : resolveAll l.maxRows col (liveRows rows) with
        | none => (none, s)
        | some next =>
          match Budgeted.report (eliminationRecord col next.length) l s with
          | (none, s) => (none, s)
          | (some (), s) => eliminate next l s
termination_by (columns rows).length
decreasing_by
  simpa using length_columns_resolveAll_lt _hr (cheapest_mem _hc)

end PredicateStrength.Solver
