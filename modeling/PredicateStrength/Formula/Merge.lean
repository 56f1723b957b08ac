import PredicateStrength.Formula.Constraint
import PredicateStrength.Formula.Order

/-!
Several bounds on one polynomial merged into few: those that hold together, and those one of which
holds. If `nonneg` is set, the polynomial is known to be at least zero, and a lower end at or
below zero says nothing.
-/
namespace PredicateStrength

/-- What several bounds come to. -/
inductive Merged where
  /-- They hold of every value. -/
  | always
  /-- They hold of no value. -/
  | never
  | bounds (bs : List Bound)
deriving DecidableEq, Repr

namespace Bound

/-- The integers between two ends; a missing end is unbounded. -/
structure Interval where
  lo : Option Int
  hi : Option Int
deriving DecidableEq, Repr

namespace Interval

/-- By the lower end, then by the upper end; missing ends come first. -/
def cmp (i j : Interval) : Ordering := (endCmp i.lo j.lo).then (endCmp i.hi j.hi)

def isEmpty (i : Interval) : Bool :=
  match i.lo, i.hi with
  | some l, some h => h < l
  | _, _ => false

def contains (i : Interval) (x : Int) : Bool := i.lo.all (· ≤ x) && i.hi.all (x ≤ ·)

/-- `x` lies in the interval and is none of its ends. -/
def containsInside (i : Interval) (x : Int) : Bool := i.lo.all (· < x) && i.hi.all (x < ·)

end Interval

/-- The lower end as it is shown. -/
def visibleLo (nonneg : Bool) (lo : Option Int) : Option Int :=
  lo.filter fun l => !(nonneg && l ≤ 0)

/-- The tighter of two ends, where `tighter` chooses between two that are present. -/
def tightenEnd (tighter : Int → Int → Int) : Option Int → Option Int → Option Int
  | some a, some b => some (tighter a b)
  | some a, none => some a
  | none, b => b

/-- The interval that all ranges share. -/
def commonInterval (bs : List Bound) : Interval :=
  bs.foldl
    (fun i b =>
      match b with
      | .range lo hi => ⟨tightenEnd max i.lo lo, tightenEnd min i.hi hi⟩
      | .ne _ => i)
    ⟨none, none⟩

/-- The values that are excluded, in ascending order. -/
def holes (bs : List Bound) : List Int :=
  Sorting.sortDistinct compare (bs.filterMap fun
    | .range _ _ => none
    | .ne v => some v)

/-- The lower end moved up past the holes, which ascend, that it meets. -/
def raiseLo (holes : List Int) (lo : Option Int) : Option Int :=
  lo.map fun l => holes.foldl (fun l v => if v = l then l + 1 else l) l

/-- The upper end moved down past the holes, which ascend, that it meets. -/
def lowerHi (holes : List Int) (hi : Option Int) : Option Int :=
  hi.map fun h => holes.foldr (fun v h => if v = h then h - 1 else h) h

/-- The values that satisfy all the bounds, as at most one range and disequalities inside it. -/
def intersect (nonneg : Bool) (bs : List Bound) : Merged :=
  let common := commonInterval bs
  let i : Interval :=
    ⟨raiseLo (holes bs) (effectiveLo nonneg common.lo), lowerHi (holes bs) common.hi⟩
  if i.isEmpty then .never
  else
    let lo := visibleLo nonneg i.lo
    let range := if lo.isSome || i.hi.isSome then [.range lo i.hi] else []
    match range ++ ((holes bs).filter i.containsInside).map .ne with
    | [] => .always
    | bs => .bounds bs

/-- The ranges that admit some value. -/
def nonemptyIntervals (nonneg : Bool) (bs : List Bound) : List Interval :=
  bs.filterMap fun
    | .range lo hi =>
      let i : Interval := ⟨effectiveLo nonneg lo, hi⟩
      if i.isEmpty then none else some i
    | .ne _ => none

/-- An interval that starts no later than `j` leaves no integer between itself and `j`. -/
def Interval.reaches (i j : Interval) : Bool :=
  match i.hi, j.lo with
  | some h, some l => l ≤ h + 1
  | _, _ => true

/-- The later of two upper ends. -/
def laterHi : Option Int → Option Int → Option Int
  | some a, some b => some (max a b)
  | _, _ => none

/-- Intervals in ascending order joined wherever they reach one another; `i` comes first. -/
def joinFrom (i : Interval) : List Interval → List Interval
  | [] => [i]
  | j :: js => if i.reaches j then joinFrom ⟨i.lo, laterHi i.hi j.hi⟩ js else i :: joinFrom j js

/-- Intervals in ascending order joined wherever they reach one another. -/
def joinIntervals : List Interval → List Interval
  | [] => []
  | i :: is => joinFrom i is

/-- The interval leaves no value out. -/
def Interval.isWhole (nonneg : Bool) (i : Interval) : Bool :=
  i.hi.isNone && i.lo.all fun l => nonneg && l = 0

/-- The values that satisfy one of the bounds, as separate ranges or a disequality. -/
def unite (nonneg : Bool) (bs : List Bound) : Merged :=
  let excluded := holes bs
  if 1 < excluded.length || nonneg && excluded.any (· < 0) then .always
  else
    let joined := joinIntervals (Sorting.sort Interval.cmp (nonemptyIntervals nonneg bs))
    if excluded.any (fun v => joined.any (·.contains v)) || joined.any (·.isWhole nonneg) then
      .always
    else
      match joined.map (fun i => .range (visibleLo nonneg i.lo) i.hi) ++ excluded.map .ne with
      | [] => .never
      | bs => .bounds bs

end Bound
end PredicateStrength
