import Mathlib
import PredicateStrength.Proofs.Formula.MergedBounds

/-!
# Merging finds out what holds of every value and of none

Bounds that are left after merging are never a way to say "always" or "never". Of those that hold
together some integer satisfies all: an end that has moved past the holes, or an integer far from
them where no end is left. Of those one of which holds some integer satisfies none: the one value
that is left out, or an integer next to the first of the ranges, which are apart. The integers here
are those that the polynomial can be, so from zero on where that is known.

Main statement: `Bound.merged_exactly`.
-/
namespace PredicateStrength

namespace Merged

variable {nonneg : Bool} {combined : List Bound → Int → Prop} {said : Int → Prop} {m : Merged}

/-- The integers that the polynomial can be. -/
def Possible (nonneg : Bool) (n : Int) : Prop := nonneg = true → 0 ≤ n

/-- What was merged says of every possible integer what `said` does, and where that is the same for
all of them, what was merged is that answer. -/
structure Exactly (nonneg : Bool) (combined : List Bound → Int → Prop) (said : Int → Prop)
    (m : Merged) : Prop where
  same : ∀ n, Possible nonneg n → (m.Holds (combined · n) ↔ said n)
  never : m = .never ↔ ∀ n, Possible nonneg n → ¬said n
  always : m = .always ↔ ∀ n, Possible nonneg n → said n

theorem possible_zero (nonneg : Bool) : Possible nonneg 0 := fun _ => le_refl 0

/-- It is enough that the bounds left hold of some possible integer and fail of some. -/
theorem Exactly.of_bounds
    (same : ∀ n, Possible nonneg n → (m.Holds (combined · n) ↔ said n))
    (holds : ∀ bs, m = .bounds bs → ∃ n, Possible nonneg n ∧ combined bs n)
    (fails : ∀ bs, m = .bounds bs → ∃ n, Possible nonneg n ∧ ¬combined bs n) :
    m.Exactly nonneg combined said := by
  refine ⟨same, ⟨?_, fun none => ?_⟩, ⟨?_, fun all => ?_⟩⟩
  · rintro rfl n possible
    exact mt (same n possible).2 not_false
  · cases m with
    | never => rfl
    | always => exact absurd ((same 0 (possible_zero _)).1 trivial) (none 0 (possible_zero _))
    | bounds bs =>
      obtain ⟨n, possible, combined⟩ := holds bs rfl
      exact absurd ((same n possible).1 combined) (none n possible)
  · rintro rfl n possible
    exact (same n possible).1 trivial
  · cases m with
    | never => exact absurd ((same 0 (possible_zero _)).2 (all 0 (possible_zero _))) not_false
    | always => rfl
    | bounds bs =>
      obtain ⟨n, possible, not⟩ := fails bs rfl
      exact absurd ((same n possible).2 (all n possible)) not

end Merged

namespace Bound

open Merged (Possible)

variable {nonneg : Bool} {b : Bound} {bs : List Bound}

theorem exists_admits_of_undecided (undecided : b.decide? nonneg = none) :
    ∃ n : Int, Possible nonneg n ∧ b.Admits n := by
  cases b with
  | range lo hi =>
    simp only [admits_range]
    rcases lo with _ | l <;> rcases hi with _ | h <;> cases nonneg <;>
      simp [decide?, effectiveLo] at undecided
    · exact ⟨h, fun known => (by cases known), by simp⟩
    · exact ⟨0, fun _ => le_refl 0, by simpa using undecided⟩
    · exact ⟨l, fun known => (by cases known), by simp⟩
    · exact ⟨max l 0, fun _ => le_max_right l 0, by simp⟩
    · exact ⟨l, fun known => (by cases known), by simpa using undecided⟩
    · exact ⟨max l 0, fun _ => le_max_right l 0, by simpa using undecided⟩
  | ne v => exact ⟨max v 0 + 1, fun _ => by omega, by rw [admits_ne]; omega⟩

theorem exists_not_admits_of_undecided (undecided : b.decide? nonneg = none) :
    ∃ n : Int, Possible nonneg n ∧ ¬b.Admits n := by
  cases b with
  | range lo hi =>
    simp only [admits_range]
    cases hi with
    | some h =>
      refine ⟨max h 0 + 1, fun _ => by omega, fun within => ?_⟩
      have below := within.2 h rfl
      omega
    | none =>
      rcases lo with _ | l
      · cases nonneg <;> simp [decide?, effectiveLo] at undecided
      · refine ⟨l - 1, fun isNonneg => ?_, fun within => ?_⟩
        · simp [decide?, effectiveLo, isNonneg] at undecided
          omega
        · have above := within.1 l rfl
          omega
  | ne v =>
    refine ⟨v, fun isNonneg => ?_, by simp⟩
    simpa [decide?, isNonneg] using undecided

/-- The ends that have moved past the holes have an integer between them that is none. -/
theorem exists_between_ends (nonempty : (ends nonneg bs).isEmpty = false) :
    ∃ n : Int, Possible nonneg n ∧ (ends nonneg bs).Contains n ∧ n ∉ holes bs := by
  have proper := proper_ends nonempty
  have ascending := holes_ascending bs
  cases atLo : (ends nonneg bs).lo with
  | some l =>
    obtain ⟨start, -, raised⟩ := Option.map_eq_some_iff.1 atLo
    refine ⟨l, fun isNonneg => ?_, ⟨?_, fun h atHi => ?_⟩, ?_⟩
    · obtain ⟨l', lo, zero⟩ := proper.known isNonneg
      cases atLo.symm.trans lo
      exact zero
    · simp [atLo]
    · simpa [Interval.isEmpty, atLo, Option.mem_def.1 atHi] using nonempty
    · exact raised ▸ foldl_raise_not_mem ascending start
  | none =>
    have unsigned : nonneg = false := by
      by_contra isNonneg
      obtain ⟨l, lo, -⟩ := proper.known (Bool.not_eq_false _ ▸ isNonneg)
      cases atLo.symm.trans lo
    cases atHi : (ends nonneg bs).hi with
    | some h =>
      obtain ⟨start, -, lowered⟩ := Option.map_eq_some_iff.1 atHi
      refine ⟨h, by simp [Possible, unsigned], ⟨by simp [atLo], by simp [atHi]⟩, ?_⟩
      exact lowered ▸ foldr_lower_not_mem ascending start
    | none =>
      obtain ⟨n, outside⟩ := Infinite.exists_notMem_finset (holes bs).toFinset
      rw [List.mem_toFinset] at outside
      exact ⟨n, by simp [Possible, unsigned], ⟨by simp [atLo], by simp [atHi]⟩, outside⟩

theorem exactly_intersect (nonneg : Bool) (bs : List Bound) :
    (intersect nonneg bs).Exactly nonneg (fun cs n => ∀ b ∈ cs, b.Admits n)
      fun n => ∀ b ∈ bs, b.Admits n := by
  refine .of_bounds (fun n possible => holds_intersect possible bs) ?_ ?_
  · intro cs left
    have nonempty : (ends nonneg bs).isEmpty = false := by
      by_contra empty
      rw [intersect_eq, if_pos (Bool.not_eq_false _ ▸ empty)] at left
      cases left
    obtain ⟨n, possible, within, outside⟩ := exists_between_ends nonempty
    refine ⟨n, possible, ?_⟩
    have all : ∀ b ∈ bs, b.Admits n :=
      (forall_admits_iff bs).2 ⟨(contains_ends possible outside).1 within, outside⟩
    have holds := (holds_intersect possible bs).2 all
    rw [left] at holds
    exact holds
  · intro cs left
    have merged := isMerged_of_intersect left
    obtain ⟨b, mem⟩ := List.exists_mem_of_ne_nil cs merged.nonempty
    obtain ⟨n, possible, not⟩ := exists_not_admits_of_undecided (merged.undecided b mem)
    exact ⟨n, possible, fun all => not (all b mem)⟩

namespace Interval

variable {is : List Interval}

/-- Ranges that are apart leave out an integer next to the first of them. -/
theorem exists_outside (proper : ∀ i ∈ is, i.Proper nonneg) (apart : is.Pairwise Precedes)
    (open' : ∀ i ∈ is, i.isWhole nonneg = false) :
    ∃ n : Int, Possible nonneg n ∧ ∀ i ∈ is, ¬i.Contains n := by
  cases is with
  | nil => exact ⟨0, Merged.possible_zero _, nofun⟩
  | cons i is =>
    obtain ⟨later, -⟩ := List.pairwise_cons.1 apart
    have first := proper i (.head _)
    have notWhole := open' i (.head _)
    -- Whatever is at most one past the first range lies before the others.
    have before (n : Int) (near : ∀ h ∈ i.hi, n ≤ h + 1) : ∀ k ∈ is, ¬k.Contains n := by
      intro k mem within
      obtain ⟨h, l, hi, lo, gap⟩ := reaches_eq_false_iff.1 (later k mem).apart
      have above := within.1 l lo
      have below := near h hi
      omega
    by_cases room : ∃ l ∈ i.lo, Possible nonneg (l - 1)
    · obtain ⟨l, lo, possible⟩ := room
      refine ⟨l - 1, possible, List.forall_mem_cons.2 ⟨fun within => ?_, before _ ?_⟩⟩
      · have above := within.1 l lo
        omega
      · intro h hi
        have nonempty := first.nonempty
        simp only [isEmpty, Option.mem_def.1 lo, Option.mem_def.1 hi,
          decide_eq_false_iff_not] at nonempty
        omega
    · cases hi : i.hi with
      | none =>
        -- The range would be all that is possible.
        refine absurd ?_ (Bool.eq_false_iff.1 notWhole)
        simp only [isWhole, hi, Option.isNone_none, Bool.true_and, Option.all_eq_true,
          Bool.and_eq_true, decide_eq_true_eq]
        intro l lo
        by_contra other
        refine room ⟨l, lo, fun isNonneg => ?_⟩
        obtain ⟨l', lo', known⟩ := first.known isNonneg
        have same : l' = l := Option.some.inj (lo'.symm.trans lo)
        have nonzero : l ≠ 0 := fun zero => other ⟨isNonneg, zero⟩
        show 0 ≤ l - 1
        omega
      | some h =>
        refine ⟨h + 1, fun isNonneg => ?_, List.forall_mem_cons.2 ⟨fun within => ?_, before _ ?_⟩⟩
        · obtain ⟨l, lo, zero⟩ := first.known isNonneg
          have nonempty := first.nonempty
          simp only [isEmpty, lo, hi, decide_eq_false_iff_not] at nonempty
          omega
        · have below := within.2 h hi
          omega
        · intro h' hi'
          cases hi.symm.trans hi'
          exact le_refl _

end Interval

theorem exists_outside_joined
    (few : ¬(1 < (holes bs).length || nonneg && (holes bs).any (· < 0)) = true)
    (open' : ¬((holes bs).any (fun v => (joined nonneg bs).any (·.contains v)) ||
      (joined nonneg bs).any (·.isWhole nonneg)) = true) :
    ∃ n : Int, Possible nonneg n ∧ (∀ i ∈ joined nonneg bs, ¬i.Contains n) ∧
      ∀ v ∈ holes bs, n = v := by
  simp only [Bool.or_eq_true, Bool.and_eq_true, decide_eq_true_eq, List.any_eq_true, not_or,
    not_and, not_exists, not_lt] at few open'
  obtain ⟨atMostOne, nonnegative⟩ := few
  obtain ⟨uncovered, notWhole⟩ := open'
  match excluded : holes bs with
  | [] =>
    have proper : ∀ i ∈ joined nonneg bs, i.Proper nonneg := proper_joined
    obtain ⟨n, possible, outside⟩ := Interval.exists_outside proper pairwise_joined
      fun i mem => Bool.not_eq_true _ ▸ notWhole i mem
    exact ⟨n, possible, outside, nofun⟩
  | [v] =>
    rw [excluded] at uncovered nonnegative
    refine ⟨v, fun isNonneg => nonnegative isNonneg v (.head _), fun i mem within => ?_, by simp⟩
    exact uncovered v (.head _) i mem (Interval.contains_iff.2 within)
  | _ :: _ :: _ =>
    rw [excluded] at atMostOne
    simp at atMostOne

theorem exactly_unite (nonneg : Bool) (bs : List Bound) :
    (unite nonneg bs).Exactly nonneg (fun cs n => ∃ b ∈ cs, b.Admits n)
      fun n => ∃ b ∈ bs, b.Admits n := by
  refine .of_bounds (fun n possible => holds_unite possible bs) ?_ ?_
  · intro cs left
    have merged := isMerged_of_unite left
    obtain ⟨b, mem⟩ := List.exists_mem_of_ne_nil cs merged.nonempty
    obtain ⟨n, possible, admits⟩ := exists_admits_of_undecided (merged.undecided b mem)
    exact ⟨n, possible, b, mem, admits⟩
  · intro cs left
    have undecided := left
    rw [unite_eq] at undecided
    split at undecided
    · cases undecided
    split at undecided
    · cases undecided
    · next few open' =>
      obtain ⟨n, possible, outside, excluded⟩ := exists_outside_joined few open'
      refine ⟨n, possible, fun holds => ?_⟩
      have admitted : ∃ b ∈ bs, b.Admits n := by
        rw [← holds_unite possible bs, left]
        exact holds
      rcases (exists_admits_iff possible bs).1 admitted with within | ⟨v, hole, other⟩
      · obtain ⟨i, mem, within⟩ := (contains_joinIntervals _).2 within
        exact outside i mem within
      · exact other (excluded v hole)

/-- Of the integers that the polynomial can be, merged bounds leave exactly those that all the
bounds admit, or that one of them does; and merging answers that none is left, or that all are,
exactly where that is so. -/
theorem merged_exactly (nonneg : Bool) (bs : List Bound) :
    (∀ n : Int, (nonneg = true → 0 ≤ n) →
      ((intersect nonneg bs).Holds (fun cs => ∀ b ∈ cs, b.Admits n) ↔ ∀ b ∈ bs, b.Admits n) ∧
      ((unite nonneg bs).Holds (fun cs => ∃ b ∈ cs, b.Admits n) ↔ ∃ b ∈ bs, b.Admits n)) ∧
    (intersect nonneg bs = .never ↔
      ∀ n : Int, (nonneg = true → 0 ≤ n) → ¬∀ b ∈ bs, b.Admits n) ∧
    (intersect nonneg bs = .always ↔
      ∀ n : Int, (nonneg = true → 0 ≤ n) → ∀ b ∈ bs, b.Admits n) ∧
    (unite nonneg bs = .never ↔
      ∀ n : Int, (nonneg = true → 0 ≤ n) → ¬∃ b ∈ bs, b.Admits n) ∧
    (unite nonneg bs = .always ↔
      ∀ n : Int, (nonneg = true → 0 ≤ n) → ∃ b ∈ bs, b.Admits n) := by
  have all := exactly_intersect nonneg bs
  have one := exactly_unite nonneg bs
  exact ⟨fun n possible => ⟨all.same n possible, one.same n possible⟩,
    all.never, all.always, one.never, one.always⟩

/-- Two holes use up a range that starts at the known zero; with one integer more it is left. -/
theorem merged_exactly_eaten :
    intersect true [.range none (some 1), .ne 1, .ne 0] = .never ∧
      ((0 : Int) ≤ 2 ∧
        (intersect true [.range none (some 2), .ne 1, .ne 0]).Holds
          fun cs => ∀ b ∈ cs, b.Admits (2 : Int)) := by
  refine ⟨(merged_exactly true _).2.1.2 fun n possible all => ?_, by decide, ?_⟩
  · have zero := possible rfl
    simp [admits_range] at all
    omega
  · refine ((merged_exactly true _).1 2 fun _ => by decide).1.2 ?_
    simp [Admits]

end Bound
end PredicateStrength
