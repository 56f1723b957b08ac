import Mathlib
import PredicateStrength.Formula.Simplify
import PredicateStrength.Proofs.Formula.Merge

/-!
# Merged bounds are merged for good

What merging leaves is in ascending order, no bound of it is true or false of all values, and
merging it again gives the same bounds. For that, the ends of what is left have to be those that
the next merge works with: a lower end that is not shown, because the polynomial is known to be at
least zero, is found again.

Main statement: `Junction.isMerged_of_merge`.
-/
namespace PredicateStrength

/-- The bounds are what merging leaves of them. -/
structure Junction.IsMerged (j : Junction) (nonneg : Bool) (bs : List Bound) : Prop where
  nonempty : bs ≠ []
  ascending : Sorting.StrictlyAscending Bound.cmp bs
  undecided : ∀ b ∈ bs, b.decide? nonneg = none
  fixed : j.merge nonneg bs = .bounds bs

namespace Bound

variable {nonneg : Bool} {bs : List Bound}

/-- The interval has a value, and its lower end is not below what is known. -/
structure Interval.Proper (nonneg : Bool) (i : Interval) : Prop where
  nonempty : i.isEmpty = false
  known : nonneg = true → ∃ l, i.lo = some l ∧ 0 ≤ l

/-- The range that stands for an interval. -/
def shown (nonneg : Bool) (i : Interval) : Bound := .range (visibleLo nonneg i.lo) i.hi

theorem Interval.isEmpty_joined {i : Interval} (nonempty : i.isEmpty = false) (j : Interval) :
    isEmpty ⟨i.lo, laterHi i.hi j.hi⟩ = false := by
  obtain ⟨lo, hi⟩ := i
  obtain ⟨lo', hi'⟩ := j
  cases lo <;> cases hi <;> cases hi' <;> simp [isEmpty, laterHi] at nonempty ⊢
  omega

theorem known_effectiveLo (lo : Option Int) :
    nonneg = true → ∃ l, effectiveLo nonneg lo = some l ∧ 0 ≤ l := by
  rintro rfl
  cases lo <;> simp [effectiveLo]

namespace Interval.Proper

variable {i j : Interval}

theorem effectiveLo_visibleLo (proper : i.Proper nonneg) :
    effectiveLo nonneg (visibleLo nonneg i.lo) = i.lo := by
  cases nonneg with
  | false => cases i.lo <;> rfl
  | true =>
    obtain ⟨l, lo, zero⟩ := proper.known rfl
    rw [lo, visibleLo]
    rcases eq_or_lt_of_le zero with rfl | positive
    · rfl
    · simp [effectiveLo, Option.filter, positive, zero]

/-- A range that leaves out some value is not decided by its ends. -/
theorem decide?_shown (proper : i.Proper nonneg) (whole : i.isWhole nonneg = false) :
    (shown nonneg i).decide? nonneg = none := by
  have found := proper.effectiveLo_visibleLo
  have nonempty := proper.nonempty
  have known := proper.known
  obtain ⟨lo, hi⟩ := i
  simp only at found
  unfold shown decide?
  simp only [found]
  cases lo <;> cases hi <;> cases nonneg <;>
    simp [isEmpty, isWhole, visibleLo] at nonempty known whole ⊢ <;> grind

theorem joined (first : i.Proper nonneg) (j : Interval) :
    Interval.Proper nonneg ⟨i.lo, laterHi i.hi j.hi⟩ where
  nonempty := isEmpty_joined first.nonempty j
  known := first.known

end Interval.Proper

theorem holes_append_ne {rs : List Bound} (ranges : ∀ b ∈ rs, ∀ v, b ≠ ne v) {vs : List Int}
    (ascending : vs.Pairwise (· < ·)) : holes (rs ++ vs.map ne) = vs := by
  refine (holes_ascending _).eq_of_mem_iff ascending fun v => ?_
  rw [mem_holes, List.mem_append, or_iff_right fun mem => ranges _ mem v rfl]
  simp

/-- The interval less some values, as bounds. -/
def lessHoles (nonneg : Bool) (i : Interval) (vs : List Int) : List Bound :=
  (if (visibleLo nonneg i.lo).isSome || i.hi.isSome then [shown nonneg i] else []) ++ vs.map ne

section LessHoles

variable {i : Interval} {vs : List Int}

theorem commonInterval_lessHoles :
    commonInterval (lessHoles nonneg i vs) = ⟨visibleLo nonneg i.lo, i.hi⟩ := by
  have ranges : commonInterval (lessHoles nonneg i vs) = commonInterval
      (if (visibleLo nonneg i.lo).isSome || i.hi.isSome then [shown nonneg i] else []) := by
    rw [commonInterval, lessHoles, List.foldl_append, List.foldl_map, List.foldl_fixed]
    rfl
  rw [ranges]
  split
  · show Interval.mk (tightenEnd max none _) (tightenEnd min none _) = _
    cases visibleLo nonneg i.lo <;> cases i.hi <;> rfl
  · next unbounded =>
    simp only [Bool.or_eq_true, not_or, Bool.not_eq_true, Option.isSome_eq_false_iff,
      Option.isNone_iff_eq_none] at unbounded
    rw [unbounded.1, unbounded.2]
    rfl

theorem holes_lessHoles (ascending : vs.Pairwise (· < ·)) : holes (lessHoles nonneg i vs) = vs := by
  refine holes_append_ne (fun b mem v => ?_) ascending
  split at mem
  · cases List.mem_singleton.1 mem
    exact Bound.noConfusion
  · cases mem

theorem raiseLo_of_inside (inside : ∀ v ∈ vs, i.containsInside v = true) :
    raiseLo vs i.lo = i.lo := by
  obtain ⟨lo, hi⟩ := i
  cases lo with
  | none => rfl
  | some l =>
    refine congrArg some (foldl_raise_of_lt fun v mem => ?_)
    have strictly := inside v mem
    simp only [Interval.containsInside, Bool.and_eq_true, Option.all_some,
      decide_eq_true_eq] at strictly
    exact strictly.1

theorem lowerHi_of_inside (inside : ∀ v ∈ vs, i.containsInside v = true) :
    lowerHi vs i.hi = i.hi := by
  obtain ⟨lo, hi⟩ := i
  cases hi with
  | none => rfl
  | some h =>
    refine congrArg some (foldr_lower_of_gt fun v mem => ?_)
    have strictly := inside v mem
    simp only [Interval.containsInside, Bool.and_eq_true, Option.all_some,
      decide_eq_true_eq] at strictly
    exact strictly.2

theorem ends_lessHoles (proper : i.Proper nonneg) (ascending : vs.Pairwise (· < ·))
    (inside : ∀ v ∈ vs, i.containsInside v = true) : ends nonneg (lessHoles nonneg i vs) = i := by
  rw [ends, holes_lessHoles ascending, commonInterval_lessHoles, proper.effectiveLo_visibleLo,
    raiseLo_of_inside inside, lowerHi_of_inside inside]

theorem together_lessHoles (proper : i.Proper nonneg) (ascending : vs.Pairwise (· < ·))
    (inside : ∀ v ∈ vs, i.containsInside v = true) :
    together nonneg (lessHoles nonneg i vs) = lessHoles nonneg i vs := by
  rw [together, ends_lessHoles proper ascending inside, holes_lessHoles ascending,
    List.filter_eq_self.2 inside]
  rfl

theorem cmp_ne (v w : Int) : (ne v).cmp (ne w) = .lt ↔ v < w := compare_lt_iff_lt

theorem strictlyAscending_lessHoles (ascending : vs.Pairwise (· < ·)) :
    Sorting.StrictlyAscending cmp (lessHoles nonneg i vs) := by
  have holes : Sorting.StrictlyAscending cmp (vs.map ne) :=
    List.pairwise_map.2 (ascending.imp (cmp_ne _ _).2)
  rw [lessHoles]
  split
  · refine List.pairwise_cons.2 ⟨fun b mem => ?_, holes⟩
    obtain ⟨v, -, rfl⟩ := List.mem_map.1 mem
    rfl
  · exact holes

/-- No bound that is left is true or false of all values. -/
theorem decide?_lessHoles (proper : i.Proper nonneg)
    (inside : ∀ v ∈ vs, i.containsInside v = true) :
    ∀ b ∈ lessHoles nonneg i vs, b.decide? nonneg = none := by
  intro b mem
  rcases List.mem_append.1 mem with mem | mem
  · split at mem
    · next bounded =>
      cases List.mem_singleton.1 mem
      refine proper.decide?_shown ?_
      obtain ⟨lo, hi⟩ := i
      cases lo <;> cases hi <;> cases nonneg <;>
        simp [visibleLo, Option.filter, Interval.isWhole] at bounded ⊢
      omega
    · cases mem
  · obtain ⟨v, hole, rfl⟩ := List.mem_map.1 mem
    refine if_neg fun negative => ?_
    rw [Bool.and_eq_true, decide_eq_true_eq] at negative
    obtain ⟨l, lo, zero⟩ := proper.known negative.1
    have above := inside v hole
    simp only [Interval.containsInside, lo, Option.all_some, Bool.and_eq_true,
      decide_eq_true_eq] at above
    omega

end LessHoles

theorem proper_ends (nonempty : (ends nonneg bs).isEmpty = false) :
    (ends nonneg bs).Proper nonneg where
  nonempty := nonempty
  known isNonneg := by
    obtain ⟨l, lo, zero⟩ := known_effectiveLo (commonInterval bs).lo isNonneg
    exact ⟨_, by rw [ends, lo]; rfl, zero.trans (le_foldl_raise _ l)⟩

theorem isMerged_of_intersect {cs : List Bound} (h : intersect nonneg bs = .bounds cs) :
    Junction.all.IsMerged nonneg cs := by
  rw [intersect_eq] at h
  split at h
  · cases h
  · next nonempty =>
    rw [Bool.not_eq_true] at nonempty
    have proper := proper_ends nonempty
    have ascending := (holes_ascending bs).filter (ends nonneg bs).containsInside
    have inside : ∀ v ∈ (holes bs).filter (ends nonneg bs).containsInside,
        (ends nonneg bs).containsInside v = true := fun v mem => (List.mem_filter.1 mem).2
    have left : together nonneg bs = lessHoles nonneg (ends nonneg bs)
        ((holes bs).filter (ends nonneg bs).containsInside) := rfl
    rw [left] at h
    split at h
    · cases h
    · next bounded =>
      cases h
      refine ⟨bounded, strictlyAscending_lessHoles ascending, decide?_lessHoles proper inside, ?_⟩
      rw [Junction.merge, intersect_eq, ends_lessHoles proper ascending inside, nonempty,
        if_neg Bool.false_ne_true, together_lessHoles proper ascending inside]
      split
      · next none => exact absurd none bounded
      · rfl

namespace Interval

variable {i j k : Interval} {js : List Interval}

/-- Both intervals have values, and some integer lies between them. -/
structure Precedes (i j : Interval) : Prop where
  left : i.isEmpty = false
  right : j.isEmpty = false
  apart : i.reaches j = false

theorem reaches_eq_false_iff :
    i.reaches j = false ↔ ∃ h l, i.hi = some h ∧ j.lo = some l ∧ h + 1 < l := by
  obtain ⟨lo, hi⟩ := i
  obtain ⟨lo', hi'⟩ := j
  cases hi <;> cases lo' <;> simp [reaches]

theorem Precedes.trans (hij : i.Precedes j) (hjk : j.Precedes k) : i.Precedes k := by
  refine ⟨hij.left, hjk.right, reaches_eq_false_iff.2 ?_⟩
  obtain ⟨h, l, hi, lo, first⟩ := reaches_eq_false_iff.1 hij.apart
  obtain ⟨h', l', hi', lo', second⟩ := reaches_eq_false_iff.1 hjk.apart
  have between := hij.right
  simp only [isEmpty, lo, hi', decide_eq_false_iff_not] at between
  exact ⟨h, l', hi, lo', by omega⟩

theorem cmp_of_precedes (h : i.Precedes j) : i.cmp j = .lt := by
  obtain ⟨e, l, hi, lo, apart⟩ := reaches_eq_false_iff.1 h.apart
  have nonempty := h.left
  cases start : i.lo with
  | none => simp [cmp, endCmp, start, lo]
  | some l' =>
    simp only [isEmpty, start, hi, decide_eq_false_iff_not] at nonempty
    have below : compare l' l = .lt := compare_lt_iff_lt.2 (by omega)
    simp [cmp, endCmp, start, lo, below]

/-- What joining keeps of the intervals, the joined ones have. -/
theorem forall_joinFrom {P : Interval → Prop}
    (join : ∀ {i j}, P i → P j → P ⟨i.lo, laterHi i.hi j.hi⟩) (every : ∀ k ∈ i :: js, P k) :
    ∀ k ∈ joinFrom i js, P k := by
  induction js generalizing i with
  | nil => exact every
  | cons j js ih =>
    have first := every i (.head _)
    have rest : ∀ k ∈ j :: js, P k := fun k mem => every k (.tail _ mem)
    rw [joinFrom]
    split
    · refine ih fun k mem => ?_
      rcases List.mem_cons.1 mem with rfl | mem
      · exact join first (rest j (.head _))
      · exact rest k (.tail _ mem)
    · exact List.forall_mem_cons.2 ⟨first, ih rest⟩

theorem exists_joinFrom (i : Interval) (js : List Interval) :
    ∃ hi ks, joinFrom i js = ⟨i.lo, hi⟩ :: ks := by
  induction js generalizing i with
  | nil => exact ⟨i.hi, [], rfl⟩
  | cons j js ih =>
    rw [joinFrom]
    split
    · exact ih _
    · exact ⟨i.hi, _, rfl⟩

theorem pairwise_joinFrom (nonempty : ∀ k ∈ i :: js, k.isEmpty = false) :
    (joinFrom i js).Pairwise Precedes := by
  induction js generalizing i with
  | nil => exact List.pairwise_singleton _ _
  | cons j js ih =>
    have first := nonempty i (.head _)
    have rest : ∀ k ∈ j :: js, k.isEmpty = false := fun k mem => nonempty k (.tail _ mem)
    rw [joinFrom]
    split
    · refine ih fun k mem => ?_
      rcases List.mem_cons.1 mem with rfl | mem
      · exact isEmpty_joined first j
      · exact rest k (.tail _ mem)
    · next apart =>
      rw [Bool.not_eq_true] at apart
      have later := ih rest
      have nonempty := forall_joinFrom (fun h _ => isEmpty_joined h _) rest
      obtain ⟨hi, ks, eq⟩ := exists_joinFrom j js
      rw [eq] at later nonempty ⊢
      -- The first of the later intervals starts where `j` does.
      have next : i.Precedes ⟨j.lo, hi⟩ := ⟨first, nonempty _ (.head _), apart⟩
      refine List.pairwise_cons.2 ⟨fun k mem => ?_, later⟩
      rcases List.mem_cons.1 mem with rfl | mem
      · exact next
      · exact next.trans ((List.pairwise_cons.1 later).1 k mem)

theorem joinIntervals_of_pairwise {is : List Interval} (apart : is.Pairwise Precedes) :
    joinIntervals is = is := by
  induction is with
  | nil => rfl
  | cons i is ih =>
    cases is with
    | nil => rfl
    | cons j js =>
      obtain ⟨first, rest⟩ := List.pairwise_cons.1 apart
      have later : joinFrom j js = j :: js := ih rest
      rw [joinIntervals, joinFrom, (first j (.head _)).apart, if_neg Bool.false_ne_true, later]

end Interval

theorem proper_nonemptyIntervals : ∀ i ∈ nonemptyIntervals nonneg bs, i.Proper nonneg := by
  intro i mem
  obtain ⟨b, -, kept⟩ := List.mem_filterMap.1 mem
  cases b with
  | range lo hi =>
    dsimp only at kept
    split at kept
    · cases kept
    · next nonempty =>
      cases kept
      exact ⟨Bool.not_eq_true _ ▸ nonempty, known_effectiveLo lo⟩
  | ne v => cases kept

theorem proper_joined : ∀ i ∈ joined nonneg bs, i.Proper nonneg := by
  have proper : ∀ i ∈ Sorting.sort Interval.cmp (nonemptyIntervals nonneg bs), i.Proper nonneg :=
    fun i mem => proper_nonemptyIntervals i ((Sorting.mem_sort _).1 mem)
  rw [joined]
  cases sorted : Sorting.sort Interval.cmp (nonemptyIntervals nonneg bs) with
  | nil => simp [joinIntervals]
  | cons i js => exact Interval.forall_joinFrom (fun h _ => h.joined _) (sorted ▸ proper)

theorem pairwise_joined : (joined nonneg bs).Pairwise Interval.Precedes := by
  have nonempty : ∀ i ∈ Sorting.sort Interval.cmp (nonemptyIntervals nonneg bs),
      i.isEmpty = false :=
    fun i mem => (proper_nonemptyIntervals i ((Sorting.mem_sort _).1 mem)).nonempty
  rw [joined]
  cases sorted : Sorting.sort Interval.cmp (nonemptyIntervals nonneg bs) with
  | nil => exact .nil
  | cons i js => exact Interval.pairwise_joinFrom (sorted ▸ nonempty)

/-- Intervals and values that are left out, as bounds. -/
def apart (nonneg : Bool) (is : List Interval) (vs : List Int) : List Bound :=
  is.map (shown nonneg) ++ vs.map ne

section Apart

variable {is : List Interval} {vs : List Int}

theorem holes_apart (ascending : vs.Pairwise (· < ·)) : holes (apart nonneg is vs) = vs := by
  refine holes_append_ne (fun b mem v => ?_) ascending
  obtain ⟨i, -, rfl⟩ := List.mem_map.1 mem
  exact Bound.noConfusion

theorem nonemptyIntervals_apart (proper : ∀ i ∈ is, i.Proper nonneg) :
    nonemptyIntervals nonneg (apart nonneg is vs) = is := by
  have values : nonemptyIntervals nonneg (vs.map ne) = [] := by
    simp [nonemptyIntervals, List.filterMap_map]
  have ranges : nonemptyIntervals nonneg (is.map (shown nonneg)) = is := by
    rw [nonemptyIntervals, List.filterMap_map]
    refine (List.filterMap_congr fun i mem => ?_).trans List.filterMap_some
    have same : (⟨effectiveLo nonneg (visibleLo nonneg i.lo), i.hi⟩ : Interval) = i := by
      rw [(proper i mem).effectiveLo_visibleLo]
    simp only [Function.comp_apply, shown, same, (proper i mem).nonempty]
    rfl
  rw [nonemptyIntervals] at values ranges ⊢
  rw [apart, List.filterMap_append, ranges, values, List.append_nil]

theorem joined_apart (proper : ∀ i ∈ is, i.Proper nonneg)
    (separate : is.Pairwise Interval.Precedes) :
    joined nonneg (apart nonneg is vs) = is := by
  have ascending : Sorting.Ascending Interval.cmp is := separate.imp fun h => by
    rw [Interval.cmp_of_precedes h]
    rfl
  rw [joined, nonemptyIntervals_apart proper, Sorting.sort_of_ascending _ ascending,
    Interval.joinIntervals_of_pairwise separate]

/-- An interval behind another one starts above what is known, so its lower end is shown. -/
theorem visibleLo_of_precedes {i j : Interval} (proper : i.Proper nonneg) (before : i.Precedes j) :
    ∃ h l, i.hi = some h ∧ visibleLo nonneg j.lo = some l ∧ h + 1 < l := by
  obtain ⟨h, l, hi, lo, apart⟩ := Interval.reaches_eq_false_iff.1 before.apart
  refine ⟨h, l, hi, ?_, apart⟩
  rw [lo, visibleLo, Option.filter_eq_some_iff]
  refine ⟨rfl, Bool.not_eq_true' _ ▸ ?_⟩
  rw [Bool.and_eq_false_imp, decide_eq_false_iff_not]
  intro isNonneg
  obtain ⟨l', start, zero⟩ := proper.known isNonneg
  have below := before.left
  simp only [Interval.isEmpty, start, hi, decide_eq_false_iff_not, not_lt] at below
  omega

theorem cmp_shown {i j : Interval} (proper : i.Proper nonneg) (before : i.Precedes j) :
    (shown nonneg i).cmp (shown nonneg j) = .lt := by
  obtain ⟨h, l, hi, visible, apart⟩ := visibleLo_of_precedes proper before
  suffices lower : endCmp (visibleLo nonneg i.lo) (visibleLo nonneg j.lo) = .lt by
    rw [shown, shown, cmp, lower]
    rfl
  rw [visible]
  cases start : visibleLo nonneg i.lo with
  | none => rfl
  | some l' =>
    have nonempty := before.left
    simp only [Interval.isEmpty, (Option.filter_eq_some_iff.1 start).1, hi,
      decide_eq_false_iff_not, not_lt] at nonempty
    exact compare_lt_iff_lt.2 (by omega)

theorem strictlyAscending_apart (proper : ∀ i ∈ is, i.Proper nonneg)
    (separate : is.Pairwise Interval.Precedes) (ascending : vs.Pairwise (· < ·)) :
    Sorting.StrictlyAscending cmp (apart nonneg is vs) := by
  refine List.pairwise_append.2 ⟨?_, List.pairwise_map.2 (ascending.imp (cmp_ne _ _).2), ?_⟩
  · refine List.pairwise_map.2 (separate.imp_of_mem fun first _ before => ?_)
    exact cmp_shown (proper _ first) before
  · intro b mem b' mem'
    obtain ⟨i, -, rfl⟩ := List.mem_map.1 mem
    obtain ⟨v, -, rfl⟩ := List.mem_map.1 mem'
    rfl

end Apart

theorem isMerged_of_unite {cs : List Bound} (h : unite nonneg bs = .bounds cs) :
    Junction.any.IsMerged nonneg cs := by
  rw [unite_eq] at h
  split at h
  · cases h
  split at h
  · cases h
  · next few open' =>
    have left : (joined nonneg bs).map (fun i => range (visibleLo nonneg i.lo) i.hi) ++
        (holes bs).map ne = apart nonneg (joined nonneg bs) (holes bs) := rfl
    rw [left] at h
    split at h
    · cases h
    · next some =>
      cases h
      refine ⟨some, strictlyAscending_apart proper_joined pairwise_joined (holes_ascending bs), ?_, ?_⟩
      · intro b mem
        rcases List.mem_append.1 mem with mem | mem
        · obtain ⟨i, range, rfl⟩ := List.mem_map.1 mem
          refine (proper_joined i range).decide?_shown ?_
          by_contra whole
          rw [Bool.not_eq_false] at whole
          exact open' (Bool.or_eq_true_iff.2 (.inr (List.any_eq_true.2 ⟨i, range, whole⟩)))
        · obtain ⟨v, hole, rfl⟩ := List.mem_map.1 mem
          refine if_neg fun negative => few ?_
          rw [Bool.and_eq_true] at negative
          exact Bool.or_eq_true_iff.2 (.inr (Bool.and_eq_true_iff.2
            ⟨negative.1, List.any_eq_true.2 ⟨v, hole, negative.2⟩⟩))
      · rw [Junction.merge, unite_eq, holes_apart (holes_ascending bs),
          joined_apart proper_joined pairwise_joined, if_neg few, if_neg open', left]
        split
        · next none => exact absurd none some
        · rfl

end Bound

/-- What merging leaves of some bounds is merged. -/
theorem Junction.isMerged_of_merge {j : Junction} {nonneg : Bool} {bs cs : List Bound}
    (h : j.merge nonneg bs = .bounds cs) : j.IsMerged nonneg cs := by
  cases j with
  | all => exact Bound.isMerged_of_intersect h
  | any => exact Bound.isMerged_of_unite h

end PredicateStrength
