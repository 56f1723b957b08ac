import Mathlib
import PredicateStrength.Formula.Merge
import PredicateStrength.Proofs.Formula.Constraint

/-!
# Merged bounds admit the same integers

Raising a lower end past the values that are excluded loses no integer that the bounds admit, and
it leaves the end at a value that is not excluded; so only excluded values strictly inside the
range are left to say. Intervals in ascending order are joined where no integer lies between them.

Main statements: the bounds that are left admit the integers that the given bounds admit, both
where all bounds are to hold (`Bound.holds_intersect`) and where one is (`Bound.holds_unite`).
-/
namespace PredicateStrength

/-- The integer is one that the merged bounds leave, joined as `combined` says. -/
def Merged.Holds (combined : List Bound → Prop) : Merged → Prop
  | .always => True
  | .never => False
  | .bounds bs => combined bs

namespace Bound

variable {n : Int} {nonneg : Bool} {bs : List Bound}

@[simp] theorem admits_ne {w : Int} : (ne w).Admits n ↔ n ≠ w := by simp [Admits]

namespace Interval

/-- The integer lies between the ends. -/
def Contains (i : Interval) (n : Int) : Prop := (∀ l ∈ i.lo, l ≤ n) ∧ ∀ h ∈ i.hi, n ≤ h

theorem contains_iff {i : Interval} : i.contains n = true ↔ i.Contains n := by
  obtain ⟨lo, hi⟩ := i
  cases lo <;> cases hi <;> simp [contains, Contains]

theorem not_contains_of_isEmpty {i : Interval} (empty : i.isEmpty = true) : ¬i.Contains n := by
  obtain ⟨lo, hi⟩ := i
  cases lo <;> cases hi <;> simp [isEmpty, Contains] at empty ⊢
  omega

end Interval

theorem admits_range_iff {lo hi : Option Int} :
    (range lo hi).Admits n ↔ Interval.Contains ⟨lo, hi⟩ n := admits_range

theorem effectiveLo_le (known : nonneg = true → 0 ≤ n) (lo : Option Int) :
    (∀ l ∈ effectiveLo nonneg lo, l ≤ n) ↔ ∀ l ∈ lo, l ≤ n := by
  cases nonneg <;> cases lo <;> simp [effectiveLo] at known ⊢
  all_goals omega

theorem visibleLo_le (known : nonneg = true → 0 ≤ n) (lo : Option Int) :
    (∀ l ∈ visibleLo nonneg lo, l ≤ n) ↔ ∀ l ∈ lo, l ≤ n := by
  cases lo with
  | none => simp [visibleLo]
  | some l =>
    cases nonneg with
    | false => simp [visibleLo]
    | true =>
      simp [visibleLo] at known ⊢
      omega

theorem mem_holes {v : Int} : v ∈ holes bs ↔ ne v ∈ bs := by
  rw [holes, Sorting.mem_sortDistinct, List.mem_filterMap]
  constructor
  · rintro ⟨b, mem, same⟩
    cases b with
    | range lo hi => cases same
    | ne w =>
      cases same
      exact mem
  · exact fun mem => ⟨ne v, mem, rfl⟩

theorem holes_ascending (bs : List Bound) : (holes bs).Pairwise (· < ·) := by
  refine (Sorting.sortDistinct_strictlyAscending compare _).imp fun h => ?_
  exact compare_lt_iff_lt.1 h

theorem contains_tighten {i : Interval} {lo hi : Option Int} :
    Interval.Contains ⟨tightenEnd max i.lo lo, tightenEnd min i.hi hi⟩ n ↔
      i.Contains n ∧ Interval.Contains ⟨lo, hi⟩ n := by
  obtain ⟨lo', hi'⟩ := i
  cases lo <;> cases lo' <;> cases hi <;> cases hi' <;> simp [tightenEnd, Interval.Contains]
  all_goals omega

/-- Both ends of the interval so far tighten with every range. -/
theorem contains_foldl_tighten (bs : List Bound) (i : Interval) :
    (bs.foldl
      (fun i b =>
        match b with
        | .range lo hi => ⟨tightenEnd max i.lo lo, tightenEnd min i.hi hi⟩
        | .ne _ => i) i).Contains n ↔
      i.Contains n ∧ ∀ lo hi, range lo hi ∈ bs → (range lo hi).Admits n := by
  induction bs generalizing i with
  | nil => simp
  | cons b bs ih =>
    rw [List.foldl_cons, ih]
    cases b with
    | range lo hi =>
      simp only [contains_tighten, List.mem_cons, range.injEq, and_assoc, admits_range_iff]
      constructor
      · rintro ⟨before, here, after⟩
        refine ⟨before, fun lo' hi' mem => ?_⟩
        rcases mem with ⟨rfl, rfl⟩ | mem
        · exact here
        · exact after lo' hi' mem
      · rintro ⟨before, all⟩
        exact ⟨before, all lo hi (.inl ⟨rfl, rfl⟩), fun lo' hi' mem => all lo' hi' (.inr mem)⟩
    | ne w => simp

theorem contains_commonInterval (bs : List Bound) :
    (commonInterval bs).Contains n ↔ ∀ lo hi, range lo hi ∈ bs → (range lo hi).Admits n := by
  refine (contains_foldl_tighten bs ⟨none, none⟩).trans ?_
  simp [Interval.Contains]

theorem forall_admits_iff (bs : List Bound) :
    (∀ b ∈ bs, b.Admits n) ↔ (commonInterval bs).Contains n ∧ n ∉ holes bs := by
  rw [contains_commonInterval, mem_holes]
  constructor
  · intro all
    exact ⟨fun lo hi mem => all _ mem, fun mem => admits_ne.1 (all _ mem) rfl⟩
  · rintro ⟨ranges, outside⟩ b mem
    cases b with
    | range lo hi => exact ranges lo hi mem
    | ne w => exact admits_ne.2 fun same => outside (same ▸ mem)

variable {hs : List Int}

theorem le_foldl_raise (hs : List Int) (l : Int) :
    l ≤ hs.foldl (fun l v => if v = l then l + 1 else l) l := by
  induction hs generalizing l with
  | nil => exact le_refl l
  | cons v hs ih =>
    rw [List.foldl_cons]
    have step : l ≤ if v = l then l + 1 else l := by split <;> omega
    exact step.trans (ih _)

theorem foldl_raise_le (outside : n ∉ hs) (l : Int) :
    hs.foldl (fun l v => if v = l then l + 1 else l) l ≤ n ↔ l ≤ n := by
  induction hs generalizing l with
  | nil => rfl
  | cons v hs ih =>
    rw [List.mem_cons, not_or] at outside
    rw [List.foldl_cons, ih outside.2]
    have other := outside.1
    split <;> omega

theorem foldl_raise_of_lt {l : Int} (below : ∀ v ∈ hs, l < v) :
    hs.foldl (fun l v => if v = l then l + 1 else l) l = l := by
  induction hs with
  | nil => rfl
  | cons v hs ih =>
    have first := below v (.head _)
    rw [List.foldl_cons, if_neg (by omega)]
    exact ih fun w mem => below w (.tail _ mem)

theorem foldl_raise_not_mem (ascending : hs.Pairwise (· < ·)) (l : Int) :
    hs.foldl (fun l v => if v = l then l + 1 else l) l ∉ hs := by
  induction hs generalizing l with
  | nil => simp
  | cons v hs ih =>
    obtain ⟨above, rest⟩ := List.pairwise_cons.1 ascending
    rw [List.foldl_cons, List.mem_cons, not_or]
    refine ⟨?_, ih rest _⟩
    have raised := le_foldl_raise hs (if v = l then l + 1 else l)
    rcases lt_or_ge l v with below | notBelow
    · -- the end never reaches this hole, let alone a later one
      rw [if_neg (by omega), foldl_raise_of_lt fun w mem => below.trans (above w mem)]
      omega
    · have past : v < if v = l then l + 1 else l := by split <;> omega
      omega

theorem foldr_lower_le (outside : n ∉ hs) (h : Int) :
    n ≤ hs.foldr (fun v h => if v = h then h - 1 else h) h ↔ n ≤ h := by
  induction hs with
  | nil => rfl
  | cons v hs ih =>
    rw [List.mem_cons, not_or] at outside
    rw [← ih outside.2, List.foldr_cons]
    have other := outside.1
    split <;> omega

theorem foldr_lower_of_gt {h : Int} (above : ∀ v ∈ hs, v < h) :
    hs.foldr (fun v h => if v = h then h - 1 else h) h = h := by
  induction hs with
  | nil => rfl
  | cons v hs ih =>
    have first := above v (.head _)
    rw [List.foldr_cons, ih fun w mem => above w (.tail _ mem), if_neg (by omega)]

theorem foldr_lower_not_mem (ascending : hs.Pairwise (· < ·)) (h : Int) :
    hs.foldr (fun v h => if v = h then h - 1 else h) h ∉ hs := by
  induction hs with
  | nil => simp
  | cons v hs ih =>
    obtain ⟨above, rest⟩ := List.pairwise_cons.1 ascending
    rw [List.foldr_cons, List.mem_cons, not_or]
    split
    · next met =>
      refine ⟨by omega, fun mem => ?_⟩
      have later := above _ mem
      omega
    · next missed => exact ⟨fun same => missed same.symm, ih rest⟩

/-- The ends moved past the holes leave the same integers, if those that are holes do not count. -/
theorem contains_moved (outside : n ∉ hs) (lo hi : Option Int) :
    Interval.Contains ⟨raiseLo hs lo, lowerHi hs hi⟩ n ↔ Interval.Contains ⟨lo, hi⟩ n := by
  cases lo <;> cases hi <;>
    simp [Interval.Contains, raiseLo, lowerHi, foldl_raise_le outside, foldr_lower_le outside]

/-- No hole that lies between the moved ends is one of them. -/
theorem containsInside_moved (ascending : hs.Pairwise (· < ·)) {lo hi : Option Int}
    (mem : n ∈ hs) (within : Interval.Contains ⟨raiseLo hs lo, lowerHi hs hi⟩ n) :
    Interval.containsInside ⟨raiseLo hs lo, lowerHi hs hi⟩ n = true := by
  obtain ⟨above, below⟩ := within
  simp only [Interval.containsInside, Bool.and_eq_true, Option.all_eq_true, decide_eq_true_eq]
  constructor
  · intro l atLo
    refine lt_of_le_of_ne (above l atLo) ?_
    rintro rfl
    obtain ⟨start, -, rfl⟩ := Option.map_eq_some_iff.1 atLo
    exact foldl_raise_not_mem ascending start mem
  · intro h atHi
    refine lt_of_le_of_ne (below h atHi) ?_
    rintro rfl
    obtain ⟨start, -, rfl⟩ := Option.map_eq_some_iff.1 atHi
    exact foldr_lower_not_mem ascending start mem

/-- The ends that bounds come to together. -/
def ends (nonneg : Bool) (bs : List Bound) : Interval :=
  ⟨raiseLo (holes bs) (effectiveLo nonneg (commonInterval bs).lo),
    lowerHi (holes bs) (commonInterval bs).hi⟩

/-- The bounds that say no less. -/
def together (nonneg : Bool) (bs : List Bound) : List Bound :=
  (if (visibleLo nonneg (ends nonneg bs).lo).isSome || (ends nonneg bs).hi.isSome then
    [range (visibleLo nonneg (ends nonneg bs).lo) (ends nonneg bs).hi] else []) ++
  ((holes bs).filter (ends nonneg bs).containsInside).map ne

theorem intersect_eq (nonneg : Bool) (bs : List Bound) :
    intersect nonneg bs =
      if (ends nonneg bs).isEmpty then .never
      else
        match together nonneg bs with
        | [] => .always
        | bs => .bounds bs := rfl

theorem contains_ends (known : nonneg = true → 0 ≤ n) (outside : n ∉ holes bs) :
    (ends nonneg bs).Contains n ↔ (commonInterval bs).Contains n := by
  refine (contains_moved outside _ _).trans ?_
  exact and_congr_left' (effectiveLo_le known _)

theorem forall_admits_range (known : nonneg = true → 0 ≤ n) (i : Interval) :
    (∀ b ∈ if (visibleLo nonneg i.lo).isSome || i.hi.isSome then
        [range (visibleLo nonneg i.lo) i.hi] else [], b.Admits n) ↔ i.Contains n := by
  have shown : Interval.Contains ⟨visibleLo nonneg i.lo, i.hi⟩ n ↔ i.Contains n :=
    and_congr_left' (visibleLo_le known i.lo)
  rw [← shown]
  split
  · simp [admits_range_iff]
  · next unbounded =>
    simp only [Bool.or_eq_true, not_or, Bool.not_eq_true, Option.isSome_eq_false_iff,
      Option.isNone_iff_eq_none] at unbounded
    simp [unbounded, Interval.Contains]

theorem forall_together (known : nonneg = true → 0 ≤ n) :
    (∀ b ∈ together nonneg bs, b.Admits n) ↔ (ends nonneg bs).Contains n ∧ n ∉ holes bs := by
  rw [together, List.forall_mem_append, forall_admits_range known]
  refine and_congr_right fun within => ?_
  constructor
  · intro distinct mem
    have inside : n ∈ (holes bs).filter (ends nonneg bs).containsInside :=
      List.mem_filter.2 ⟨mem, containsInside_moved (holes_ascending bs) mem within⟩
    exact admits_ne.1 (distinct _ (List.mem_map_of_mem inside)) rfl
  · intro outside b mem
    obtain ⟨w, hole, rfl⟩ := List.mem_map.1 mem
    exact admits_ne.2 fun same => outside (same ▸ List.mem_of_mem_filter hole)

/-- Bounds that hold together leave the integers that all of them admit. -/
theorem holds_intersect (known : nonneg = true → 0 ≤ n) (bs : List Bound) :
    (intersect nonneg bs).Holds (fun bs => ∀ b ∈ bs, b.Admits n) ↔ ∀ b ∈ bs, b.Admits n := by
  have same : (∀ b ∈ bs, b.Admits n) ↔ ∀ b ∈ together nonneg bs, b.Admits n := by
    rw [forall_admits_iff, forall_together known]
    exact and_congr_left fun outside => (contains_ends known outside).symm
  rw [same, intersect_eq]
  split
  · next empty =>
    rw [forall_together known]
    exact iff_of_false not_false fun both => Interval.not_contains_of_isEmpty empty both.1
  · split
    · next none =>
      rw [none]
      simp [Merged.Holds]
    · rfl

theorem mem_nonemptyIntervals (known : nonneg = true → 0 ≤ n) :
    (∃ i ∈ nonemptyIntervals nonneg bs, i.Contains n) ↔
      ∃ lo hi, range lo hi ∈ bs ∧ (range lo hi).Admits n := by
  have effective (lo hi : Option Int) :
      Interval.Contains ⟨effectiveLo nonneg lo, hi⟩ n ↔ (range lo hi).Admits n := by
    rw [admits_range_iff]
    exact and_congr_left' (effectiveLo_le known lo)
  constructor
  · rintro ⟨i, mem, within⟩
    obtain ⟨b, hb, kept⟩ := List.mem_filterMap.1 mem
    cases b with
    | range lo hi =>
      dsimp only at kept
      split at kept
      · cases kept
      · cases kept
        exact ⟨lo, hi, hb, (effective lo hi).1 within⟩
    | ne w => cases kept
  · rintro ⟨lo, hi, mem, admits⟩
    have within := (effective lo hi).2 admits
    refine ⟨⟨effectiveLo nonneg lo, hi⟩, List.mem_filterMap.2 ⟨_, mem, ?_⟩, within⟩
    dsimp only
    rw [if_neg fun empty => Interval.not_contains_of_isEmpty empty within]

theorem exists_admits_iff (known : nonneg = true → 0 ≤ n) (bs : List Bound) :
    (∃ b ∈ bs, b.Admits n) ↔
      (∃ i ∈ nonemptyIntervals nonneg bs, i.Contains n) ∨ ∃ v ∈ holes bs, n ≠ v := by
  rw [mem_nonemptyIntervals known]
  constructor
  · rintro ⟨b, mem, admits⟩
    cases b with
    | range lo hi => exact .inl ⟨lo, hi, mem, admits⟩
    | ne w => exact .inr ⟨w, mem_holes.2 mem, admits_ne.1 admits⟩
  · rintro (⟨lo, hi, mem, admits⟩ | ⟨v, mem, other⟩)
    · exact ⟨_, mem, admits⟩
    · exact ⟨_, mem_holes.1 mem, admits_ne.2 other⟩

namespace Interval

theorem cmp_eq_iff (i j : Interval) : i.cmp j = .eq ↔ i = j := by
  obtain ⟨lo, hi⟩ := i
  obtain ⟨lo', hi'⟩ := j
  simp [cmp, Ordering.then_eq_eq]

theorem cmp_swap (i j : Interval) : (i.cmp j).swap = j.cmp i := by
  simp [cmp, Ordering.swap_then, endCmp_swap]

theorem cmp_lt_trans {i j k : Interval} (hij : i.cmp j = .lt) (hjk : j.cmp k = .lt) :
    i.cmp k = .lt :=
  Sorting.then_lt_trans endCmp_eq_iff hij hjk endCmp_lt_trans endCmp_lt_trans

instance : Std.TransCmp cmp :=
  Sorting.transCmp_of_lt_trans cmp_eq_iff cmp_swap fun _ _ _ => cmp_lt_trans

instance : Std.LawfulEqCmp cmp where
  compare_self := (cmp_eq_iff _ _).2 rfl
  eq_of_compare := (cmp_eq_iff _ _).1

theorem lo_le_of_cmp {i j : Interval} (h : (i.cmp j).isLE) : ∀ l ∈ i.lo, ∃ l' ∈ j.lo, l ≤ l' := by
  obtain ⟨lo, hi⟩ := i
  obtain ⟨lo', hi'⟩ := j
  rintro l ⟨⟩
  cases lo' with
  | none => simp [cmp, endCmp] at h
  | some l' =>
    refine ⟨l', rfl, ?_⟩
    by_contra above
    have greater : compare l l' = .gt := by
      rw [compare_gt_iff_gt]
      omega
    simp [cmp, endCmp, greater] at h

/-- Where the second interval starts no earlier and the first one reaches it, the two together are
one interval. -/
theorem contains_joined {i j : Interval} (after : ∀ l ∈ i.lo, ∃ l' ∈ j.lo, l ≤ l')
    (reached : i.reaches j = true) :
    Contains ⟨i.lo, laterHi i.hi j.hi⟩ n ↔ i.Contains n ∨ j.Contains n := by
  obtain ⟨lo, hi⟩ := i
  obtain ⟨lo', hi'⟩ := j
  cases lo <;> cases lo' <;> cases hi <;> cases hi' <;>
    simp [reaches, laterHi, Contains] at after reached ⊢
  all_goals omega

end Interval

theorem contains_joinFrom {i : Interval} {js : List Interval}
    (ascending : (i :: js).Pairwise fun i j => ∀ l ∈ i.lo, ∃ l' ∈ j.lo, l ≤ l') :
    (∃ k ∈ joinFrom i js, k.Contains n) ↔ ∃ k ∈ i :: js, k.Contains n := by
  induction js generalizing i with
  | nil => rfl
  | cons j js ih =>
    obtain ⟨first, rest⟩ := List.pairwise_cons.1 ascending
    rw [joinFrom]
    split
    · next reaches =>
      have joined : ∀ k ∈ js, ∀ l ∈ i.lo, ∃ l' ∈ k.lo, l ≤ l' := fun k mem =>
        first k (.tail _ mem)
      refine (ih (i := ⟨i.lo, laterHi i.hi j.hi⟩)
        (List.pairwise_cons.2 ⟨joined, (List.pairwise_cons.1 rest).2⟩)).trans ?_
      simp only [List.exists_mem_cons_iff, Interval.contains_joined (first j (.head _)) reaches,
        or_assoc]
    · simp only [List.exists_mem_cons_iff, ih rest]

/-- Joining keeps the integers that the ranges admit. -/
theorem contains_joinIntervals (is : List Interval) :
    (∃ k ∈ joinIntervals (Sorting.sort Interval.cmp is), k.Contains n) ↔
      ∃ i ∈ is, i.Contains n := by
  have ascending := (Sorting.sort_ascending Interval.cmp is).imp fun h => Interval.lo_le_of_cmp h
  have same : (∃ i ∈ Sorting.sort Interval.cmp is, i.Contains n) ↔ ∃ i ∈ is, i.Contains n := by
    simp only [Sorting.mem_sort]
  rw [← same]
  cases sorted : Sorting.sort Interval.cmp is with
  | nil => rfl
  | cons i js => exact contains_joinFrom (sorted ▸ ascending)

theorem contains_of_isWhole (known : nonneg = true → 0 ≤ n) {i : Interval}
    (whole : i.isWhole nonneg = true) : i.Contains n := by
  obtain ⟨lo, hi⟩ := i
  cases lo <;> cases hi <;> cases nonneg <;>
    simp [Interval.isWhole, Interval.Contains] at known whole ⊢
  omega

/-- The ranges of some bounds, joined. -/
def joined (nonneg : Bool) (bs : List Bound) : List Interval :=
  joinIntervals (Sorting.sort Interval.cmp (nonemptyIntervals nonneg bs))

theorem unite_eq (nonneg : Bool) (bs : List Bound) :
    unite nonneg bs =
      if 1 < (holes bs).length || nonneg && (holes bs).any (· < 0) then .always
      else if (holes bs).any (fun v => (joined nonneg bs).any (·.contains v)) ||
          (joined nonneg bs).any (·.isWhole nonneg) then .always
      else
        match (joined nonneg bs).map (fun i => .range (visibleLo nonneg i.lo) i.hi) ++
            (holes bs).map ne with
        | [] => .never
        | bs => .bounds bs := rfl

/-- Two holes are not both the integer, and a negative one is not if the integer is none. -/
theorem exists_hole_ne (known : nonneg = true → 0 ≤ n)
    (many : (1 < (holes bs).length || nonneg && (holes bs).any (· < 0)) = true) :
    ∃ v ∈ holes bs, n ≠ v := by
  rw [Bool.or_eq_true, Bool.and_eq_true, decide_eq_true_eq, List.any_eq_true] at many
  rcases many with two | ⟨nonneg, v, mem, negative⟩
  · have ascending := holes_ascending bs
    match holes bs, ascending, two with
    | v :: w :: _, ascending, _ =>
      have below := (List.pairwise_cons.1 ascending).1 w (.head _)
      rcases eq_or_ne n v with rfl | other
      · exact ⟨w, .tail _ (.head _), below.ne⟩
      · exact ⟨v, .head _, other⟩
  · have zero := known nonneg
    rw [decide_eq_true_eq] at negative
    exact ⟨v, mem, by omega⟩

/-- Bounds one of which holds leave the integers that one of them admits. -/
theorem holds_unite (known : nonneg = true → 0 ≤ n) (bs : List Bound) :
    (unite nonneg bs).Holds (fun bs => ∃ b ∈ bs, b.Admits n) ↔ ∃ b ∈ bs, b.Admits n := by
  have same : (∃ b ∈ bs, b.Admits n) ↔
      (∃ i ∈ joined nonneg bs, i.Contains n) ∨ ∃ v ∈ holes bs, n ≠ v := by
    rw [exists_admits_iff known, joined, contains_joinIntervals]
  rw [same, unite_eq]
  split
  · next many => exact iff_of_true trivial (.inr (exists_hole_ne known many))
  split
  · next covered =>
    refine iff_of_true trivial ?_
    rw [Bool.or_eq_true, List.any_eq_true, List.any_eq_true] at covered
    rcases covered with ⟨v, hole, covered⟩ | ⟨i, mem, whole⟩
    · obtain ⟨i, mem, contains⟩ := List.any_eq_true.1 covered
      rcases eq_or_ne n v with rfl | other
      · exact .inl ⟨i, mem, Interval.contains_iff.1 contains⟩
      · exact .inr ⟨v, hole, other⟩
    · exact .inl ⟨i, mem, contains_of_isWhole known whole⟩
  · have listed : (∃ b ∈ (joined nonneg bs).map (fun i => range (visibleLo nonneg i.lo) i.hi) ++
          (holes bs).map ne, b.Admits n) ↔
        (∃ i ∈ joined nonneg bs, i.Contains n) ∨ ∃ v ∈ holes bs, n ≠ v := by
      have shown (i : Interval) : (range (visibleLo nonneg i.lo) i.hi).Admits n ↔ i.Contains n :=
        admits_range_iff.trans (and_congr_left' (visibleLo_le known i.lo))
      simp only [List.mem_append, List.mem_map, or_and_right, exists_or, exists_exists_and_eq_and,
        shown, admits_ne]
    rw [← listed]
    split
    · next none =>
      rw [none]
      simp [Merged.Holds]
    · rfl

end Bound
end PredicateStrength
