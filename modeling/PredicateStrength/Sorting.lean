/-!
Insertion sort by a three-way comparison, and its variant that keeps one of equal elements.

Main statements: sorting permutes its input; under a lawful comparison the result is ascending,
so two permutations of one another sort to the same list (`sort_eq_of_perm`), and an ascending
list is its own sort (`sort_of_ascending`).
-/
namespace PredicateStrength.Sorting

/-- A lexicographic comparison is strictly transitive if its two stages are and the first one
tells different elements apart. -/
theorem then_lt_trans {α : Type} {cmp : α → α → Ordering}
    (heq : ∀ a b, cmp a b = .eq ↔ a = b) {a b c : α} {d e f : Ordering}
    (hab : (cmp a b).then d = .lt) (hbc : (cmp b c).then e = .lt)
    (hlt : cmp a b = .lt → cmp b c = .lt → cmp a c = .lt)
    (hde : d = .lt → e = .lt → f = .lt) : (cmp a c).then f = .lt := by
  rcases Ordering.then_eq_lt.1 hab with h | ⟨h, hd⟩ <;>
    rcases Ordering.then_eq_lt.1 hbc with k | ⟨k, he⟩
  · exact Ordering.then_eq_lt.2 (.inl (hlt h k))
  · rw [heq] at k
    exact Ordering.then_eq_lt.2 (.inl (k ▸ h))
  · rw [heq] at h
    exact Ordering.then_eq_lt.2 (.inl (h ▸ k))
  · rw [heq] at h k
    subst h k
    exact Ordering.then_eq_lt.2 (.inr ⟨(heq a a).2 rfl, hde hd he⟩)

/-- A comparison that is strictly transitive and tells different elements apart is lawful. -/
theorem transCmp_of_lt_trans {α : Type} {cmp : α → α → Ordering}
    (heq : ∀ a b, cmp a b = .eq ↔ a = b) (hswap : ∀ a b, (cmp a b).swap = cmp b a)
    (hlt : ∀ a b c, cmp a b = .lt → cmp b c = .lt → cmp a c = .lt) : Std.TransCmp cmp where
  eq_swap {a b} := (hswap b a).symm
  isLE_trans {a b c} hab hbc := by
    cases h : cmp a b with
    | gt => simp [h] at hab
    | eq => exact (heq a b).1 h ▸ hbc
    | lt =>
      cases k : cmp b c with
      | gt => simp [k] at hbc
      | eq => exact (heq b c).1 k ▸ hab
      | lt => simp [hlt a b c h k]

variable {α : Type} (cmp : α → α → Ordering)

theorem eq_of_cmp_eq [Std.LawfulEqCmp cmp] {a b : α} (h : cmp a b = .eq) : a = b :=
  Std.LawfulEqCmp.eq_of_compare h

theorem isLE_of_not_isLE [Std.OrientedCmp cmp] {a b : α} (h : ¬(cmp a b).isLE) :
    (cmp b a).isLE := by
  have hswap : cmp b a = (cmp a b).swap := Std.OrientedCmp.eq_swap
  rw [hswap]
  cases hc : cmp a b <;> simp_all

theorem eq_of_isLE_of_isLE [Std.TransCmp cmp] [Std.LawfulEqCmp cmp] {a b : α}
    (hab : (cmp a b).isLE) (hba : (cmp b a).isLE) : a = b := by
  have hswap : cmp b a = (cmp a b).swap := Std.OrientedCmp.eq_swap
  rw [hswap] at hba
  apply eq_of_cmp_eq cmp
  cases hc : cmp a b <;> simp_all

theorem lt_of_isLE_of_ne [Std.LawfulEqCmp cmp] {a b : α} (h : (cmp a b).isLE) (other : a ≠ b) :
    cmp a b = .lt := by
  cases hc : cmp a b with
  | lt => rfl
  | eq => exact absurd (eq_of_cmp_eq cmp hc) other
  | gt => simp [hc] at h

/-- Put `a` in front of the first element that is not below it. -/
def insert (a : α) : List α → List α
  | [] => [a]
  | b :: bs => if (cmp a b).isLE then a :: b :: bs else b :: insert a bs

/-- The elements in ascending order; equal elements keep their order. -/
def sort : List α → List α
  | [] => []
  | a :: as => insert cmp a (sort as)

/-- Put `a` in its place unless an equal element stands there already. -/
def insertDistinct (a : α) : List α → List α
  | [] => [a]
  | b :: bs =>
    match cmp a b with
    | .lt => a :: b :: bs
    | .eq => b :: bs
    | .gt => b :: insertDistinct a bs

/-- The distinct elements in ascending order. -/
def sortDistinct : List α → List α
  | [] => []
  | a :: as => insertDistinct cmp a (sortDistinct as)

/-- Each element is at most every later one. -/
def Ascending (as : List α) : Prop :=
  as.Pairwise fun a b => (cmp a b).isLE

theorem insert_perm (a : α) (as : List α) : (insert cmp a as).Perm (a :: as) := by
  induction as with
  | nil => exact .refl _
  | cons b bs ih =>
    rw [insert]
    split
    · exact .refl _
    · exact (ih.cons b).trans (.swap a b bs)

theorem sort_perm (as : List α) : (sort cmp as).Perm as := by
  induction as with
  | nil => exact .refl _
  | cons a as ih => exact (insert_perm cmp a _).trans (ih.cons a)

@[simp] theorem mem_sort {a : α} {as : List α} : a ∈ sort cmp as ↔ a ∈ as :=
  (sort_perm cmp as).mem_iff

theorem insert_ascending [Std.TransCmp cmp] (a : α) {as : List α} (h : Ascending cmp as) :
    Ascending cmp (insert cmp a as) := by
  induction as with
  | nil => simp [insert, Ascending]
  | cons b bs ih =>
    have ⟨hb, hbs⟩ := List.pairwise_cons.1 h
    rw [insert]
    split
    · next hab =>
      refine List.pairwise_cons.2 ⟨fun c hc => ?_, h⟩
      rcases List.mem_cons.1 hc with rfl | hc
      · exact hab
      · exact Std.TransCmp.isLE_trans hab (hb c hc)
    · next hab =>
      refine List.pairwise_cons.2 ⟨fun c hc => ?_, ih hbs⟩
      rcases List.mem_cons.1 ((insert_perm cmp a bs).mem_iff.1 hc) with rfl | hc
      · exact isLE_of_not_isLE cmp hab
      · exact hb c hc

theorem sort_ascending [Std.TransCmp cmp] (as : List α) : Ascending cmp (sort cmp as) := by
  induction as with
  | nil => exact .nil
  | cons a as ih => exact insert_ascending cmp a ih

/-- Under a comparison that tells different elements apart, the sorted list depends on the
elements and their multiplicities only. -/
theorem sort_eq_of_perm [Std.TransCmp cmp] [Std.LawfulEqCmp cmp] {as bs : List α}
    (h : as.Perm bs) : sort cmp as = sort cmp bs := by
  exact List.Perm.eq_of_pairwise (fun _ _ _ _ hab hba => eq_of_isLE_of_isLE cmp hab hba)
    (sort_ascending cmp as) (sort_ascending cmp bs)
    ((sort_perm cmp as).trans (h.trans (sort_perm cmp bs).symm))

theorem sort_of_ascending [Std.TransCmp cmp] [Std.LawfulEqCmp cmp] {as : List α}
    (h : Ascending cmp as) : sort cmp as = as := by
  exact List.Perm.eq_of_pairwise (fun _ _ _ _ hab hba => eq_of_isLE_of_isLE cmp hab hba)
    (sort_ascending cmp as) h (sort_perm cmp as)

theorem mem_insertDistinct [Std.LawfulEqCmp cmp] {a x : α} {as : List α} :
    x ∈ insertDistinct cmp a as ↔ x = a ∨ x ∈ as := by
  induction as with
  | nil => simp [insertDistinct]
  | cons b bs ih =>
    rw [insertDistinct]
    split
    · simp
    · next h =>
      cases eq_of_cmp_eq cmp h
      simp
    · simp only [List.mem_cons, ih]
      grind

@[simp] theorem mem_sortDistinct [Std.LawfulEqCmp cmp] {x : α} {as : List α} :
    x ∈ sortDistinct cmp as ↔ x ∈ as := by
  induction as with
  | nil => simp [sortDistinct]
  | cons a as ih => rw [sortDistinct, mem_insertDistinct, ih, List.mem_cons]

/-- Each element is strictly below every later one. -/
def StrictlyAscending (as : List α) : Prop :=
  as.Pairwise fun a b => cmp a b = .lt

theorem insertDistinct_strictlyAscending [Std.TransCmp cmp] [Std.LawfulEqCmp cmp] (a : α)
    {as : List α} (h : StrictlyAscending cmp as) :
    StrictlyAscending cmp (insertDistinct cmp a as) := by
  induction as with
  | nil => simp [insertDistinct, StrictlyAscending]
  | cons b bs ih =>
    have ⟨hb, hbs⟩ := List.pairwise_cons.1 h
    rw [insertDistinct]
    split
    · next hab =>
      refine List.pairwise_cons.2 ⟨fun c hc => ?_, h⟩
      rcases List.mem_cons.1 hc with rfl | hc
      · exact hab
      · exact Std.TransCmp.lt_trans hab (hb c hc)
    · exact h
    · next hab =>
      refine List.pairwise_cons.2 ⟨fun c hc => ?_, ih hbs⟩
      rcases (mem_insertDistinct cmp).1 hc with rfl | hc
      · exact Std.OrientedCmp.lt_of_gt hab
      · exact hb c hc

theorem sortDistinct_strictlyAscending [Std.TransCmp cmp] [Std.LawfulEqCmp cmp] (as : List α) :
    StrictlyAscending cmp (sortDistinct cmp as) := by
  induction as with
  | nil => exact .nil
  | cons a as ih => exact insertDistinct_strictlyAscending cmp a ih

theorem sortDistinct_of_strictlyAscending {as : List α} (h : StrictlyAscending cmp as) :
    sortDistinct cmp as = as := by
  induction as with
  | nil => rfl
  | cons a as ih =>
    obtain ⟨first, rest⟩ := List.pairwise_cons.1 h
    rw [sortDistinct, ih rest]
    cases as with
    | nil => rfl
    | cons b bs => rw [insertDistinct, first b (.head _)]

theorem Ascending.strictly [Std.LawfulEqCmp cmp] {as : List α} (h : Ascending cmp as)
    (distinct : as.Nodup) : StrictlyAscending cmp as :=
  h.imp₂ (fun _ _ => lt_of_isLE_of_ne cmp) distinct

theorem StrictlyAscending.nodup [Std.LawfulEqCmp cmp] {as : List α}
    (h : StrictlyAscending cmp as) : as.Nodup := by
  refine h.imp fun {a b} below same => ?_
  have self : cmp b b = .eq := Std.ReflCmp.compare_self
  rw [same, self] at below
  cases below

theorem StrictlyAscending.ascending {as : List α} (h : StrictlyAscending cmp as) :
    Ascending cmp as :=
  h.imp fun below => by rw [below]; rfl

/-- A list in strictly ascending order is determined by its elements. -/
theorem StrictlyAscending.eq_of_mem_iff [Std.TransCmp cmp] [Std.LawfulEqCmp cmp] {as bs : List α}
    (ha : StrictlyAscending cmp as) (hb : StrictlyAscending cmp bs) (same : ∀ a, a ∈ as ↔ a ∈ bs) :
    as = bs := by
  have perm := (List.perm_ext_iff_of_nodup (ha.nodup cmp) (hb.nodup cmp)).2 same
  rw [← sort_of_ascending cmp (ha.ascending cmp), sort_eq_of_perm cmp perm,
    sort_of_ascending cmp (hb.ascending cmp)]

end PredicateStrength.Sorting
