import Mathlib
import PredicateStrength.Proofs.Expr.Renaming

/-!
# Names as ranks

A renaming that keeps the order of finitely many names need not keep the order of all names, and
need not be the beginning of one that does. But it does not change the rank of a known name among
the known ones. Giving every name its rank keeps the order of all names; so the tree and the renamed
tree are taken to one and the same tree by renamings that keep the order of all names.

Main statement: `Renaming.exists_common`.
-/
namespace PredicateStrength

namespace Renaming

/-- A name for the rank of `x` among the known names; for an unknown name, itself behind that. -/
def rankName (known : Finset String) (x : String) : String :=
  .ofList (List.replicate (known.filter (· ≤ x)).card 'b' ++
    'a' :: if x ∈ known then [] else x.toList)

theorem card_rank_lt {known : Finset String} {x y : String} (lt : x < y) (mem : y ∈ known) :
    (known.filter (· ≤ x)).card < (known.filter (· ≤ y)).card := by
  refine Finset.card_lt_card ((Finset.ssubset_iff_of_subset ?_).2 ⟨y, ?_, ?_⟩)
  · exact Finset.monotone_filter_right _ fun z _ le => le.trans lt.le
  · simp [mem]
  · simp [lt]

theorem rankName_lt {known : Finset String} {x y : String} (lt : x < y) :
    rankName known x < rankName known y := by
  have le : (known.filter (· ≤ x)).card ≤ (known.filter (· ≤ y)).card :=
    Finset.card_le_card (Finset.monotone_filter_right _ fun z _ le => le.trans lt.le)
  rw [rankName, rankName, String.lt_iff, String.toList_ofList, String.toList_ofList]
  rcases le.lt_or_eq with less | same
  · obtain ⟨k, more⟩ := Nat.exists_eq_add_of_lt less
    rw [more, Nat.add_assoc, List.replicate_add, List.append_assoc]
    refine List.append_left_lt ?_
    rw [List.replicate_succ, List.cons_append]
    exact List.Lex.rel (by decide)
  · have unknown : y ∉ known := fun mem => (card_rank_lt lt mem).ne same
    rw [same, if_neg unknown]
    refine List.append_left_lt (List.cons_lt_cons_iff.2 (.inr ⟨rfl, ?_⟩))
    have behind := String.lt_iff.1 lt
    split
    · cases list : y.toList with
      | nil => exact absurd (list ▸ behind) (List.not_lt_nil _)
      | cons c cs => exact List.nil_lt_cons c cs
    · exact behind

theorem compare_rankName (known : Finset String) (x y : String) :
    compare (rankName known x) (rankName known y) = compare x y := by
  rcases lt_trichotomy x y with lt | rfl | gt
  · rw [compare_lt_iff_lt.2 lt, compare_lt_iff_lt.2 (rankName_lt lt)]
  · rw [compare_eq_iff_eq.2 rfl, compare_eq_iff_eq.2 rfl]
  · rw [compare_gt_iff_gt.2 gt, compare_gt_iff_gt.2 (rankName_lt gt)]

/-- Names in the same order have the same ranks. -/
theorem rankName_image {g : String → String} {known : Finset String}
    (keeps : ∀ x ∈ known, ∀ y ∈ known, compare (g x) (g y) = compare x y) {x : String}
    (mem : x ∈ known) : rankName (known.image g) (g x) = rankName known x := by
  have le : ∀ y ∈ known, (g y ≤ g x ↔ y ≤ x) := fun y mem' => by
    rw [← compare_le_iff_le, keeps y mem' x mem, compare_le_iff_le]
  have ranks : ((known.image g).filter (· ≤ g x)).card = (known.filter (· ≤ x)).card := by
    rw [Finset.filter_image, Finset.filter_congr le]
    refine Finset.card_image_of_injOn fun y hy z hz same => ?_
    have mem' := (Finset.mem_filter.1 hy).1
    have mem'' := (Finset.mem_filter.1 hz).1
    rw [← compare_eq_iff_eq, ← keeps y mem' z mem'', same]
    exact compare_eq_iff_eq.2 rfl
  rw [rankName, rankName, ranks, if_pos mem, if_pos (Finset.mem_image_of_mem g mem)]

/-- Every name and every member becomes its rank. -/
def rank (names fields : Finset String) : Renaming := ⟨rankName names, rankName fields⟩

theorem keepsOrder_rank (names fields : Finset String) (V : Vocabulary) :
    (rank names fields).KeepsOrder V where
  name x _ y _ := compare_rankName names x y
  field f _ g _ := compare_rankName fields f g

end Renaming

namespace Expr

variable {V W : Vocabulary}

theorem Within.mono {e : Expr} (h : e.Within V) (names : V.names ⊆ W.names)
    (fields : V.fields ⊆ W.fields) : e.Within W := by
  refine Everywhere.mono h fun e admitted => ?_
  cases e with
  | ident => exact names admitted
  | member => exact fields admitted
  | _ => trivial

/-- Trees that each mention finitely many names and members do so together. -/
theorem exists_finite_of_forall {es : List Expr}
    (each : ∀ e ∈ es, ∃ names fields : Finset String, ↑names ⊆ V.names ∧ ↑fields ⊆ V.fields ∧
      e.Within ⟨names, fields⟩) :
    ∃ names fields : Finset String, ↑names ⊆ V.names ∧ ↑fields ⊆ V.fields ∧
      ∀ e ∈ es, e.Within ⟨names, fields⟩ := by
  induction es with
  | nil => exact ⟨∅, ∅, by simp, by simp, by simp⟩
  | cons e es ih =>
    obtain ⟨here, later⟩ := List.forall_mem_cons.1 each
    obtain ⟨N, F, names, fields, known⟩ := here
    obtain ⟨N', F', names', fields', known'⟩ := ih later
    refine ⟨N ∪ N', F ∪ F', ?_, ?_, List.forall_mem_cons.2 ⟨?_, fun c mem => ?_⟩⟩
    · simp [names, names']
    · simp [fields, fields']
    · exact known.mono (by simp) (by simp)
    · exact (known' c mem).mono (by simp) (by simp)

/-- A tree mentions finitely many names and members. -/
theorem Within.exists_finite {e : Expr} (h : e.Within V) :
    ∃ names fields : Finset String, ↑names ⊆ V.names ∧ ↑fields ⊆ V.fields ∧
      e.Within ⟨names, fields⟩ := by
  induction e using inductionOnParts with
  | node e ih =>
    obtain ⟨N, F, names, fields, known⟩ :=
      exists_finite_of_forall fun c mem => ih c mem (h.part mem)
    have root := h.root
    have parts : ∀ c ∈ e.parts, ∀ N' F' : Finset String, N ⊆ N' → F ⊆ F' →
        c.Within ⟨N', F'⟩ := fun c mem N' F' more more' =>
      (known c mem).mono (by simpa using more) (by simpa using more')
    cases e with
    | ident x =>
      exact ⟨{x}, ∅, by simpa [Vocabulary.Admits] using root, by simp, by simp⟩
    | member base field =>
      refine ⟨N, insert field F, names, ?_, within_member.2 ⟨by simp, ?_⟩⟩
      · rw [Finset.coe_insert]
        exact Set.insert_subset root fields
      · exact parts base (by simp [Expr.parts]) _ _ subset_rfl (Finset.subset_insert _ _)
    | _ =>
      exact ⟨N, F, names, fields,
        within_iff.2 ⟨trivial, fun c mem => parts c mem _ _ subset_rfl subset_rfl⟩⟩

/-- Renaming known names twice is renaming them once. -/
theorem rename_rename {Q R S : Renaming} {e : Expr} (known : e.Within V)
    (names : ∀ x ∈ V.names, S.name (R.name x) = Q.name x)
    (fields : ∀ f ∈ V.fields, S.field (R.field f) = Q.field f) :
    (e.rename R).rename S = e.rename Q := by
  induction e using inductionOnParts with
  | node e ih =>
    have parts := fun c mem => ih c mem (known.part mem)
    have root := known.root
    have each : ∀ es : List Expr, (∀ c ∈ es, (c.rename R).rename S = c.rename Q) →
        renameAll S (renameAll R es) = renameAll Q es := fun es same => by
      rw [renameAll_eq_map, renameAll_eq_map, renameAll_eq_map, List.map_map]
      exact List.map_congr_left same
    cases e with
    | ident x => exact congrArg ident (names x root)
    | op o args => exact congrArg (Expr.op o) (each args parts)
    | call f args =>
      obtain ⟨callee, rest⟩ := List.forall_mem_cons.1 parts
      exact congrArg₂ Expr.call callee (each args rest)
    | member base field =>
      exact congrArg₂ member (parts base (by simp [Expr.parts])) (fields field root)
    | _ => simp_all [rename, Expr.parts]

end Expr

/-- A tree and the renamed tree are taken to one and the same tree by renamings that keep the order
of all names. -/
theorem Renaming.exists_common {R : Renaming} {V : Vocabulary} (keeps : R.KeepsOrder V) {a b : Expr}
    (ha : a.Within V) (hb : b.Within V) : ∃ Q S : Renaming, Q.KeepsOrder .all ∧ S.KeepsOrder .all ∧
      (a.rename R).rename S = a.rename Q ∧ (b.rename R).rename S = b.rename Q := by
  have each : ∀ e ∈ [a, b], ∃ names fields : Finset String, ↑names ⊆ V.names ∧
      ↑fields ⊆ V.fields ∧ e.Within ⟨names, fields⟩ := by
    simpa using And.intro ha.exists_finite hb.exists_finite
  obtain ⟨N, F, names, fields, known⟩ := Expr.exists_finite_of_forall each
  have sameNames : ∀ x ∈ N, rankName (N.image R.name) (R.name x) = rankName N x := fun x mem =>
    rankName_image (fun y hy z hz => keeps.name y (names hy) z (names hz)) mem
  have sameFields : ∀ f ∈ F, rankName (F.image R.field) (R.field f) = rankName F f := fun f mem =>
    rankName_image (fun y hy z hz => keeps.field y (fields hy) z (fields hz)) mem
  refine ⟨rank N F, rank (N.image R.name) (F.image R.field), keepsOrder_rank _ _ _,
    keepsOrder_rank _ _ _, ?_, ?_⟩
  · exact Expr.rename_rename (known a (by simp)) sameNames sameFields
  · exact Expr.rename_rename (known b (by simp)) sameNames sameFields

end PredicateStrength
