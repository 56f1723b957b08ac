import Mathlib
import PredicateStrength.Proofs.Expr.Traversal
import PredicateStrength.Proofs.Formula.Embedding

/-!
# Renaming in trees

Canonical forms look at names to order operands and to find idioms. So a renaming that leaves the
idioms alone and keeps the order of the names that occur, in the tree and in what its idioms stand
for, commutes with every pass.

Main statement: `Expr.canonical_rename`.
-/
namespace PredicateStrength

/-- New names, and new names of members. -/
structure Renaming where
  name : String → String
  field : String → String

namespace Expr

mutual
/-- The tree with every name and every member renamed. -/
def rename (R : Renaming) : Expr → Expr
  | .ident x => .ident (R.name x)
  | .num digits => .num digits
  | .bool b => .bool b
  | .not e => .not (rename R e)
  | .neg e => .neg (rename R e)
  | .op o args => .op o (renameAll R args)
  | .call f args => .call (rename R f) (renameAll R args)
  | .index base key => .index (rename R base) (rename R key)
  | .member base field => .member (rename R base) (R.field field)

def renameAll (R : Renaming) : List Expr → List Expr
  | [] => []
  | e :: es => rename R e :: renameAll R es
end

theorem renameAll_eq_map (R : Renaming) (es : List Expr) : renameAll R es = es.map (rename R) := by
  induction es with
  | nil => rfl
  | cons e es ih => rw [renameAll, ih, List.map_cons]

end Expr

/-- Names, and names of members. -/
structure Vocabulary where
  names : Set String
  fields : Set String

namespace Vocabulary

/-- What the root names is known. -/
@[simp] def Admits (V : Vocabulary) : Expr → Prop
  | .ident x => x ∈ V.names
  | .member _ field => field ∈ V.fields
  | _ => True

/-- Every name and every member. -/
def all : Vocabulary := ⟨Set.univ, Set.univ⟩

end Vocabulary

namespace Expr

variable {V : Vocabulary} {e : Expr}

/-- All names and members of the tree are known. -/
def Within (V : Vocabulary) (e : Expr) : Prop := e.Everywhere V.Admits

theorem within_iff : e.Within V ↔ V.Admits e ∧ ∀ c ∈ e.parts, c.Within V :=
  ⟨fun h => ⟨h.root, fun _ => h.part⟩, fun h => .node h.1 h.2⟩

theorem within_all (e : Expr) : e.Within .all :=
  Everywhere.of_forall (fun e => by cases e <;> trivial) e

@[simp] theorem within_ident {x : String} : (ident x).Within V ↔ x ∈ V.names := by
  rw [within_iff]
  simp [Vocabulary.Admits, parts]

@[simp] theorem within_num {digits : String} : (num digits).Within V := by
  rw [within_iff]
  simp [Vocabulary.Admits, parts]

@[simp] theorem within_bool {b : Bool} : (bool b).Within V := by
  rw [within_iff]
  simp [Vocabulary.Admits, parts]

@[simp] theorem within_not : (not e).Within V ↔ e.Within V := by
  simp [within_iff (e := not e), Vocabulary.Admits, parts]

@[simp] theorem within_neg : (neg e).Within V ↔ e.Within V := by
  simp [within_iff (e := neg e), Vocabulary.Admits, parts]

@[simp] theorem within_op {o : Operator} {args : List Expr} :
    (op o args).Within V ↔ ∀ a ∈ args, a.Within V := by
  simp [within_iff (e := op o args), Vocabulary.Admits, parts]

@[simp] theorem within_call {f : Expr} {args : List Expr} :
    (call f args).Within V ↔ f.Within V ∧ ∀ a ∈ args, a.Within V := by
  simp [within_iff (e := call f args), Vocabulary.Admits, parts]

@[simp] theorem within_index {base key : Expr} :
    (index base key).Within V ↔ base.Within V ∧ key.Within V := by
  simp [within_iff (e := index base key), Vocabulary.Admits, parts]

@[simp] theorem within_member {base : Expr} {field : String} :
    (member base field).Within V ↔ field ∈ V.fields ∧ base.Within V := by
  simp [within_iff (e := member base field), Vocabulary.Admits, parts]

end Expr

namespace Renaming

/-- The order of the names is kept, and that of the members. -/
structure KeepsOrder (R : Renaming) (V : Vocabulary) : Prop where
  name : ∀ x ∈ V.names, ∀ y ∈ V.names, compare (R.name x) (R.name y) = compare x y
  field : ∀ f ∈ V.fields, ∀ g ∈ V.fields, compare (R.field f) (R.field g) = compare f g

/-- Different names stay different, and so do different members. -/
structure Injective (R : Renaming) : Prop where
  name : Function.Injective R.name
  field : Function.Injective R.field

/-- The names of the idioms stay as they are, and so does what idioms stand for. -/
structure KeepsIdioms (R : Renaming) : Prop where
  idiom : ∀ f e, (f, e) ∈ Canonical.localIdioms → R.name f = f ∧ e.rename R = e
  flag : ∀ mask predicate, (mask, predicate) ∈ Canonical.flagIdioms →
    R.name mask = mask ∧ R.name predicate = predicate

end Renaming

/-- What known idioms stand for is known. -/
structure Vocabulary.Closed (V : Vocabulary) : Prop where
  idiom : ∀ f e, (f, e) ∈ Canonical.localIdioms → f ∈ V.names → e.Within V
  flag : ∀ mask predicate, (mask, predicate) ∈ Canonical.flagIdioms → mask ∈ V.names →
    predicate ∈ V.names

variable {R : Renaming} {V : Vocabulary}

namespace Expr

mutual
/-- The order of trees is kept. -/
theorem cmp_rename (keeps : R.KeepsOrder V) : ∀ {a b : Expr}, a.Within V → b.Within V →
    cmp (a.rename R) (b.rename R) = cmp a b
  | .ident x, b, ha, hb => by
    cases b <;> simp [rename, cmp, Expr.ctorIdx]
    exact keeps.name _ (within_ident.1 ha) _ (within_ident.1 hb)
  | .num _, b, _, _ => by cases b <;> simp [rename, cmp, Expr.ctorIdx]
  | .bool _, b, _, _ => by cases b <;> simp [rename, cmp, Expr.ctorIdx]
  | .not a, b, ha, hb => by
    cases b <;> simp [rename, cmp, Expr.ctorIdx]
    exact cmp_rename keeps (within_not.1 ha) (within_not.1 hb)
  | .neg a, b, ha, hb => by
    cases b <;> simp [rename, cmp, Expr.ctorIdx]
    exact cmp_rename keeps (within_neg.1 ha) (within_neg.1 hb)
  | .op o as, b, ha, hb => by
    cases b <;> simp [rename, cmp, Expr.ctorIdx]
    rw [cmpList_rename keeps (within_op.1 ha) (within_op.1 hb)]
  | .call f as, b, ha, hb => by
    cases b <;> simp [rename, cmp, Expr.ctorIdx]
    rw [cmp_rename keeps (within_call.1 ha).1 (within_call.1 hb).1,
      cmpList_rename keeps (within_call.1 ha).2 (within_call.1 hb).2]
  | .index a i, b, ha, hb => by
    cases b <;> simp [rename, cmp, Expr.ctorIdx]
    rw [cmp_rename keeps (within_index.1 ha).1 (within_index.1 hb).1,
      cmp_rename keeps (within_index.1 ha).2 (within_index.1 hb).2]
  | .member a f, b, ha, hb => by
    cases b <;> simp [rename, cmp, Expr.ctorIdx]
    rw [cmp_rename keeps (within_member.1 ha).2 (within_member.1 hb).2,
      keeps.field _ (within_member.1 ha).1 _ (within_member.1 hb).1]

theorem cmpList_rename (keeps : R.KeepsOrder V) : ∀ {as bs : List Expr},
    (∀ a ∈ as, a.Within V) → (∀ b ∈ bs, b.Within V) →
    cmpList (renameAll R as) (renameAll R bs) = cmpList as bs
  | [], bs, _, _ => by cases bs <;> rfl
  | a :: as, [], _, _ => rfl
  | a :: as, b :: bs, ha, hb => by
    obtain ⟨first, rest⟩ := List.forall_mem_cons.1 ha
    obtain ⟨first', rest'⟩ := List.forall_mem_cons.1 hb
    rw [renameAll, renameAll, cmpList, cmpList, cmp_rename keeps first first',
      cmpList_rename keeps rest rest']
end

/-- Different trees stay different. -/
theorem rename_inj_of_within (keeps : R.KeepsOrder V) {a b : Expr} (ha : a.Within V)
    (hb : b.Within V) : a.rename R = b.rename R ↔ a = b := by
  rw [← cmp_eq_iff, cmp_rename keeps ha hb, cmp_eq_iff]

theorem mapParts_rename {g : Expr → Expr} {e : Expr}
    (h : ∀ c ∈ e.parts, g (c.rename R) = (g c).rename R) :
    (e.rename R).mapParts g = (e.mapParts g).rename R := by
  have each : ∀ es : List Expr, (∀ c ∈ es, g (c.rename R) = (g c).rename R) →
      (renameAll R es).map g = renameAll R (es.map g) := fun es same => by
    rw [renameAll_eq_map, renameAll_eq_map, List.map_map, List.map_map]
    exact List.map_congr_left same
  cases e with
  | op o args => exact congrArg (Expr.op o) (each args h)
  | call f args =>
    obtain ⟨callee, rest⟩ := List.forall_mem_cons.1 h
    exact congrArg₂ Expr.call callee (each args rest)
  | _ => simp_all [rename, mapParts, parts]

end Expr

namespace Canonical
open PredicateStrength.Expr

/-- The rule commutes with the renaming, and it brings in no unknown names. -/
structure CommutesOn (R : Renaming) (V : Vocabulary) (rule : Expr → Expr) : Prop where
  rename : ∀ e : Expr, e.Within V → rule (e.rename R) = (rule e).rename R
  within : ∀ e : Expr, e.Within V → (rule e).Within V

namespace CommutesOn

theorem bottomUp {rule : Expr → Expr} (h : CommutesOn R V rule) :
    CommutesOn R V (Expr.bottomUp rule) := by
  have both : ∀ e : Expr, e.Within V →
      (e.rename R).bottomUp rule = (e.bottomUp rule).rename R ∧ (e.bottomUp rule).Within V := by
    intro e
    induction e using inductionOnParts with
    | node e ih =>
      intro known
      have parts := fun c mem => ih c mem (known.part mem)
      have root : (e.mapParts (Expr.bottomUp rule)).Within V := by
        refine within_iff.2 ⟨?_, ?_⟩
        · have here := known.root
          cases e <;> exact here
        · rw [parts_mapParts]
          exact List.forall_mem_map.2 fun c mem => (parts c mem).2
      rw [bottomUp_eq, bottomUp_eq, mapParts_rename fun c mem => (parts c mem).1]
      exact ⟨h.rename _ root, h.within _ root⟩
  exact ⟨fun e known => (both e known).1, fun e known => (both e known).2⟩

end CommutesOn

theorem ident_of_fixed (inj : R.Injective) {x : String} (fixed : R.name x = x) {e : Expr} :
    e.rename R = .ident x ↔ e = .ident x := by
  cases e with
  | ident y =>
    rw [Expr.rename, Expr.ident.injEq, Expr.ident.injEq]
    exact ⟨fun same => inj.name (same.trans fixed.symm), fun same => same ▸ fixed⟩
  | _ => simp [Expr.rename]

theorem mem_of_lookup {f : String} {e : Expr} (found : localIdioms.lookup f = some e) :
    (f, e) ∈ localIdioms := by
  obtain ⟨front, back, table, -⟩ := List.lookup_eq_some_iff.1 found
  rw [table]
  exact List.mem_append_right front List.mem_cons_self

/-- A new name is that of an idiom only if the old name is. -/
theorem lookup_name (inj : R.Injective) (idioms : R.KeepsIdioms) (f : String) :
    localIdioms.lookup (R.name f) = localIdioms.lookup f := by
  cases found : localIdioms.lookup f with
  | some e => rw [(idioms.idiom f e (mem_of_lookup found)).1, found]
  | none =>
    by_contra some
    obtain ⟨e, other⟩ := Option.ne_none_iff_exists'.1 some
    rw [inj.name (idioms.idiom _ e (mem_of_lookup other)).1, found] at other
    cases other

theorem commutesOn_expandIdiom (inj : R.Injective) (idioms : R.KeepsIdioms) (closed : V.Closed) :
    CommutesOn R V expandIdiom where
  rename e _ := by
    match e with
    | .call (.ident f) [] =>
      show (localIdioms.lookup (R.name f)).getD _ = Expr.rename R ((localIdioms.lookup f).getD _)
      rw [lookup_name inj idioms]
      cases found : localIdioms.lookup f with
      | none => rfl
      | some body => exact (idioms.idiom f body (mem_of_lookup found)).2.symm
    | .call (.ident f) (a :: as) => rfl
    | .call (.num _) _ | .call (.bool _) _ | .call (.not _) _ | .call (.neg _) _
    | .call (.op _ _) _ | .call (.call _ _) _ | .call (.index _ _) _ | .call (.member _ _) _ => rfl
    | .ident _ | .num _ | .bool _ | .not _ | .neg _ | .op _ _ | .index _ _ | .member _ _ => rfl
  within e known := by
    unfold expandIdiom
    split
    · next f =>
      cases found : localIdioms.lookup f with
      | none => exact known
      | some body =>
        exact closed.idiom f body (mem_of_lookup found) (within_ident.1 (within_call.1 known).1)
    · exact known

theorem commutesOn_foldBoolEquality : CommutesOn R V foldBoolEquality where
  rename e _ := by
    match e with
    | .op o [a, b] =>
      cases o
      case eq | ne =>
        cases a with
        | bool v => cases v <;> rfl
        | _ =>
          cases b with
          | bool v => cases v <;> rfl
          | _ => rfl
      all_goals rfl
    | .op o [] => cases o <;> rfl
    | .op o [a] => cases o <;> first | rfl | (cases a <;> rfl)
    | .op o (a :: b :: c :: as) =>
      cases o <;> first | rfl | (cases a <;> first | rfl | (cases b <;> rfl))
    | .ident _ | .num _ | .bool _ | .not _ | .neg _ | .call _ _ | .index _ _ | .member _ _ => rfl
  within e known := by
    unfold foldBoolEquality
    split
    all_goals first | exact known | (split <;> simp_all)

theorem commutesOn_dropDoubleNegation : CommutesOn R V dropDoubleNegation where
  rename e _ := by
    match e with
    | .not e => cases e <;> rfl
    | .ident _ | .num _ | .bool _ | .neg _ | .op _ _ | .call _ _ | .index _ _ | .member _ _ => rfl
  within e known := by
    unfold dropDoubleNegation
    split
    · simpa using known
    · exact known

theorem moveSubtrahends_rename (side other : Expr) :
    moveSubtrahends (side.rename R) (other.rename R) =
      ((moveSubtrahends side other).1.rename R, (moveSubtrahends side other).2.rename R) := by
  induction side, other using moveSubtrahends.induct with
  | case1 a b other ih =>
    rw [moveSubtrahends]
    exact ih
  | case2 side other plain =>
    have image : ∀ a b, side.rename R ≠ .op .sub [a, b] := by
      intro a b same
      cases side with
      | op o args =>
        obtain ⟨rfl, operands⟩ := Expr.op.inj same
        rw [renameAll_eq_map] at operands
        obtain ⟨a', rest, rfl, -, operands⟩ := List.map_eq_cons_iff.1 operands
        obtain ⟨b', rest, rfl, -, operands⟩ := List.map_eq_cons_iff.1 operands
        rw [List.map_eq_nil_iff.1 operands] at plain
        exact plain a' b' rfl
      | _ => cases same
    rw [moveSubtrahends.eq_2 _ _ image, moveSubtrahends.eq_2 _ _ plain]

theorem moveSubtrahends_within (side other : Expr) (first : side.Within V)
    (second : other.Within V) :
    (moveSubtrahends side other).1.Within V ∧ (moveSubtrahends side other).2.Within V := by
  induction side, other using moveSubtrahends.induct with
  | case1 a b other ih =>
    rw [moveSubtrahends]
    simp only [within_op, List.forall_mem_cons] at first
    exact ih first.1 (by simp [binary, second, first.2.1])
  | case2 side other plain =>
    rw [moveSubtrahends.eq_2 _ _ plain]
    exact ⟨first, second⟩

theorem commutesOn_shiftSubtraction : CommutesOn R V shiftSubtraction where
  rename e _ := by
    match e with
    | .op o [a, b] =>
      rw [Expr.rename, renameAll, renameAll, renameAll, shiftSubtraction, shiftSubtraction]
      split
      · dsimp only
        rw [moveSubtrahends_rename]
        dsimp only
        rw [moveSubtrahends_rename]
        rfl
      · rfl
    | .op o [] | .op o [_] | .op o (_ :: _ :: _ :: _) => rfl
    | .ident _ | .num _ | .bool _ | .not _ | .neg _ | .call _ _ | .index _ _ | .member _ _ => rfl
  within e known := by
    unfold shiftSubtraction
    split
    · next o a b =>
      split
      · simp only [within_op, List.forall_mem_cons] at known
        obtain ⟨right, left⟩ := moveSubtrahends_within b a known.2.1 known.1
        obtain ⟨left, right⟩ := moveSubtrahends_within _ _ left right
        simp [left, right]
      · exact known
    · exact known

theorem operands_rename (o : Operator) (e : Expr) :
    (e.rename R).operands o = (e.operands o).map (Expr.rename R) := by
  cases e with
  | op p args =>
    rw [Expr.rename, operands, operands]
    split
    · exact renameAll_eq_map R args
    · rfl
  | _ => rfl

theorem operands_within {o : Operator} {e : Expr} (known : e.Within V) :
    ∀ c ∈ e.operands o, c.Within V := by
  unfold operands
  split
  · split
    · exact within_op.1 known
    · exact List.forall_mem_singleton.2 known
  · exact List.forall_mem_singleton.2 known

theorem splice_rename (o : Operator) (args : List Expr) :
    splice o (args.map (Expr.rename R)) = (splice o args).map (Expr.rename R) := by
  rw [splice, splice, List.flatMap_map, List.map_flatMap]
  simp only [operands_rename]

theorem splice_within {o : Operator} {args : List Expr} (known : ∀ a ∈ args, a.Within V) :
    ∀ c ∈ splice o args, c.Within V := by
  intro c mem
  obtain ⟨a, inside, mem⟩ := List.mem_flatMap.1 mem
  exact operands_within (known a inside) c mem

theorem sorted_rename (keeps : R.KeepsOrder V) {args : List Expr}
    (known : ∀ a ∈ args, a.Within V) :
    Expr.sorted (args.map (Expr.rename R)) = (Expr.sorted args).map (Expr.rename R) :=
  Sorting.sort_map fun a ha b hb => cmp_rename keeps (known a ha) (known b hb)

theorem sorted_within {args : List Expr} (known : ∀ a ∈ args, a.Within V) :
    ∀ c ∈ Expr.sorted args, c.Within V :=
  fun c mem => known c ((Sorting.mem_sort Expr.cmp).1 mem)

theorem commutesOn_flatten : CommutesOn R V flatten where
  rename e _ := by
    cases e with
    | op o args =>
      rw [Expr.rename, flatten, flatten, Expr.rename, renameAll_eq_map, renameAll_eq_map]
      split
      · rw [splice_rename]
      · rfl
    | _ => rfl
  within e known := by
    unfold flatten
    split
    · rw [within_op] at known ⊢
      split
      · exact splice_within known
      · exact known
    · exact known

theorem commutesOn_normalizeSum (keeps : R.KeepsOrder V) : CommutesOn R V normalizeSum where
  rename e known := by
    cases e with
    | op o args =>
      by_cases sum : o = .add
      · subst sum
        rw [Expr.rename, normalizeSum, normalizeSum, Expr.rename, renameAll_eq_map,
          renameAll_eq_map, splice_rename, sorted_rename keeps (splice_within (within_op.1 known))]
      · cases o <;> first | rfl | exact absurd rfl sum
    | _ => rfl
  within e known := by
    unfold normalizeSum
    split
    · rw [within_op] at known ⊢
      exact sorted_within (splice_within known)
    · exact known

theorem commutesOn_sortCommutative (keeps : R.KeepsOrder V) : CommutesOn R V sortCommutative where
  rename e known := by
    cases e with
    | op o args =>
      rw [Expr.rename, sortCommutative, sortCommutative, Expr.rename, renameAll_eq_map,
        renameAll_eq_map]
      split
      · rw [sorted_rename keeps (within_op.1 known)]
      · rfl
    | _ => rfl
  within e known := by
    unfold sortCommutative
    split
    · rw [within_op] at known ⊢
      split
      · exact sorted_within known
      · exact known
    · exact known

theorem commutesOn_orderEquality (keeps : R.KeepsOrder V) : CommutesOn R V orderEquality where
  rename e known := by
    match e with
    | .op o [a, b] =>
      simp only [within_op, List.forall_mem_cons] at known
      have same := cmp_rename keeps known.2.1 known.1
      cases o
      case eq | ne =>
        simp only [Expr.rename, renameAll, orderEquality, same]
        split <;> rfl
      all_goals rfl
    | .op o [] | .op o [_] | .op o (_ :: _ :: _ :: _) => cases o <;> rfl
    | .ident _ | .num _ | .bool _ | .not _ | .neg _ | .call _ _ | .index _ _ | .member _ _ => rfl
  within e known := by
    unfold orderEquality
    split
    · split <;> simp_all
    · split <;> simp_all
    · exact known

theorem isZeroLiteral_rename (e : Expr) : (e.rename R).isZeroLiteral = e.isZeroLiteral := by
  cases e <;> rfl

theorem findSome?_congr {α β : Type} {f g : α → Option β} {as : List α}
    (same : ∀ a ∈ as, f a = g a) : as.findSome? f = as.findSome? g := by
  induction as with
  | nil => rfl
  | cons a as ih =>
    obtain ⟨here, later⟩ := List.forall_mem_cons.1 same
    rw [List.findSome?_cons, List.findSome?_cons, here, ih later]

theorem flagTest?_rename (inj : R.Injective) (idioms : R.KeepsIdioms) (e : Expr) :
    flagTest? (e.rename R) = (flagTest? e).map (Expr.rename R) := by
  match e with
  | .op o [a, b] =>
    by_cases masked : o = .bitAnd
    · subst masked
      rw [Expr.rename, renameAll, renameAll, renameAll, flagTest?, flagTest?, List.map_findSome?]
      refine findSome?_congr fun (mask, predicate) mem => ?_
      obtain ⟨fixed, fixed'⟩ := idioms.flag mask predicate mem
      simp only [Function.comp_apply, ident_of_fixed inj fixed, apply]
      split
      · simp [Expr.rename, renameAll, fixed']
      · split
        · simp [Expr.rename, renameAll, fixed']
        · rfl
    · cases o <;> first | rfl | exact absurd rfl masked
  | .op o [] | .op o [_] | .op o (_ :: _ :: _ :: _) => cases o <;> rfl
  | .ident _ | .num _ | .bool _ | .not _ | .neg _ | .call _ _ | .index _ _ | .member _ _ => rfl

theorem flagTest?_within (closed : V.Closed) {e test : Expr} (h : flagTest? e = some test)
    (known : e.Within V) : test.Within V := by
  unfold flagTest? at h
  split at h
  · next a b =>
    obtain ⟨⟨mask, predicate⟩, mem, h⟩ := List.exists_of_findSome?_eq_some h
    simp only [within_op, List.forall_mem_cons] at known
    dsimp only at h
    split at h
    · next same =>
      cases h
      have mask := closed.flag mask predicate mem (within_ident.1 (same ▸ known.2.1))
      simp [apply, mask, known.1]
    · split at h
      · next same =>
        cases h
        have mask := closed.flag mask predicate mem (within_ident.1 (same ▸ known.1))
        simp [apply, mask, known.2.1]
      · cases h
  · cases h

theorem comparedWithZero?_rename (a b : Expr) :
    comparedWithZero? (a.rename R) (b.rename R) =
      (comparedWithZero? a b).map (Expr.rename R) := by
  unfold comparedWithZero?
  rw [isZeroLiteral_rename, isZeroLiteral_rename]
  split
  · rfl
  · split <;> rfl

theorem comparedWithZero?_within {a b e : Expr} (h : comparedWithZero? a b = some e)
    (first : a.Within V) (second : b.Within V) : e.Within V := by
  unfold comparedWithZero? at h
  split at h
  · cases h
    exact first
  · split at h
    · cases h
      exact second
    · cases h

theorem commutesOn_expandFlag (inj : R.Injective) (idioms : R.KeepsIdioms) (closed : V.Closed) :
    CommutesOn R V expandFlag where
  rename e _ := by
    have test : ∀ a b : Expr,
        (comparedWithZero? (a.rename R) (b.rename R)).bind flagTest? =
          ((comparedWithZero? a b).bind flagTest?).map (Expr.rename R) := by
      intro a b
      rw [comparedWithZero?_rename]
      cases comparedWithZero? a b with
      | none => rfl
      | some e => exact flagTest?_rename inj idioms e
    match e with
    | .op o [a, b] =>
      cases o
      case eq | ne =>
        simp only [Expr.rename, renameAll, expandFlag, test]
        cases (comparedWithZero? a b).bind flagTest? <;> rfl
      all_goals rfl
    | .op o [] | .op o [_] | .op o (_ :: _ :: _ :: _) => cases o <;> rfl
    | .ident _ | .num _ | .bool _ | .not _ | .neg _ | .call _ _ | .index _ _ | .member _ _ => rfl
  within e known := by
    have test : ∀ {a b e : Expr}, (comparedWithZero? a b).bind flagTest? = some e →
        a.Within V → b.Within V → e.Within V := by
      intro a b e h first second
      obtain ⟨operand, compared, h⟩ := Option.bind_eq_some_iff.1 h
      exact flagTest?_within closed h (comparedWithZero?_within compared first second)
    unfold expandFlag
    split
    · next a b =>
      cases found : (comparedWithZero? a b).bind flagTest? with
      | none => exact known
      | some e =>
        simp only [within_op, List.forall_mem_cons] at known
        exact within_not.2 (test found known.1 known.2.1)
    · next a b =>
      cases found : (comparedWithZero? a b).bind flagTest? with
      | none => exact known
      | some e =>
        simp only [within_op, List.forall_mem_cons] at known
        exact test found known.1 known.2.1
    · exact known

/-- A round commutes with a renaming that it cannot see. -/
theorem commutesOn_round (inj : R.Injective) (idioms : R.KeepsIdioms) (closed : V.Closed)
    (keeps : R.KeepsOrder V) : CommutesOn R V round := by
  have comp : ∀ {rule rule' : Expr → Expr}, CommutesOn R V rule → CommutesOn R V rule' →
      CommutesOn R V (fun e => rule (rule' e)) := fun h h' =>
    ⟨fun e known => by rw [h'.rename e known, h.rename _ (h'.within e known)],
      fun e known => h.within _ (h'.within e known)⟩
  have whole := comp (commutesOn_expandFlag inj idioms closed).bottomUp <|
    comp (commutesOn_orderEquality keeps).bottomUp <|
    comp (commutesOn_sortCommutative keeps).bottomUp <|
    comp (commutesOn_normalizeSum keeps).bottomUp <| comp commutesOn_flatten.bottomUp <|
    comp commutesOn_shiftSubtraction.bottomUp <| comp commutesOn_dropDoubleNegation.bottomUp <|
    comp commutesOn_foldBoolEquality.bottomUp (commutesOn_expandIdiom inj idioms closed).bottomUp
  exact whole

end Canonical

/-- The canonical form of a renamed tree is the renamed canonical form. -/
theorem Expr.canonical_rename (inj : R.Injective) (idioms : R.KeepsIdioms) (closed : V.Closed)
    (keeps : R.KeepsOrder V) {e : Expr} (known : e.Within V) :
    (e.rename R).canonical = e.canonical.rename R ∧ e.canonical.Within V := by
  have step := Canonical.commutesOn_round inj idioms closed keeps
  have run : ∀ n : Nat, ∀ e : Expr, e.Within V →
      Canonical.round^[n] (e.rename R) = (Canonical.round^[n] e).rename R ∧
        (Canonical.round^[n] e).Within V := by
    intro n
    induction n with
    | zero => exact fun e known => ⟨rfl, known⟩
    | succ n ih =>
      intro e known
      rw [Function.iterate_succ_apply, Function.iterate_succ_apply, step.rename e known]
      exact ih _ (step.within e known)
  rw [canonical, canonical, Canonical.rounds_eq_iterate, Canonical.rounds_eq_iterate]
  exact run _ e known

namespace Renaming

/-- The names `x` and `y` change places. -/
def exchange (x y : String) : Renaming := ⟨Equiv.swap x y, id⟩

theorem exchange_injective (x y : String) : (exchange x y).Injective :=
  ⟨(Equiv.swap x y).injective, Function.injective_id⟩

/-- The names in which the idioms are written. -/
def idiomNames : List String :=
  ["isOwner", "owner", "isAdmin", "admin", "_msgSender", "msg.sender",
    "MarketplaceLib.FLAG_MASK_FINALIZED", "MarketplaceLib.isFinalized"]

theorem keepsIdioms_of_fixed {R : Renaming} (fixed : ∀ x ∈ idiomNames, R.name x = x) :
    R.KeepsIdioms where
  idiom f e mem := by
    simp only [idiomNames, List.forall_mem_cons] at fixed
    simp only [Canonical.localIdioms, List.mem_cons, Prod.mk.injEq, List.not_mem_nil,
      or_false] at mem
    rcases mem with ⟨rfl, rfl⟩ | ⟨rfl, rfl⟩ | ⟨rfl, rfl⟩ <;>
      simp [Expr.rename, Expr.renameAll, Expr.binary, Expr.apply, fixed]
  flag mask predicate mem := by
    simp only [idiomNames, List.forall_mem_cons] at fixed
    simp only [Canonical.flagIdioms, List.mem_singleton, Prod.mk.injEq] at mem
    obtain ⟨rfl, rfl⟩ := mem
    simp [fixed]

theorem closed_of_foreign {V : Vocabulary} (foreign : ∀ x ∈ idiomNames, x ∉ V.names) :
    V.Closed where
  idiom f e mem known := by
    refine absurd known (foreign f ?_)
    simp only [Canonical.localIdioms, List.mem_cons, Prod.mk.injEq, List.not_mem_nil,
      or_false] at mem
    rcases mem with ⟨rfl, _⟩ | ⟨rfl, _⟩ | ⟨rfl, _⟩ <;> simp [idiomNames]
  flag mask predicate mem known := by
    refine absurd known (foreign mask ?_)
    simp only [Canonical.flagIdioms, List.mem_singleton, Prod.mk.injEq] at mem
    obtain ⟨rfl, _⟩ := mem
    simp [idiomNames]

end Renaming
end PredicateStrength
