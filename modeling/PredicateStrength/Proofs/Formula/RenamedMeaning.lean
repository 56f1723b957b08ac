import Mathlib
import PredicateStrength.Proofs.Expr.Renaming
import PredicateStrength.Proofs.Formula.Meaning

/-!
# The meaning of renamed trees

If the new names mean what the old ones mean, then so do renamed trees. For every interpretation of
the old names there is such an interpretation of the new ones, and every one of the new names is
such an interpretation for one of the old names.

Main statements: `Interp.Transports.value?`, `Interp.exists_transports` and, for every
interpretation of the new names, `Interp.exists_transports_to`.
-/
namespace PredicateStrength

variable {K : Type} {R : Renaming}

/-- The place with every name and every member renamed. -/
def Place.rename (R : Renaming) : Place K → Place K
  | .value v => .value v
  | .name x => .name (R.name x)
  | .call callee args => .call (callee.rename R) args
  | .index base key => .index (base.rename R) key
  | .member base field => .member (base.rename R) (R.field field)

theorem Place.rename_injective (inj : R.Injective) :
    Function.Injective (Place.rename (K := K) R) := by
  intro p
  induction p with
  | value v => intro q same; cases q <;> simp_all [Place.rename]
  | name x => intro q same; cases q <;> simp_all [Place.rename, inj.name.eq_iff]
  | call callee args ih =>
    intro q same
    cases q <;> simp only [Place.rename, Place.call.injEq, reduceCtorEq] at same
    rw [ih same.1, same.2]
  | index base key ih =>
    intro q same
    cases q <;> simp only [Place.rename, Place.index.injEq, reduceCtorEq] at same
    rw [ih same.1, same.2]
  | member base field ih =>
    intro q same
    cases q <;> simp only [Place.rename, Place.member.injEq, reduceCtorEq] at same
    rw [ih same.1, inj.field same.2]

theorem Place.isBase_rename (p : Place K) : (p.rename R).isBase = p.isBase := by
  cases p with
  | value v => cases v <;> rfl
  | _ => rfl

namespace Interp

/-- Under `J` the new names mean what the names mean under `I`. -/
structure Transports (R : Renaming) (I J : Interp K) : Prop where
  read : ∀ p : Place K, J.read (p.rename R) = I.read p
  literal? : J.literal? = I.literal?
  arith : J.arith = I.arith

namespace Transports

variable {I J : Interp K}

theorem valueAt (h : Transports R I J) (p : Place K) :
    J.valueAt (p.rename R) = I.valueAt p := by
  cases p with
  | value v => rfl
  | _ => exact h.read _

theorem call? {idiom idiom' : String → Option (Option (Place K))}
    (same : ∀ f, idiom' (R.name f) = (idiom f).map (Option.map (Place.rename R))) (p : Place K)
    (args : List (Value K)) :
    (p.rename R).call? idiom' args = (p.call? idiom args).map (Place.rename R) := by
  cases p with
  | value v => cases v <;> cases args <;> rfl
  | name f =>
    cases args with
    | nil =>
      show (idiom' (R.name f)).getD _ = ((idiom f).getD _).map _
      rw [same]
      cases idiom f <;> rfl
    | cons => rfl
  | _ => cases args <;> rfl

variable [CommRing K] [LinearOrder K]

theorem operate (h : Transports R I J) (o : Operator) (vs : List (Value K)) :
    J.operate o vs = I.operate o vs := by
  unfold Interp.operate
  rw [h.arith]

mutual
/-- The place of a renamed tree is the renamed place. -/
theorem placeWith (h : Transports R I J) {idiom idiom' : String → Option (Option (Place K))}
    (same : ∀ f, idiom' (R.name f) = (idiom f).map (Option.map (Place.rename R))) : ∀ e : Expr,
    J.placeWith idiom' (e.rename R) = (I.placeWith idiom e).map (Place.rename R)
  | .ident _ | .bool _ => rfl
  | .num digits => by
    rw [Expr.rename, Interp.placeWith, Interp.placeWith, h.literal?, Option.map_map]
    rfl
  | .not e => by
    rw [Expr.rename, Interp.placeWith, Interp.placeWith, placeWith h same e]
    cases I.placeWith idiom e with
    | none => rfl
    | some p =>
      show ((J.valueAt (p.rename R)).not?.map _) = ((I.valueAt p).not?.map _).map _
      rw [h.valueAt, Option.map_map]
      rfl
  | .neg e => by
    rw [Expr.rename, Interp.placeWith, Interp.placeWith, placeWith h same e]
    cases I.placeWith idiom e with
    | none => rfl
    | some p =>
      show ((J.valueAt (p.rename R)).neg?.map _) = ((I.valueAt p).neg?.map _).map _
      rw [h.valueAt, Option.map_map]
      rfl
  | .op o args => by
    rw [Expr.rename, Interp.placeWith, Interp.placeWith, valuesWith h same args]
    cases I.valuesWith idiom args with
    | none => rfl
    | some vs =>
      show (J.operate o vs).map _ = ((I.operate o vs).map _).map _
      rw [h.operate, Option.map_map]
      rfl
  | .call f args => by
    rw [Expr.rename, Interp.placeWith, Interp.placeWith, placeWith h same f,
      valuesWith h same args]
    cases I.placeWith idiom f with
    | none => rfl
    | some p =>
      cases I.valuesWith idiom args with
      | none => rfl
      | some vs => exact call? same p vs
  | .index base key => by
    rw [Expr.rename, Interp.placeWith, Interp.placeWith, placeWith h same base,
      placeWith h same key]
    cases I.placeWith idiom base with
    | none => rfl
    | some p =>
      cases I.placeWith idiom key with
      | none => rfl
      | some k =>
        show (p.rename R).index? (J.valueAt (k.rename R)) = (p.index? (I.valueAt k)).map _
        rw [h.valueAt, Place.index?, Place.index?, p.isBase_rename]
        split <;> rfl
  | .member base field => by
    rw [Expr.rename, Interp.placeWith, Interp.placeWith, placeWith h same base]
    cases I.placeWith idiom base with
    | none => rfl
    | some p =>
      show (p.rename R).member? (R.field field) = (p.member? field).map _
      rw [Place.member?, Place.member?, p.isBase_rename]
      split <;> rfl

theorem valuesWith (h : Transports R I J) {idiom idiom' : String → Option (Option (Place K))}
    (same : ∀ f, idiom' (R.name f) = (idiom f).map (Option.map (Place.rename R))) :
    ∀ es : List Expr, J.valuesWith idiom' (Expr.renameAll R es) = I.valuesWith idiom es
  | [] => rfl
  | e :: es => by
    rw [Expr.renameAll, Interp.valuesWith, Interp.valuesWith, placeWith h same e,
      valuesWith h same es]
    cases I.placeWith idiom e with
    | none => rfl
    | some p =>
      show (I.valuesWith idiom es).map _ = (I.valuesWith idiom es).map _
      rw [h.valueAt]
end

/-- What idioms stand for keeps its meaning: it mentions no name that is renamed. -/
theorem idiom (h : Transports R I J) (inj : R.Injective) (idioms : R.KeepsIdioms) (f : String) :
    J.idiom (R.name f) = (I.idiom f).map (Option.map (Place.rename R)) := by
  rw [Interp.idiom, Interp.idiom, Canonical.lookup_name inj idioms]
  cases found : Canonical.localIdioms.lookup f with
  | none => rfl
  | some e =>
    have fixed := (idioms.idiom f e (Canonical.mem_of_lookup found)).2
    have place : J.placeWith (fun _ => none) (e.rename R) =
        (I.placeWith (fun _ => none) e).map (Place.rename R) := placeWith h (fun _ => rfl) e
    rw [fixed] at place
    exact congrArg some place

/-- A renamed tree has the value of the tree. -/
theorem value? (h : Transports R I J) (inj : R.Injective) (idioms : R.KeepsIdioms) (e : Expr) :
    J.value? (e.rename R) = I.value? e := by
  rw [Interp.value?, Interp.value?, Interp.place?, Interp.place?,
    placeWith h (h.idiom inj idioms), Option.map_map]
  exact congrArg (Option.map · _) (funext h.valueAt)

end Transports

/-- Every meaning of the names is one of the new names. -/
theorem exists_transports {d : Domain} (inj : R.Injective) (idioms : R.KeepsIdioms)
    {I : Interp Int} (ref : I.Reference d) :
    ∃ J : Interp Int, Transports R I J ∧ J.Reference d := by
  let read : Place Int → Value Int := Function.extend (Place.rename R) I.read fun _ => .num 0
  have old : ∀ p : Place Int, read (p.rename R) = I.read p :=
    (Place.rename_injective inj).extend_apply I.read _
  refine ⟨{ I with read := read }, ⟨old, rfl, rfl⟩, { ref with flag := ?_, read_nonneg := ?_ }⟩
  · intro mask predicate mem m value x
    obtain ⟨fixed, fixed'⟩ := idioms.flag mask predicate mem
    have mask' := old (.name mask)
    have predicate' := old (.call (.name predicate) [.num x])
    rw [Place.rename, fixed] at mask'
    rw [Place.rename, Place.rename, fixed'] at predicate'
    dsimp only at value ⊢
    rw [predicate']
    exact ref.flag mask predicate mem m (mask'.symm.trans value) x
  · intro unsigned p n value
    by_cases renamed : ∃ q : Place Int, q.rename R = p
    · obtain ⟨q, rfl⟩ := renamed
      exact ref.read_nonneg unsigned q n ((old q).symm.trans value)
    · have zero : read p = .num 0 := Function.extend_apply' _ _ _ renamed
      cases zero.symm.trans value
      exact le_refl 0

/-- The new names give the old ones a meaning. -/
theorem exists_transports_to {d : Domain} (idioms : R.KeepsIdioms) {J : Interp Int}
    (ref : J.Reference d) : ∃ I : Interp Int, Transports R I J ∧ I.Reference d := by
  refine ⟨{ J with read := fun p => J.read (p.rename R) }, ⟨fun _ => rfl, rfl, rfl⟩,
    { ref with flag := ?_, read_nonneg := ?_ }⟩
  · intro mask predicate mem m value x
    obtain ⟨fixed, fixed'⟩ := idioms.flag mask predicate mem
    dsimp only [Place.rename] at value ⊢
    rw [fixed] at value
    rw [fixed']
    exact ref.flag mask predicate mem m value x
  · intro unsigned p n value
    exact ref.read_nonneg unsigned _ n value

end Interp
end PredicateStrength
