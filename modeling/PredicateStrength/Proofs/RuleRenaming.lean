import Mathlib
import PredicateStrength.Proofs.Expr.Renaming
import PredicateStrength.Rule

/-!
# Rules for renamed trees

The rules ask only which trees are equal and which values their numerals have. So they say the same
of renamed trees, as long as different names stay different.

Main statement: `Rule.implies_rename`.
-/
namespace PredicateStrength

variable {R : Renaming}

namespace Expr

/-- Different names make different trees. -/
theorem rename_injective (inj : R.Injective) : Function.Injective (rename R) := by
  intro a
  induction a using inductionOnParts with
  | node a ih =>
    have each : ∀ as : List Expr, (∀ c ∈ as, c ∈ a.parts) → ∀ bs : List Expr,
        renameAll R as = renameAll R bs → as = bs := by
      intro as
      induction as with
      | nil => intro _ bs same; cases bs <;> first | rfl | cases same
      | cons c as ihs =>
        intro mem bs same
        obtain ⟨here, later⟩ := List.forall_mem_cons.1 mem
        cases bs with
        | nil => cases same
        | cons b bs =>
          obtain ⟨first, rest⟩ := List.cons.inj same
          rw [ih c here first, ihs later bs rest]
    intro b same
    cases a with
    | op o args =>
      cases b <;> simp only [rename, op.injEq, reduceCtorEq] at same
      rw [same.1, each args (fun _ mem => mem) _ same.2]
    | call f args =>
      cases b <;> simp only [rename, call.injEq, reduceCtorEq] at same
      rw [ih f List.mem_cons_self same.1, each args (fun _ => List.mem_cons_of_mem f) _ same.2]
    | ident x =>
      cases b <;> simp only [rename, ident.injEq, reduceCtorEq] at same
      rw [inj.name same]
    | member base field =>
      cases b <;> simp only [rename, member.injEq, reduceCtorEq] at same
      rw [ih base (by simp [parts]) same.1, inj.field same.2]
    | _ => cases b <;> simp_all [rename, parts] <;> grind

theorem relation?_rename (e : Expr) :
    (e.rename R).relation? = e.relation?.map fun (o, a, b) => (o, a.rename R, b.rename R) := by
  cases e with
  | op o args =>
    rcases args with _ | ⟨a, _ | ⟨b, _ | ⟨c, cs⟩⟩⟩
    case cons.cons.nil =>
      cases rel : o.isRelational <;> simp [rename, renameAll, relation?, rel]
    all_goals rfl
  | _ => rfl

theorem literalValue?_rename : ∀ e : Expr, (e.rename R).literalValue? = e.literalValue?
  | .neg e => by rw [rename, literalValue?, literalValue?, literalValue?_rename e]
  | .num _ => rfl
  | .ident _ | .bool _ | .not _ | .op _ _ | .call _ _ | .index _ _ | .member _ _ => rfl

theorem operands_rename (o : Operator) (e : Expr) :
    (e.rename R).operands o = (e.operands o).map (rename R) := by
  cases e with
  | op p args =>
    rw [rename, operands, operands, renameAll_eq_map]
    split
    · rfl
    · rw [List.map_singleton, rename, renameAll_eq_map]
  | _ => rfl

end Expr

namespace Rule
open PredicateStrength.Expr

theorem relationalStrength_rename (inj : R.Injective) (a b : Expr) :
    relationalStrength (a.rename R) (b.rename R) = relationalStrength a b := by
  rw [relationalStrength, relationalStrength, relation?_rename, relation?_rename]
  cases a.relation? with
  | none => rfl
  | some r =>
    cases b.relation? with
    | none => rfl
    | some s => simp [(rename_injective inj).eq_iff]

theorem boundedTerm?_rename (e : Expr) :
    boundedTerm? (e.rename R) = (boundedTerm? e).map fun (t, r) => (t.rename R, r) := by
  rw [boundedTerm?, boundedTerm?, relation?_rename]
  cases e.relation? with
  | none => rfl
  | some r =>
    obtain ⟨o, lhs, rhs⟩ := r
    simp only [Option.map_some, literalValue?_rename]
    cases lhs.literalValue? <;> cases rhs.literalValue? <;> rfl

theorem literalBound_rename (inj : R.Injective) (a b : Expr) :
    literalBound (a.rename R) (b.rename R) = literalBound a b := by
  rw [literalBound, literalBound, boundedTerm?_rename, boundedTerm?_rename]
  cases boundedTerm? a with
  | none => rfl
  | some s =>
    cases boundedTerm? b with
    | none => rfl
    | some t => simp [(rename_injective inj).eq_iff]

theorem mem_rename (inj : R.Injective) {e : Expr} {es : List Expr} :
    e.rename R ∈ renameAll R es ↔ e ∈ es := by
  rw [renameAll_eq_map, List.mem_map_of_injective (rename_injective inj)]

theorem conjunctionElimination_rename (inj : R.Injective) (a b : Expr) :
    conjunctionElimination (a.rename R) (b.rename R) = conjunctionElimination a b := by
  cases a with
  | op o args =>
    cases o
    case and =>
      simp [conjunctionElimination, rename, operands_rename, List.all_map, mem_rename inj,
        Function.comp_def]
    all_goals rfl
  | _ => rfl

theorem disjunctionIntroduction_rename (inj : R.Injective) (a b : Expr) :
    disjunctionIntroduction (a.rename R) (b.rename R) = disjunctionIntroduction a b := by
  cases b with
  | op o args =>
    cases o
    case or =>
      simp [disjunctionIntroduction, rename, operands_rename, List.all_map, mem_rename inj,
        Function.comp_def]
    all_goals rfl
  | _ => rfl

theorem directlyImplies_rename (inj : R.Injective) (a b : Expr) :
    directlyImplies (a.rename R) (b.rename R) = directlyImplies a b := by
  simp [directlyImplies, relationalStrength_rename inj, literalBound_rename inj,
    (rename_injective inj).eq_iff]

mutual
theorem reachesDisjunct_rename {reaches reaches' : Expr → Bool}
    (same : ∀ e : Expr, reaches' (e.rename R) = reaches e) : ∀ e : Expr,
    reachesDisjunct reaches' (e.rename R) = reachesDisjunct reaches e
  | .op o args => by
    have root := same (.op o args)
    cases o
    case or =>
      rw [rename] at root ⊢
      rw [reachesDisjunct, reachesDisjunct, root, reachesSomeDisjunct_rename same args]
    all_goals exact root
  | .ident _ | .num _ | .bool _ | .not _ | .neg _ | .call _ _ | .index _ _ | .member _ _ => same _

theorem reachesSomeDisjunct_rename {reaches reaches' : Expr → Bool}
    (same : ∀ e : Expr, reaches' (e.rename R) = reaches e) : ∀ es : List Expr,
    reachesSomeDisjunct reaches' (renameAll R es) = reachesSomeDisjunct reaches es
  | [] => rfl
  | e :: es => by
    rw [renameAll, reachesSomeDisjunct, reachesSomeDisjunct, reachesDisjunct_rename same e,
      reachesSomeDisjunct_rename same es]
end

/-- What is no disjunction implies a clause by itself. -/
theorem clauseImplies_of_ne {a : Expr} (plain : ∀ ds, a ≠ .op .or ds) (b : Expr) :
    clauseImplies a b = reachesDisjunct (directlyImplies a) b := by
  cases a with
  | op o args => cases o <;> first | exact absurd rfl (plain args) | simp only [clauseImplies]
  | _ => simp only [clauseImplies]

theorem clauseImplies_rename_of_ne (inj : R.Injective) {a : Expr} (plain : ∀ ds, a ≠ .op .or ds)
    (b : Expr) : clauseImplies (a.rename R) (b.rename R) = clauseImplies a b := by
  have image : ∀ ds, a.rename R ≠ .op .or ds := by
    cases a <;> simp_all [rename]
  rw [clauseImplies_of_ne image, clauseImplies_of_ne plain]
  exact reachesDisjunct_rename (directlyImplies_rename inj a) b

mutual
theorem clauseImplies_rename (inj : R.Injective) : ∀ a b : Expr,
    clauseImplies (a.rename R) (b.rename R) = clauseImplies a b
  | .op o args, b => by
    cases o
    case or =>
      rw [rename, clauseImplies, clauseImplies]
      refine reachesDisjunct_rename (fun c => ?_) b
      rw [allImply_rename inj args c]
      exact congrArg (· || _) (directlyImplies_rename inj (.op .or args) c)
    all_goals exact clauseImplies_rename_of_ne inj (by simp) b
  | .ident _, b | .num _, b | .bool _, b | .not _, b | .neg _, b | .call _ _, b | .index _ _, b
  | .member _ _, b => clauseImplies_rename_of_ne inj (by simp) b

theorem allImply_rename (inj : R.Injective) : ∀ (as : List Expr) (b : Expr),
    allImply (renameAll R as) (b.rename R) = allImply as b
  | [], _ => rfl
  | a :: as, b => by
    rw [renameAll, allImply, allImply, clauseImplies_rename inj a b, allImply_rename inj as b]
end

theorem clauseSubsumption_rename (inj : R.Injective) (a b : Expr) :
    clauseSubsumption (a.rename R) (b.rename R) = clauseSubsumption a b := by
  simp [clauseSubsumption, operands_rename, List.all_map, List.any_map, Function.comp_def,
    clauseImplies_rename inj]

/-- A rule says the same of renamed trees. -/
theorem implies_rename (inj : R.Injective) {r : Rule} (known : r ∈ Rule.all) (a b : Expr) :
    r.implies (a.rename R) (b.rename R) = r.implies a b := by
  simp only [Rule.all, List.mem_cons, List.not_mem_nil, or_false] at known
  rcases known with rfl | rfl | rfl | rfl | rfl
  · exact relationalStrength_rename inj a b
  · exact literalBound_rename inj a b
  · exact conjunctionElimination_rename inj a b
  · exact disjunctionIntroduction_rename inj a b
  · exact clauseSubsumption_rename inj a b

end Rule
end PredicateStrength
