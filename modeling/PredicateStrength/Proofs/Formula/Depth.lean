import Mathlib
import PredicateStrength.Proofs.Formula.Settling

/-!
# Depth bounds the number of rounds

A formula settles in as many rounds as junctions of alternating kind lie inside one another. A
negation takes one round to be pushed inward, and negated constraints become junctions.

Main statements: simplifying is idempotent on formulas whose depth is at most the limit of rounds
(`Formula.simplify_simplify`), and not on all formulas (`Formula.simplify_simplify_ne`); no other
limit would do for all of them (`Formula.exists_step_ne`).
-/
namespace PredicateStrength

variable {d : Domain} {j : Junction}

namespace Junction

/-- The other junction. -/
def dual : Junction → Junction
  | .all => .any
  | .any => .all

@[simp] theorem dual_dual (j : Junction) : j.dual.dual = j := by cases j <;> rfl

theorem eq_or_eq_dual (j k : Junction) : j = k ∨ j = k.dual := by
  cases j <;> cases k <;> simp [dual]

end Junction

namespace Formula

mutual
/-- How many junctions of alternating kind lie inside one another in an operand of a junction. A
negation of more than a proposition counts as two. -/
@[simp] def depthIn : Junction → Formula → Nat
  | _, .const _ | _, .prop _ | _, .constraint _ | _, .not (.prop _) => 0
  | _, .not f => max (depthIn .all f) (depthIn .any f) + 2
  | j, .and fs => depthInAll .all fs + if j = .all then 0 else 1
  | j, .or fs => depthInAll .any fs + if j = .any then 0 else 1

@[simp] def depthInAll : Junction → List Formula → Nat
  | _, [] => 0
  | j, f :: fs => max (depthIn j f) (depthInAll j fs)
end

/-- How many junctions of alternating kind lie inside one another. -/
def depth (f : Formula) : Nat := max (depthIn .all f) (depthIn .any f)

theorem depthInAll_le {fs : List Formula} {n : Nat} :
    depthInAll j fs ≤ n ↔ ∀ f ∈ fs, depthIn j f ≤ n := by
  induction fs with
  | nil => simp [depthInAll]
  | cons f fs ih => rw [depthInAll, max_le_iff, ih, List.forall_mem_cons]

variable {f : Formula} {fs : List Formula}

theorem depthIn_of_parts? (parts : j.parts? f = some fs) :
    depthIn j f = depthInAll j fs ∧ depthIn j.dual f = depthInAll j fs + 1 := by
  cases j <;> cases f <;> cases parts <;> simp [depthIn, Junction.dual]

theorem depthIn_literal (literal : IsLiteral f) : depthIn j f = 0 := by
  cases literal <;> rw [depthIn]

theorem depthIn_not (other : ∀ a, f ≠ .prop a) : depthIn j (.not f) = f.depth + 2 := by
  rw [depthIn, depth]
  exact other

theorem depthIn_le_depth (j : Junction) (f : Formula) : depthIn j f ≤ f.depth := by
  cases j
  · exact le_max_left _ _
  · exact le_max_right _ _

theorem depth_le {n : Nat} : f.depth ≤ n ↔ ∀ j, depthIn j f ≤ n :=
  ⟨fun h j => (depthIn_le_depth j f).trans h, fun h => max_le (h .all) (h .any)⟩

theorem depthIn_dual_le (j : Junction) (f : Formula) : depthIn j.dual f ≤ depthIn j f + 1 := by
  cases f
  case and fs => cases j <;> simp [depthIn, Junction.dual]; omega
  case or fs => cases j <;> simp [depthIn, Junction.dual]; omega
  case not f =>
    by_cases prop : ∃ a, f = .prop a
    · obtain ⟨a, rfl⟩ := prop
      rw [depthIn_literal (.notProp a)]
      exact Nat.zero_le _
    · have other := not_exists.1 prop
      rw [depthIn_not other, depthIn_not other]
      exact Nat.le_succ _
  all_goals simp [depthIn]

theorem brings_depthIn_iff {n : Nat} : j.Brings (fun g => depthIn j g ≤ n) f ↔ depthIn j f ≤ n := by
  constructor
  · rintro (⟨b, rfl⟩ | kind)
    · simp [depthIn]
    · cases parts : j.parts? f with
      | none => exact kind f (by simp [parts])
      | some fs =>
        rw [parts] at kind
        rw [(depthIn_of_parts? parts).1]
        exact depthInAll_le.2 kind
  · intro bound
    refine Junction.brings_of_forall (fun _ _ => bound) fun fs parts => ?_
    rw [(depthIn_of_parts? parts).1] at bound
    exact depthInAll_le.1 bound

/-- A formula made by junctions of formulas of a kind. -/
inductive Joined (L : Formula → Prop) : Formula → Prop
  | leaf {f : Formula} (kind : L f) : Joined L f
  | junction {j : Junction} {f : Formula} {fs : List Formula} (parts : j.parts? f = some fs)
      (operands : ∀ g ∈ fs, Joined L g) : Joined L f

theorem negate_of_parts? (parts : j.parts? f = some fs) :
    j.dual.parts? f.negate = some (fs.map negate) := by
  cases j <;> cases f <;> cases parts <;>
    simp [negate, negateAll_eq_map, Junction.dual, Junction.parts?]

theorem joined_anyOf {fs : List Formula} (literals : ∀ f ∈ fs, IsLiteral f) :
    Joined IsLiteral (anyOf fs) ∧ depthIn j (anyOf fs) ≤ 1 := by
  match fs with
  | [] => exact ⟨.leaf (.const false), by simp [anyOf, depthIn]⟩
  | [f] =>
    have literal := literals f (.head _)
    exact ⟨.leaf literal, by rw [anyOf, depthIn_literal literal]; exact Nat.zero_le 1⟩
  | f :: g :: fs =>
    have parts : Junction.any.parts? (anyOf (f :: g :: fs)) = some (f :: g :: fs) := rfl
    refine ⟨.junction parts fun g mem => .leaf (literals g mem), ?_⟩
    have flat : depthInAll .any (f :: g :: fs) ≤ 0 :=
      depthInAll_le.2 fun g mem => (depthIn_literal (literals g mem)).le
    obtain ⟨same, other⟩ := depthIn_of_parts? parts
    cases j
    · exact other.le.trans (Nat.succ_le_succ flat)
    · exact same.le.trans (flat.trans (Nat.zero_le 1))

theorem joined_negate (joined : Joined IsLiteral f) :
    Joined IsLiteral f.negate ∧ ∀ j : Junction, depthIn j f.negate ≤ depthIn j.dual f + 1 := by
  induction joined with
  | leaf literal =>
    cases literal with
    | const b => exact ⟨.leaf (.const _), fun j => by simp [negate, depthIn]⟩
    | prop a => exact ⟨.leaf (.notProp a), fun j => by simp [negate, depthIn]⟩
    | notProp a => exact ⟨.leaf (.prop a), fun j => by simp [negate, depthIn]⟩
    | constraint c =>
      have literals : ∀ f ∈ c.complement.map constraint, IsLiteral f :=
        List.forall_mem_map.2 fun e _ => .constraint e
      refine ⟨(joined_anyOf (j := .all) literals).1, fun j => ?_⟩
      rw [depthIn_literal (.constraint c)]
      exact (joined_anyOf literals).2
  | @junction k f fs parts _ ih =>
    have parts' := negate_of_parts? parts
    refine ⟨.junction parts' (List.forall_mem_map.2 fun g mem => (ih g mem).1), fun j => ?_⟩
    have inside : depthInAll k.dual (fs.map negate) ≤ depthInAll k fs + 1 := by
      refine depthInAll_le.2 (List.forall_mem_map.2 fun g mem => ((ih g mem).2 _).trans ?_)
      rw [Junction.dual_dual]
      exact Nat.succ_le_succ (depthInAll_le.1 le_rfl g mem)
    obtain ⟨same, other⟩ := depthIn_of_parts? parts
    obtain ⟨same', other'⟩ := depthIn_of_parts? parts'
    rcases Junction.eq_or_eq_dual j k with rfl | rfl
    · rw [Junction.dual_dual] at other'
      omega
    · rw [Junction.dual_dual]
      omega

theorem brings_joined_iff : j.Brings (Joined IsLiteral) f ↔ Joined IsLiteral f := by
  constructor
  · rintro (⟨b, rfl⟩ | kind)
    · exact .leaf (.const b)
    · cases parts : j.parts? f with
      | none => exact kind f (by simp [parts])
      | some fs =>
        rw [parts] at kind
        exact .junction parts kind
  · intro joined
    refine Junction.brings_of_forall (fun _ _ => joined) fun fs parts => ?_
    cases joined with
    | leaf literal =>
      rw [literal.parts?] at parts
      cases parts
    | junction parts' operands =>
      obtain ⟨-, rfl⟩ := Junction.parts?_unique parts parts'
      exact operands

theorem joined_combine {parts : List Formula} (every : ∀ f ∈ parts, Joined IsLiteral f) :
    Joined IsLiteral (j.combine d parts) :=
  brings_joined_iff.1 (Junction.brings_combine (fun c _ => .leaf (.constraint c))
    (fun _ => brings_joined_iff.2) fun f mem => brings_joined_iff.2 (every f mem))

theorem depthIn_combine_le (parts : List Formula) :
    depthIn j (j.combine d parts) ≤ depthInAll j parts := by
  refine brings_depthIn_iff.1 (Junction.brings_combine (fun c _ => ?_)
    (fun _ => brings_depthIn_iff.2) fun f mem => brings_depthIn_iff.2 (depthInAll_le.1 le_rfl f mem))
  rw [depthIn_literal (.constraint c)]
  exact Nat.zero_le _

mutual
/-- What a round leaves has negations on propositions only. -/
theorem joined_step (d : Domain) : ∀ f : Formula, Joined IsLiteral (f.step d)
  | .const b => .leaf (.const b)
  | .prop a => .leaf (.prop a)
  | .constraint c => .leaf (IsLiteral.constraint c).step.1
  | .not f => (joined_negate (joined_step d f)).1
  | .and fs => joined_combine (joined_stepAll d fs)
  | .or fs => joined_combine (joined_stepAll d fs)

theorem joined_stepAll (d : Domain) : ∀ fs : List Formula, ∀ f ∈ stepAll d fs, Joined IsLiteral f
  | [] => by simp [stepAll]
  | f :: fs => List.forall_mem_cons.2 ⟨joined_step d f, joined_stepAll d fs⟩
end

theorem depthIn_junction_le {k : Junction} {parts : List Formula} (nested : k.parts? f = some fs)
    (eq : f.step d = k.combine d parts) (bound : depthInAll k parts ≤ depthInAll k fs)
    (j : Junction) : depthIn j (f.step d) ≤ depthIn j f := by
  obtain ⟨same, other⟩ := depthIn_of_parts? nested
  have inside := (depthIn_combine_le (j := k) (d := d) parts).trans bound
  rw [eq]
  rcases Junction.eq_or_eq_dual j k with rfl | rfl
  · omega
  · have outside := depthIn_dual_le k (k.combine d parts)
    omega

mutual
/-- A round does not make a formula deeper. -/
theorem depthIn_step_le (d : Domain) : ∀ (f : Formula) (j : Junction),
    depthIn j (f.step d) ≤ depthIn j f
  | .const b, _ => le_rfl
  | .prop a, _ => le_rfl
  | .constraint c, _ => by
    rw [depthIn_literal (IsLiteral.constraint c).step.1]
    exact Nat.zero_le _
  | .not f, j => by
    by_cases prop : ∃ a, f = .prop a
    · obtain ⟨a, rfl⟩ := prop
      exact le_rfl
    · have inner := depthIn_step_le d f j.dual
      have pushed := (joined_negate (joined_step d f)).2 j
      have within := depthIn_le_depth j.dual f
      rw [depthIn_not (not_exists.1 prop), step]
      omega
  | .and fs, j => depthIn_junction_le rfl rfl (depthIn_stepAll_le d fs .all) j
  | .or fs, j => depthIn_junction_le rfl rfl (depthIn_stepAll_le d fs .any) j

theorem depthIn_stepAll_le (d : Domain) : ∀ (fs : List Formula) (j : Junction),
    depthInAll j (stepAll d fs) ≤ depthInAll j fs
  | [], _ => le_rfl
  | f :: fs, j => max_le_max (depthIn_step_le d f j) (depthIn_stepAll_le d fs j)
end

/-- Literals, and above them the formulas that settle by then. -/
def Level (d : Domain) : Nat → Formula → Prop
  | 0 => IsLiteral
  | n + 1 => Settling d n

theorem Joined.nest {L : Formula → Prop}
    (leaf : ∀ f, L f → ∀ j n, depthIn j f ≤ n → Level d n f) (joined : Joined L f) {j : Junction}
    {n : Nat} (bound : depthIn j f ≤ n) : Nest j (Level d n) f := by
  induction joined generalizing j n with
  | leaf kind => exact .leaf (leaf _ kind j n bound)
  | @junction k f fs parts _ ih =>
    obtain ⟨same, other⟩ := depthIn_of_parts? parts
    rcases Junction.eq_or_eq_dual j k with rfl | rfl
    · rw [same, depthInAll_le] at bound
      exact .nested parts fun g mem => ih g mem (bound g mem)
    · obtain ⟨n, rfl⟩ : ∃ m, n = m + 1 := ⟨n - 1, by omega⟩
      rw [other, Nat.succ_le_succ_iff, depthInAll_le] at bound
      have operands : ∀ g ∈ fs, Nest k (Level d n) g := fun g mem => ih g mem (bound g mem)
      cases n with
      | zero => exact .leaf (Prompt.junction parts operands)
      | succ n => exact .leaf (Later.junction parts operands)

/-- A junction is nested in one of the two junctions only. -/
theorem settling_of_nest {n : Nat} (nest : ∀ j, Nest j (Level d (n + 1)) f) : Settling d n f := by
  cases nest .all with
  | leaf settling => exact settling
  | nested parts _ =>
    cases nest .any with
    | leaf settling => exact settling
    | nested parts' _ => cases (Junction.parts?_unique parts parts').1

theorem level_of_literal (literal : IsLiteral f) (n : Nat) : Level d n f := by
  cases n with
  | zero => exact literal
  | succ n => exact .of_prompt (.literal literal) n

/-- A negation is pushed inward in one round, and then the depth of its operand counts. -/
theorem level_of_not (other : ∀ a, f ≠ .prop a) {n : Nat} (bound : depthIn j (.not f) ≤ n) :
    Level d n (.not f) := by
  rw [depthIn_not other] at bound
  obtain ⟨n, rfl⟩ : ∃ m, n = m + 2 := ⟨n - 2, by omega⟩
  refine Later.negation (settling_of_nest fun k => (joined_step d f.not).nest
    (fun g literal _ m _ => level_of_literal literal m) ?_)
  have inner := depthIn_step_le d f k.dual
  have pushed := (joined_negate (joined_step d f)).2 k
  have within := depthIn_le_depth k.dual f
  rw [step]
  omega

mutual
theorem joined : ∀ f : Formula,
    Joined (fun g => IsLiteral g ∨ ∃ h, g = .not h ∧ ∀ a, h ≠ .prop a) f
  | .const b => .leaf (.inl (.const b))
  | .prop a => .leaf (.inl (.prop a))
  | .constraint c => .leaf (.inl (.constraint c))
  | .not f => by
    by_cases prop : ∃ a, f = .prop a
    · obtain ⟨a, rfl⟩ := prop
      exact .leaf (.inl (.notProp a))
    · exact .leaf (.inr ⟨f, rfl, not_exists.1 prop⟩)
  | .and fs => .junction (j := .all) rfl (joinedAll fs)
  | .or fs => .junction (j := .any) rfl (joinedAll fs)

theorem joinedAll : ∀ fs : List Formula, ∀ f ∈ fs,
    Joined (fun g => IsLiteral g ∨ ∃ h, g = .not h ∧ ∀ a, h ≠ .prop a) f
  | [] => by simp
  | f :: fs => List.forall_mem_cons.2 ⟨joined f, joinedAll fs⟩
end

theorem settling_of_depth {n : Nat} (bound : f.depth ≤ n + 1) : Settling d n f := by
  refine settling_of_nest fun j => (joined f).nest (fun g kind k m bound => ?_)
    (depth_le.1 bound j)
  rcases kind with literal | ⟨h, rfl, other⟩
  · exact level_of_literal literal m
  · exact level_of_not other bound

theorem steps_eq_iterate (d : Domain) (n : Nat) (f : Formula) : f.steps d n = (step d)^[n] f := by
  induction n generalizing f with
  | zero => rfl
  | succ n ih =>
    rw [steps, Function.iterate_succ_apply]
    split
    · next fixed =>
      have same : (step d)^[n] f = f := Function.iterate_fixed fixed n
      rw [fixed, same]
    · exact ih _

theorem Stable.steps_eq (stable : Stable d f) (n : Nat) : f.steps d n = f := by
  rw [steps_eq_iterate]
  exact Function.iterate_fixed stable.step_eq n

/-- As many rounds as the formula is deep make it stable. -/
theorem stable_steps {n : Nat} (bound : f.depth ≤ n + 1) : Stable d (f.steps d (n + 1)) := by
  rw [steps_eq_iterate]
  exact stable_iterate (settling_of_depth bound)

/-- Simplifying is idempotent on formulas of a depth up to the limit of rounds. -/
theorem simplify_simplify (d : Domain) (f : Formula) (shallow : f.depth ≤ maxRounds) :
    (f.simplify d).simplify d = f.simplify d :=
  (stable_steps shallow).steps_eq maxRounds

/-- `x <= 1 && (p || x <= 0) && y == 2 || !(y > 1)`, three deep. -/
def mixed : Formula :=
  .or [.and [.constraint ⟨.symbol "x", .range none (some 1)⟩,
      .or [.prop (.symbol "p"), .constraint ⟨.symbol "x", .range none (some 0)⟩],
      .constraint ⟨.symbol "y", .range (some 2) (some 2)⟩],
    .not (.constraint ⟨.symbol "y", .range (some 2) none⟩)]

theorem simplify_simplify_mixed :
    mixed.depth = 3 ∧ (mixed.simplify .unsigned).simplify .unsigned = mixed.simplify .unsigned :=
  ⟨by decide, simplify_simplify .unsigned mixed (by decide)⟩

/-- `lo <= x && x <= hi`; a missing end is unbounded. -/
def between (lo hi : Option Int) : Formula := .constraint ⟨.symbol "x", .range lo hi⟩

/-- The constraint that a level of a tower comes to. -/
def core : Junction → Formula
  | .all => between (some 1) (some 1)
  | .any => between (some 1) (some 2)

/-- The constraint of a level that makes it `core` with what the level inside it comes to. -/
def edge : Junction → Formula
  | .all => between none (some 1)
  | .any => between (some 2) (some 2)

/-- The operand of a level that `core` absorbs. -/
def guarded : Junction → Formula
  | .all => .or [.prop (.symbol "p"), core .all]
  | .any => .and [.prop (.symbol "p"), core .any]

/-- A level that is merged, and has still to absorb. -/
def mergedLevel (j : Junction) : Formula := j.join [core j, guarded j]

/-- A level that has still to be merged. -/
def openLevel (j : Junction) : Formula := j.join [edge j, core j.dual, guarded j]

/-- Levels of alternating junctions around an innermost one. -/
def tower (innermost : Junction → Formula) : Nat → Junction → Formula
  | 0, j => innermost j
  | n + 1, j => j.join [edge j, guarded j, tower innermost n j.dual]

theorem tower_succ (innermost : Junction → Formula) (n : Nat) (j : Junction) :
    tower innermost (n + 1) j = tower (tower innermost 1) n j := by
  induction n generalizing j with
  | zero => rfl
  | succ n ih => rw [tower, ih, ← tower]

theorem step_mergedLevel (d : Domain) (j : Junction) : (mergedLevel j).step d = core j := by
  cases j <;> cases d <;> cbv

theorem step_openLevel (d : Domain) (j : Junction) : (openLevel j).step d = mergedLevel j := by
  cases j <;> cases d <;> cbv

/-- Around a level that does not come to a constraint, a round changes nothing. -/
theorem combine_tower (d : Domain) (n : Nat) (j : Junction) :
    j.combine d [edge j, guarded j, tower mergedLevel n j.dual] =
      tower mergedLevel (n + 1) j := by
  have nested (n : Nat) : ∃ fs, tower mergedLevel n j = j.join fs := by
    cases n <;> exact ⟨_, rfl⟩
  cases n with
  | zero => cases j <;> cases d <;> cbv
  | succ n =>
    obtain ⟨fs, eq⟩ := nested n
    simp only [tower, Junction.dual_dual, eq]
    cases j <;> cases d <;> cbv

/-- A round merges the innermost level and leaves the others. -/
theorem step_tower {innermost : Junction → Formula}
    (merges : ∀ j, (innermost j).step d = mergedLevel j) (n : Nat) (j : Junction) :
    (tower innermost n j).step d = tower mergedLevel n j := by
  induction n generalizing j with
  | zero => exact merges j
  | succ n ih =>
    have fixed : (edge j).step d = edge j ∧ (guarded j).step d = guarded j := by
      cases j <;> cases d <;> constructor <;> cbv
    rw [tower, Junction.step_of_parts? (Junction.parts?_join _), List.map_cons, List.map_cons,
      List.map_singleton, fixed.1, fixed.2, ih, combine_tower]

theorem iterate_step_merged (d : Domain) (n : Nat) (j : Junction) :
    (step d)^[n] (tower mergedLevel n j) = mergedLevel j := by
  induction n with
  | zero => rfl
  | succ n ih =>
    have merges (j : Junction) : (tower mergedLevel 1 j).step d = mergedLevel j := by
      cases j <;> cases d <;> cbv
    rw [Function.iterate_succ_apply, tower_succ, step_tower merges, ih]

theorem steps_tower (d : Domain) (n : Nat) (j : Junction) :
    (tower openLevel n j).steps d (n + 1) = mergedLevel j := by
  rw [steps_eq_iterate, Function.iterate_succ_apply, step_tower (step_openLevel d),
    iterate_step_merged]

theorem depthIn_tower (n : Nat) (j : Junction) : depthIn j (tower openLevel n j) = n + 1 ∧
    depthIn j.dual (tower openLevel n j) = n + 2 := by
  induction n generalizing j with
  | zero => cases j <;> decide
  | succ n ih =>
    have shallow : depthIn j (edge j) = 0 ∧ depthIn j (guarded j) = 1 := by cases j <;> decide
    have inside := (ih j.dual).2
    rw [Junction.dual_dual] at inside
    have operands : depthInAll j [edge j, guarded j, tower openLevel n j.dual] = n + 2 := by
      simp [depthInAll, shallow, inside]
    obtain ⟨same, other⟩ := depthIn_of_parts? (j := j) (Junction.parts?_join
      [edge j, guarded j, tower openLevel n j.dual])
    exact ⟨same.trans operands, other.trans (by rw [operands])⟩

/-- A formula may need as many rounds as it is deep, so no limit would do for all. -/
theorem exists_step_ne (d : Domain) (n : Nat) :
    ∃ f : Formula, f.depth = n + 2 ∧ (f.steps d (n + 1)).step d ≠ f.steps d (n + 1) := by
  refine ⟨tower openLevel n .all, ?_, ?_⟩
  · have inside : depthIn .all (tower openLevel n .all) = n + 1 := (depthIn_tower n .all).1
    have outside : depthIn .any (tower openLevel n .all) = n + 2 := (depthIn_tower n .all).2
    rw [depth, inside, outside]
    omega
  · rw [steps_tower, step_mergedLevel]
    simp [core, between, mergedLevel, Junction.join]

/-- The formula `x == 2 || p && x >= 1 && x <= 2 || x <= 1 && (p || x == 1) && (..)` with eight
levels is left half way. -/
theorem simplify_simplify_ne :
    ∃ f : Formula, ∀ d : Domain, (f.simplify d).simplify d ≠ f.simplify d := by
  refine ⟨tower openLevel 7 .any, fun d => ?_⟩
  have left : (tower openLevel 7 .any).simplify d = mergedLevel .any := steps_tower d 7 .any
  have stable : Stable d (core .any) := .constraint (by cases d <;> rfl)
  have again : (mergedLevel .any).simplify d = core .any := by
    rw [simplify, maxRounds, steps_eq_iterate, Function.iterate_succ_apply, step_mergedLevel,
      ← steps_eq_iterate, stable.steps_eq]
  rw [left, again]
  simp [core, between, mergedLevel, Junction.join]

end Formula
end PredicateStrength
