import Mathlib
import PredicateStrength.Expr.Canonical

/-!
# Rules carried through trees, and rounds of them

A tree is a node with its parts. Carrying a rule through a tree rebuilds each node from its
finished parts and applies the rule to it. So what holds of every node that a rule is applied to
holds of the tree that comes out, and a rule that changes no node changes no tree.

Main statements: rounds that stop at a settled tree are iterations of a single round
(`rounds_eq_iterate`), and a tree has the canonical form of what a round makes of it
(`canonical_eq_of_round_eq`).
-/
namespace PredicateStrength

namespace Expr

/-- The parts of the root. -/
def parts : Expr → List Expr
  | .ident _ | .num _ | .bool _ => []
  | .not e | .neg e | .member e _ => [e]
  | .op _ args => args
  | .call f args => f :: args
  | .index base key => [base, key]

/-- The root with every part replaced. -/
def mapParts (g : Expr → Expr) : Expr → Expr
  | .ident name => .ident name
  | .num digits => .num digits
  | .bool b => .bool b
  | .not e => .not (g e)
  | .neg e => .neg (g e)
  | .op o args => .op o (args.map g)
  | .call f args => .call (g f) (args.map g)
  | .index base key => .index (g base) (g key)
  | .member base field => .member (g base) field

theorem parts_mapParts (g : Expr → Expr) (e : Expr) : (e.mapParts g).parts = e.parts.map g := by
  cases e <;> rfl

theorem mapParts_eq_self {g : Expr → Expr} {e : Expr} (h : ∀ c ∈ e.parts, g c = c) :
    e.mapParts g = e := by
  have same : ∀ es : List Expr, (∀ c ∈ es, g c = c) → es.map g = es := fun es fixed =>
    (List.map_congr_left fixed).trans (List.map_id' es)
  cases e with
  | op o args => exact congrArg (Expr.op o) (same args h)
  | call f args =>
    obtain ⟨callee, rest⟩ := List.forall_mem_cons.1 h
    exact congrArg₂ Expr.call callee (same args rest)
  | _ => simp_all [parts, mapParts]

theorem sizeOf_lt_of_mem_parts {c e : Expr} (h : c ∈ e.parts) : sizeOf c < sizeOf e := by
  cases e with
  | op o args =>
    have smaller : sizeOf c < sizeOf args := List.sizeOf_lt_of_mem h
    simp only [op.sizeOf_spec]
    omega
  | call f args =>
    simp only [call.sizeOf_spec]
    rcases List.mem_cons.1 h with rfl | mem
    · omega
    · have smaller := List.sizeOf_lt_of_mem mem
      omega
  | _ => simp [parts] at h <;> grind

/-- What passes from the parts of a node to the node holds of every tree. -/
@[elab_as_elim]
theorem inductionOnParts {motive : Expr → Prop}
    (node : ∀ e, (∀ c ∈ e.parts, motive c) → motive e) (e : Expr) : motive e :=
  node e fun c _ => inductionOnParts node c
termination_by sizeOf e
decreasing_by exact sizeOf_lt_of_mem_parts ‹_›

/-- A rule carried through a tree is applied to the root last. -/
theorem bottomUp_eq (rule : Expr → Expr) (e : Expr) :
    bottomUp rule e = rule (e.mapParts (bottomUp rule)) := by
  cases e <;> simp [bottomUp, mapParts, bottomUpAll_eq_map]

/-- The property holds of every node. -/
inductive Everywhere (p : Expr → Prop) : Expr → Prop
  | node {e : Expr} (root : p e) (parts : ∀ c ∈ e.parts, Everywhere p c) : Everywhere p e

namespace Everywhere

variable {p q : Expr → Prop} {e : Expr} {rule : Expr → Expr}

theorem root (h : Everywhere p e) : p e := by
  cases h with
  | node root _ => exact root

theorem part (h : Everywhere p e) {c : Expr} (mem : c ∈ e.parts) : Everywhere p c := by
  cases h with
  | node _ parts => exact parts c mem

/-- A node of two operands. -/
theorem pair {o : Operator} {a b : Expr} (root : p (.op o [a, b])) (left : Everywhere p a)
    (right : Everywhere p b) : Everywhere p (.op o [a, b]) :=
  .node root (List.forall_mem_cons.2 ⟨left, List.forall_mem_singleton.2 right⟩)

theorem mono (h : Everywhere p e) (imp : ∀ e, p e → q e) : Everywhere q e := by
  induction e using inductionOnParts with
  | node e ih => exact .node (imp e h.root) fun c mem => ih c mem (h.part mem)

theorem of_forall (h : ∀ e, p e) (e : Expr) : Everywhere p e := by
  induction e using inductionOnParts with
  | node e ih => exact .node (h e) ih

theorem and (h : Everywhere p e) (h' : Everywhere q e) : Everywhere (fun c => p c ∧ q c) e := by
  induction e using inductionOnParts with
  | node e ih =>
    exact .node ⟨h.root, h'.root⟩ fun c mem => ih c mem (h.part mem) (h'.part mem)

theorem forall_of {ι : Type} {p : ι → Expr → Prop} (h : ∀ i, Everywhere (p i) e) :
    Everywhere (fun c => ∀ i, p i c) e := by
  induction e using inductionOnParts with
  | node e ih => exact .node (fun i => (h i).root) fun c mem => ih c mem fun i => (h i).part mem

/-- A rule that makes the property hold of the root makes it hold everywhere. -/
theorem bottomUp_of_parts
    (makes : ∀ e, (∀ c ∈ e.parts, Everywhere p c) → Everywhere p (rule e)) (e : Expr) :
    Everywhere p (Expr.bottomUp rule e) := by
  induction e using inductionOnParts with
  | node e ih =>
    rw [bottomUp_eq]
    refine makes _ fun c mem => ?_
    rw [parts_mapParts] at mem
    obtain ⟨d, inside, rfl⟩ := List.mem_map.1 mem
    exact ih d inside

/-- A rule that changes no node of the tree does not change the tree. -/
theorem bottomUp_eq_self (h : Everywhere (fun c => rule c = c) e) : Expr.bottomUp rule e = e := by
  induction e using inductionOnParts with
  | node e ih =>
    rw [bottomUp_eq, mapParts_eq_self fun c mem => ih c mem (h.part mem)]
    exact h.root

end Everywhere

end Expr

namespace Canonical
open PredicateStrength.Expr

/-- The trees that the nine passes of a round lead through. -/
theorem round_eq (e : Expr) : round e = bottomUp expandFlag (bottomUp orderEquality
    (bottomUp sortCommutative (bottomUp normalizeSum (bottomUp flatten (bottomUp shiftSubtraction
      (bottomUp dropDoubleNegation (bottomUp foldBoolEquality (bottomUp expandIdiom e)))))))) :=
  rfl

theorem rounds_of_settled {e : Expr} (settled : round e = e) (n : Nat) : rounds n e = e := by
  cases n with
  | zero => rfl
  | succ n => rw [rounds, if_pos settled]

theorem rounds_succ (n : Nat) (e : Expr) : rounds (n + 1) e = rounds n (round e) := by
  rw [rounds]
  split
  · next settled => rw [settled, rounds_of_settled settled]
  · rfl

/-- That rounds stop early makes no difference. -/
theorem rounds_eq_iterate (n : Nat) (e : Expr) : rounds n e = round^[n] e := by
  induction n generalizing e with
  | zero => rfl
  | succ n ih => rw [rounds_succ, ih, Function.iterate_succ_apply]

end Canonical

theorem Expr.canonical_eq_of_round_eq {e f : Expr} (h : Canonical.round e = Canonical.round f) :
    e.canonical = f.canonical := by
  rw [canonical, canonical, Canonical.maxRounds, Canonical.rounds_succ, h, ← Canonical.rounds_succ]

end PredicateStrength
