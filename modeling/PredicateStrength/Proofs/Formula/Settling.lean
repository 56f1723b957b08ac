import Mathlib
import PredicateStrength.Proofs.Formula.Junction

/-!
# Rounds until nothing changes

One round settles a junction of literals. Around settled operands a junction needs two: merging
can make a constraint that absorbs an operand, and absorption comes first in a round. Otherwise a
junction settles one round later than its operands do, where operands that are such junctions
themselves count with their own operands.

Main statements: a formula that is to settle in one round is stable behind it
(`Formula.stable_of_prompt`), any other needs one round less behind it (`Formula.settling_step`),
so in the end it is stable (`Formula.stable_iterate`).
-/
namespace PredicateStrength

variable {d : Domain} {j : Junction}

namespace Junction

theorem parts?_eq_some {f : Formula} {fs : List Formula} :
    j.parts? f = some fs ↔ f = j.join fs := by
  cases j <;> cases f <;> simp [parts?, join]

theorem parts?_join (fs : List Formula) : j.parts? (j.join fs) = some fs := parts?_eq_some.2 rfl

theorem parts?_unique {k : Junction} {f : Formula} {fs gs : List Formula}
    (h : j.parts? f = some fs) (h' : k.parts? f = some gs) : j = k ∧ fs = gs := by
  cases j <;> cases k <;> cases f <;> simp_all [parts?]

theorem step_of_parts? {f : Formula} {fs : List Formula} (h : j.parts? f = some fs) :
    f.step d = j.combine d (fs.map (Formula.step d)) := by
  cases j <;> cases f <;> cases h <;> rw [Formula.step, Formula.stepAll_eq_map]

theorem ofOperands_cases (fs : List Formula) :
    j.ofOperands fs = .const j.unit ∨ (∃ f ∈ fs, j.ofOperands fs = f) ∨
      (2 ≤ fs.length ∧ j.ofOperands fs = j.join fs) := by
  match fs with
  | [] => exact .inl rfl
  | [f] => exact .inr (.inl ⟨f, .head _, rfl⟩)
  | f :: g :: fs => exact .inr (.inr ⟨by simp, rfl⟩)

/-- The part is a constant or brings operands of this kind into the junction. -/
def Brings (j : Junction) (Q : Formula → Prop) (p : Formula) : Prop :=
  (∃ b, p = .const b) ∨ ∀ f ∈ (j.parts? p).getD [p], Q f

theorem brings_of_forall {Q : Formula → Prop} {f : Formula}
    (alone : (∀ b, f ≠ .const b) → j.parts? f = none → Q f)
    (parts : ∀ fs, j.parts? f = some fs → ∀ g ∈ fs, Q g) : j.Brings Q f := by
  by_cases const : ∃ b, f = .const b
  · exact .inl const
  · refine .inr ?_
    cases nested : j.parts? f with
    | none => exact List.forall_mem_singleton.2 (alone (not_exists.1 const) nested)
    | some fs => exact parts fs nested

/-- Combining leaves a constant or operands of the kind that the parts bring. -/
theorem combine_cases {Q : Formula → Prop} (merged : ∀ c, c.decide? d = none → Q (.constraint c))
    {parts : List Formula} (every : ∀ p ∈ parts, j.Brings Q p) :
    (∃ b, j.combine d parts = .const b) ∨
      ∃ fs, j.left? d parts = some fs ∧ (∀ f ∈ fs, Q f) ∧ j.combine d parts = j.ofOperands fs := by
  rw [combine_eq]
  cases left : j.left? d parts with
  | none => exact .inl ⟨_, rfl⟩
  | some fs =>
    refine .inr ⟨fs, rfl, fun f mem => ?_, rfl⟩
    rcases mem_left? left mem with ⟨p, part, notConst, source⟩ | ⟨c, rfl, undecided⟩
    · exact (every p part).resolve_left (not_exists.2 notConst) f source
    · exact merged c undecided

theorem brings_combine {Q : Formula → Prop} (merged : ∀ c, c.decide? d = none → Q (.constraint c))
    (alone : ∀ f, Q f → j.Brings Q f) {parts : List Formula} (every : ∀ p ∈ parts, j.Brings Q p) :
    j.Brings Q (j.combine d parts) := by
  rcases combine_cases merged every with const | ⟨fs, -, kind, eq⟩
  · exact .inl const
  rw [eq]
  rcases ofOperands_cases (j := j) fs with eq | ⟨f, mem, eq⟩ | ⟨-, eq⟩ <;> rw [eq]
  · exact .inl ⟨_, rfl⟩
  · exact alone f (kind f mem)
  · exact .inr (by rwa [parts?_join])

end Junction

namespace Formula

/-- A formula without junctions. -/
inductive IsLiteral : Formula → Prop
  | const (b : Bool) : IsLiteral (.const b)
  | prop (a : Atom) : IsLiteral (.prop a)
  | constraint (c : Constraint) : IsLiteral (.constraint c)
  | notProp (a : Atom) : IsLiteral (.not (.prop a))

/-- A formula in which no round finds anything to do. -/
inductive Stable (d : Domain) : Formula → Prop
  | const (b : Bool) : Stable d (.const b)
  | prop (a : Atom) : Stable d (.prop a)
  | constraint {c : Constraint} (undecided : c.decide? d = none) : Stable d (.constraint c)
  | notProp (a : Atom) : Stable d (.not (.prop a))
  | junction {j : Junction} {f : Formula} {fs : List Formula} (parts : j.parts? f = some fs)
      (normal : j.Normal d fs) (kept : j.absorb fs = fs) (many : 2 ≤ fs.length)
      (operands : ∀ g ∈ fs, Stable d g) : Stable d f

namespace Stable

variable {f : Formula} {fs : List Formula}

theorem step_eq (stable : Stable d f) : f.step d = f := by
  induction stable with
  | const b => rfl
  | prop a => rfl
  | notProp a => rfl
  | constraint undecided => rw [step, undecided]
  | @junction j f fs parts normal kept many operands ih =>
    rw [Junction.step_of_parts? parts, List.map_congr_left ih, List.map_id', normal.combine, kept,
      Junction.parts?_eq_some.1 parts]
    match fs, many with
    | f :: g :: fs, _ => rfl

theorem not {a : Formula} (stable : Stable d (.not a)) : ∃ b, a = .prop b := by
  cases stable with
  | notProp b => exact ⟨b, rfl⟩
  | @junction j _ fs parts => cases j <;> cases parts

theorem ofOperands (normal : j.Normal d fs) (kept : j.absorb fs = fs)
    (operands : ∀ g ∈ fs, Stable d g) : Stable d (j.ofOperands fs) := by
  rcases Junction.ofOperands_cases (j := j) fs with eq | ⟨f, mem, eq⟩ | ⟨many, eq⟩ <;> rw [eq]
  · exact .const _
  · exact operands f mem
  · exact .junction (Junction.parts?_join fs) normal kept many operands

/-- The operands of a stable junction are stable, and none is such a junction or a constant. -/
theorem brings (stable : Stable d f) : j.Brings (fun g => Stable d g ∧ j.Plain g) f := by
  refine Junction.brings_of_forall (fun notConst alone => ⟨stable, notConst, alone⟩) ?_
  intro fs nested g mem
  cases stable with
  | junction parts normal kept many operands =>
    obtain ⟨rfl, rfl⟩ := Junction.parts?_unique nested parts
    exact ⟨operands g mem, normal.plain g mem⟩
  | _ => cases j <;> cases nested

end Stable

/-- A formula of this kind, or a nest of one junction around such formulas. -/
inductive Nest (j : Junction) (P : Formula → Prop) : Formula → Prop
  | leaf {f : Formula} (kind : P f) : Nest j P f
  | nested {f : Formula} {fs : List Formula} (parts : j.parts? f = some fs)
      (operands : ∀ g ∈ fs, Nest j P g) : Nest j P f

theorem Nest.mono {P Q : Formula → Prop} (h : ∀ f, P f → Q f) {f : Formula} (nest : Nest j P f) :
    Nest j Q f := by
  induction nest with
  | leaf kind => exact .leaf (h _ kind)
  | nested parts _ ih => exact .nested parts ih

/-- A formula that one round settles. -/
inductive Prompt (d : Domain) : Formula → Prop
  | literal {f : Formula} (literal : IsLiteral f) : Prompt d f
  | stable {f : Formula} (stable : Stable d f) : Prompt d f
  | absorbing {j : Junction} {f : Formula} {fs : List Formula} (parts : j.parts? f = some fs)
      (normal : j.Normal d fs) (operands : ∀ g ∈ fs, Stable d g) : Prompt d f
  | junction {j : Junction} {f : Formula} {fs : List Formula} (parts : j.parts? f = some fs)
      (operands : ∀ g ∈ fs, Nest j IsLiteral g) : Prompt d f

/-- A formula that one round more settles than formulas of a kind. -/
inductive Later (d : Domain) (P : Formula → Prop) : Formula → Prop
  | prompt {f : Formula} (prompt : Prompt d f) : Later d P f
  | junction {j : Junction} {f : Formula} {fs : List Formula} (parts : j.parts? f = some fs)
      (operands : ∀ g ∈ fs, Nest j P g) : Later d P f
  | negation {f : Formula} (pushed : P (step d (.not f))) : Later d P (.not f)

theorem Later.mono {P Q : Formula → Prop} (h : ∀ f, P f → Q f) {f : Formula} (later : Later d P f) :
    Later d Q f := by
  cases later with
  | prompt prompt => exact .prompt prompt
  | junction parts operands => exact .junction parts fun g mem => (operands g mem).mono h
  | negation pushed => exact .negation (h _ pushed)

/-- A formula that is stable after `n + 1` rounds, by the shape of its parts. -/
def Settling (d : Domain) : Nat → Formula → Prop
  | 0 => Prompt d
  | n + 1 => Later d (Settling d n)

namespace Settling

variable {f : Formula}

theorem of_prompt (prompt : Prompt d f) (n : Nat) : Settling d n f := by
  cases n with
  | zero => exact prompt
  | succ n => exact .prompt prompt

theorem succ {n : Nat} (h : Settling d n f) : Settling d (n + 1) f := by
  induction n generalizing f with
  | zero => exact .prompt h
  | succ n ih => exact Later.mono (fun _ => ih) h

end Settling

section Round

variable {P Q : Formula → Prop} {f : Formula} {fs : List Formula}

/-- If a round turns the leaves of a nest into operands of a kind, it does so with the nest. -/
theorem Nest.brings (merged : ∀ c, c.decide? d = none → Q (.constraint c))
    (alone : ∀ f, Q f → j.Brings Q f) (leaf : ∀ f, P f → j.Brings Q (f.step d))
    (nest : Nest j P f) : j.Brings Q (f.step d) := by
  induction nest with
  | leaf kind => exact leaf _ kind
  | nested parts _ ih =>
    rw [Junction.step_of_parts? parts]
    exact Junction.brings_combine merged alone (List.forall_mem_map.2 ih)

/-- What a round leaves of a junction of nests. -/
theorem step_cases (merged : ∀ c, c.decide? d = none → Q (.constraint c))
    (alone : ∀ f, Q f → j.Brings Q f) (leaf : ∀ f, P f → j.Brings Q (f.step d))
    (parts : j.parts? f = some fs) (operands : ∀ g ∈ fs, Nest j P g) :
    (∃ b, f.step d = .const b) ∨ ∃ gs, j.left? d (fs.map (step d)) = some gs ∧ (∀ g ∈ gs, Q g) ∧
      f.step d = j.ofOperands gs := by
  rw [Junction.step_of_parts? parts]
  exact Junction.combine_cases merged
    (List.forall_mem_map.2 fun g mem => (operands g mem).brings merged alone leaf)

end Round

theorem brings_of_plain {P : Formula → Prop} {f : Formula} (kind : P f ∧ j.Plain f) :
    j.Brings (fun g => P g ∧ j.Plain g) f :=
  Junction.brings_of_forall (fun _ _ => kind) fun fs nested => by
    rw [kind.2.notNested] at nested
    cases nested

theorem IsLiteral.parts? {f : Formula} (literal : IsLiteral f) : j.parts? f = none := by
  cases literal <;> cases j <;> rfl

theorem IsLiteral.dualParts? {f : Formula} (literal : IsLiteral f) : j.dualParts? f = none := by
  cases literal <;> cases j <;> rfl

theorem absorb_of_literals {fs : List Formula} (literals : ∀ f ∈ fs, IsLiteral f) :
    j.absorb fs = fs := by
  refine List.filter_eq_self.2 fun f mem => ?_
  rw [(literals f mem).dualParts?]
  rfl

/-- A round makes a literal a constant or leaves it as it is. -/
theorem IsLiteral.step {f : Formula} (literal : IsLiteral f) :
    IsLiteral (f.step d) ∧ Stable d (f.step d) := by
  cases literal with
  | const b => exact ⟨.const b, .const b⟩
  | prop a => exact ⟨.prop a, .prop a⟩
  | notProp a => exact ⟨.notProp a, .notProp a⟩
  | constraint c =>
    rw [Formula.step]
    split
    · exact ⟨.const _, .const _⟩
    · next undecided => exact ⟨.constraint c, .constraint undecided⟩

theorem brings_of_literal {f : Formula} (literal : IsLiteral f) :
    j.Brings (fun g => (IsLiteral g ∧ Stable d g) ∧ j.Plain g) (f.step d) :=
  Junction.brings_of_forall (fun notConst alone => ⟨literal.step, notConst, alone⟩)
    fun fs nested => by
      rw [literal.step.1.parts?] at nested
      cases nested

theorem plain_constraint (c : Constraint) : j.Plain (.constraint c) :=
  ⟨by simp, (IsLiteral.constraint c).parts?⟩

theorem stable_of_prompt {f : Formula} (prompt : Prompt d f) : Stable d (f.step d) := by
  cases prompt with
  | literal literal => exact literal.step.2
  | stable stable => rwa [stable.step_eq]
  | @absorbing j f fs parts normal operands =>
    have same : fs.map (step d) = fs := by
      rw [List.map_congr_left fun g mem => (operands g mem).step_eq, List.map_id']
    rw [Junction.step_of_parts? parts, same, normal.combine]
    exact .ofOperands normal.absorb (Junction.absorb_absorb fs)
      fun g mem => operands g (List.mem_of_mem_filter mem)
  | @junction j f fs parts operands =>
    rcases step_cases (Q := fun g => (IsLiteral g ∧ Stable d g) ∧ j.Plain g)
      (fun c undecided => ⟨⟨.constraint c, .constraint undecided⟩, plain_constraint c⟩)
      (fun _ => brings_of_plain (P := fun g => IsLiteral g ∧ Stable d g))
      (fun _ => brings_of_literal) parts operands with
      ⟨b, eq⟩ | ⟨gs, left, kind, eq⟩ <;> rw [eq]
    · exact .const b
    · have normal := Junction.normal_of_left? left (fun g mem => (kind g mem).2)
        (fun g mem => (kind _ mem).1.2.not)
      exact .ofOperands normal (absorb_of_literals fun g mem => (kind g mem).1.1)
        fun g mem => (kind g mem).1.2

theorem Prompt.operands {f : Formula} (prompt : Prompt d f) {fs : List Formula}
    (parts : j.parts? f = some fs) : ∀ g ∈ fs, Nest j (Prompt d) g := by
  cases prompt with
  | literal literal =>
    rw [literal.parts?] at parts
    cases parts
  | stable stable =>
    intro g mem
    rcases stable.brings (j := j) with ⟨b, rfl⟩ | kind
    · cases j <;> cases parts
    · rw [parts] at kind
      exact .leaf (.stable (kind g mem).1)
  | absorbing parts' _ operands =>
    obtain ⟨-, rfl⟩ := Junction.parts?_unique parts parts'
    exact fun g mem => .leaf (.stable (operands g mem))
  | junction parts' operands =>
    obtain ⟨rfl, rfl⟩ := Junction.parts?_unique parts parts'
    exact fun g mem => (operands g mem).mono fun _ => .literal

theorem Settling.operands {n : Nat} {f : Formula} (settling : Settling d n f) {fs : List Formula}
    (parts : j.parts? f = some fs) : ∀ g ∈ fs, Nest j (Settling d n) g := by
  cases n with
  | zero => exact Prompt.operands settling parts
  | succ n =>
    cases settling with
    | prompt prompt =>
      exact fun g mem => (prompt.operands parts g mem).mono fun _ prompt => .of_prompt prompt _
    | junction parts' operands =>
      obtain ⟨rfl, rfl⟩ := Junction.parts?_unique parts parts'
      exact fun g mem => (operands g mem).mono fun _ => Settling.succ
    | negation pushed => cases j <;> cases parts

theorem brings_of_nest {n : Nat} {f : Formula} (nest : Nest j (Settling d n) f) :
    j.Brings (Nest j (Settling d n)) f := by
  refine Junction.brings_of_forall (fun _ _ => nest) fun fs parts => ?_
  cases nest with
  | leaf settling => exact settling.operands parts
  | nested parts' operands =>
    obtain ⟨-, rfl⟩ := Junction.parts?_unique parts parts'
    exact operands

/-- A round less settles what a round leaves. -/
theorem settling_step {n : Nat} {f : Formula} (later : Settling d (n + 1) f) :
    Settling d n (f.step d) := by
  induction n generalizing f with
  | zero =>
    cases later with
    | prompt prompt => exact .stable (stable_of_prompt prompt)
    | negation pushed => exact pushed
    | @junction j f fs parts operands =>
      rcases step_cases (Q := fun g => Stable d g ∧ j.Plain g)
        (fun c undecided => ⟨.constraint undecided, plain_constraint c⟩)
        (fun _ => brings_of_plain)
        (fun _ prompt => (stable_of_prompt prompt).brings) parts operands with
        ⟨b, eq⟩ | ⟨gs, left, kind, eq⟩ <;> rw [eq]
      · exact .stable (.const b)
      · have normal := Junction.normal_of_left? left (fun g mem => (kind g mem).2)
          fun g mem => (kind _ mem).1.not
        rcases Junction.ofOperands_cases (j := j) gs with eq | ⟨g, mem, eq⟩ | ⟨-, eq⟩ <;> rw [eq]
        · exact .stable (.const _)
        · exact .stable (kind g mem).1
        · exact .absorbing (Junction.parts?_join gs) normal fun g mem => (kind g mem).1
  | succ n ih =>
    cases later with
    | prompt prompt => exact .of_prompt (.stable (stable_of_prompt prompt)) _
    | negation pushed => exact pushed
    | @junction j f fs parts operands =>
      rcases step_cases (Q := Nest j (Settling d n))
        (fun c _ => .leaf (.of_prompt (.literal (.constraint c)) n))
        (fun _ => brings_of_nest)
        (fun _ settling => brings_of_nest (.leaf (ih settling))) parts operands with
        ⟨b, eq⟩ | ⟨gs, left, kind, eq⟩ <;> rw [eq]
      · exact .of_prompt (.stable (.const b)) _
      · rcases Junction.ofOperands_cases (j := j) gs with eq | ⟨g, mem, eq⟩ | ⟨-, eq⟩ <;> rw [eq]
        · exact .of_prompt (.stable (.const _)) _
        · cases kind g mem with
          | leaf settling => exact settling.succ
          | nested parts operands => exact .junction parts operands
        · exact .junction (Junction.parts?_join gs) kind

theorem stable_iterate {n : Nat} {f : Formula} (settling : Settling d n f) :
    Stable d ((step d)^[n + 1] f) := by
  induction n generalizing f with
  | zero => exact stable_of_prompt settling
  | succ n ih =>
    rw [Function.iterate_succ_apply]
    exact ih (settling_step settling)

end Formula

end PredicateStrength
