import Mathlib
import PredicateStrength.Proofs.Expr.Reading
import PredicateStrength.Proofs.Expr.Text
import PredicateStrength.Proofs.Expr.Traversal

/-!
# The height of trees that were read

The nesting limit counts parentheses, brackets, call arguments, signs and exponents. It does not
count what the parser reads in a loop: operators that group to the left and accesses behind one
another, each of which takes what was read before as its first part. So the trees that are read
have no greatest height (`Expr.not_exists_height_le`). Where the links of such a chain stand on one
level, the limit does bound the levels of a tree, and its height by the levels and the longest
chain in it.

Main statement: `Expr.height_le_of_ofTokens`.
-/
namespace PredicateStrength.Expr

open PredicateStrength.Parser (groupsLeft Derives DerivesAll members name)

mutual
/-- The nodes on the longest way down from the root. -/
def height : Expr → Nat
  | .ident _ | .num _ | .bool _ => 1
  | .not e | .neg e | .member e _ => height e + 1
  | .op _ args => heightAll args + 1
  | .call f args => max (height f) (heightAll args) + 1
  | .index base key => max (height base) (height key) + 1

def heightAll : List Expr → Nat
  | [] => 0
  | e :: es => max (height e) (heightAll es)
end

/-- An operand of `o` at this place is the next link of a chain. -/
def isLink (o : Operator) (isFirst : Bool) (e : Expr) : Bool :=
  groupsLeft o && isFirst && e.precedence = o.precedence

/-- What a call, an index read or a member access is applied to is the next link of a chain. -/
def isAccess (e : Expr) : Bool := e.precedence = accessPrecedence

mutual
/-- The length of the chain that the root is the last link of. -/
def chain : Expr → Nat
  | .op o args => chainOperand o args + 1
  | .call f _ => (if f.isAccess then chain f else 0) + 1
  | .index base _ | .member base _ => (if base.isAccess then chain base else 0) + 1
  | _ => 1

/-- The links below one that joins these operands. -/
def chainOperand (o : Operator) : List Expr → Nat
  | [] => 0
  | e :: _ => if isLink o true e then chain e else 0
end

mutual
/-- The length of the longest chain in the tree. -/
def longestChain : Expr → Nat
  | .ident _ | .num _ | .bool _ => 1
  | .not e | .neg e => longestChain e
  | .op o args => max (chain (.op o args)) (longestChainAll args)
  | .call f args => max (chain (.call f args)) (max (longestChain f) (longestChainAll args))
  | .index base key =>
    max (chain (.index base key)) (max (longestChain base) (longestChain key))
  | .member base field => max (chain (.member base field)) (longestChain base)

def longestChainAll : List Expr → Nat
  | [] => 0
  | e :: es => max (longestChain e) (longestChainAll es)
end

mutual
/-- The levels of the tree, where the links of a chain stand on one level. -/
def levels : Expr → Nat
  | .ident _ | .num _ | .bool _ => 1
  | .not e | .neg e => levels e + 1
  | .op o args => max 1 (levelsOperands o true args)
  | .call f args => max (if f.isAccess then levels f else levels f + 1) (levelsAll args + 1)
  | .index base key =>
    max (if base.isAccess then levels base else levels base + 1) (levels key + 1)
  | .member base _ => if base.isAccess then levels base else levels base + 1

def levelsOperands (o : Operator) (isFirst : Bool) : List Expr → Nat
  | [] => 0
  | e :: es =>
    max (if isLink o isFirst e then levels e else levels e + 1) (levelsOperands o false es)

def levelsAll : List Expr → Nat
  | [] => 0
  | e :: es => max (levels e) (levelsAll es)
end

variable {c e a b : Expr} {es : List Expr} {o : Operator}

theorem heightAll_le {n : Nat} : heightAll es ≤ n ↔ ∀ e ∈ es, e.height ≤ n := by
  induction es with
  | nil => simp [heightAll]
  | cons e es ih => simp [heightAll, ih]

theorem levelsAll_le {n : Nat} : levelsAll es ≤ n ↔ ∀ e ∈ es, e.levels ≤ n := by
  induction es with
  | nil => simp [levelsAll]
  | cons e es ih => simp [levelsAll, ih]

theorem longestChainAll_le {n : Nat} :
    longestChainAll es ≤ n ↔ ∀ e ∈ es, e.longestChain ≤ n := by
  induction es with
  | nil => simp [longestChainAll]
  | cons e es ih => simp [longestChainAll, ih]

/-- A node is one higher than its parts. -/
theorem height_le {n : Nat} (parts : ∀ c ∈ e.parts, c.height ≤ n) : e.height ≤ n + 1 := by
  cases e with
  | op o args => exact Nat.succ_le_succ (heightAll_le.2 parts)
  | call f args =>
    obtain ⟨callee, args⟩ := List.forall_mem_cons.1 parts
    exact Nat.succ_le_succ (max_le callee (heightAll_le.2 args))
  | _ => simp_all [height, Expr.parts]

theorem chain_pos (e : Expr) : 0 < e.chain := by
  cases e <;> simp [chain]

theorem longestChain_le_of_mem_parts (h : c ∈ e.parts) : c.longestChain ≤ e.longestChain := by
  cases e with
  | op o args => exact (longestChainAll_le.1 (le_max_right _ _)) c h
  | call f args =>
    rcases List.mem_cons.1 h with rfl | mem
    · exact (le_max_left _ _).trans (le_max_right _ _)
    · exact (longestChainAll_le.1 ((le_max_right _ _).trans (le_max_right _ _))) c mem
  | _ => simp [Expr.parts] at h <;> rcases h with rfl | rfl <;> simp [longestChain]

theorem chain_le_longestChain (e : Expr) : e.chain ≤ e.longestChain := by
  have positive (e : Expr) : 0 < e.longestChain := by
    induction e using inductionOnParts with
    | node e ih =>
      cases e with
      | not e | neg e => exact ih e (.head _)
      | _ => simp [longestChain, chain_pos]
  cases e with
  | not e | neg e => exact positive e
  | ident | num | bool => exact le_rfl
  | _ => simp [longestChain]

theorem levels_lt_levelsOperands (mem : c ∈ es) :
    c.levels < levelsOperands o false es := by
  induction es with
  | nil => cases mem
  | cons e es ih =>
    rw [levelsOperands]
    rcases List.mem_cons.1 mem with rfl | mem
    · simp [isLink]
    · exact (ih mem).trans_le (le_max_right _ _)

theorem levels_pos (e : Expr) : 0 < e.levels := by
  induction e using inductionOnParts with
  | node e ih =>
    cases e with
    | member base field =>
      have inside := ih base (.head _)
      rw [levels]
      split <;> omega
    | _ => simp [levels]

/-- A part is the link below its node, or it stands a level lower. -/
theorem part_cases (h : c ∈ e.parts) :
    (e.chain = c.chain + 1 ∧ c.levels ≤ e.levels) ∨ c.levels < e.levels := by
  cases e with
  | ident | num | bool => cases h
  | not e | neg e =>
    cases List.mem_singleton.1 h
    exact .inr (Nat.lt_succ_self _)
  | op o args =>
    cases args with
    | nil => cases h
    | cons a args =>
      simp only [levels, levelsOperands, chain, chainOperand]
      rcases List.mem_cons.1 h with rfl | mem
      · split
        · exact .inl ⟨rfl, (le_max_left _ _).trans (le_max_right _ _)⟩
        · exact .inr (by omega)
      · have lower := levels_lt_levelsOperands (o := o) mem
        exact .inr (by omega)
  | call f args =>
    simp only [levels, chain]
    rcases List.mem_cons.1 h with rfl | mem
    · split
      · exact .inl ⟨rfl, le_max_left _ _⟩
      · exact .inr (by omega)
    · have lower := levelsAll_le.1 (le_refl (levelsAll args)) c mem
      exact .inr (by omega)
  | index base key =>
    simp only [levels, chain]
    rcases List.mem_cons.1 h with rfl | mem
    · split
      · exact .inl ⟨rfl, le_max_left _ _⟩
      · exact .inr (by omega)
    · cases List.mem_singleton.1 mem
      exact .inr (by omega)
  | member base field =>
    cases List.mem_singleton.1 h
    simp only [levels, chain]
    split
    · exact .inl ⟨rfl, le_rfl⟩
    · exact .inr (Nat.lt_succ_self _)

/-- Below the chain that ends at the root, every level is as high as a chain. -/
theorem height_le_chain_add {n : Nat} (bound : e.longestChain ≤ n) :
    e.height ≤ e.chain + (e.levels - 1) * n := by
  induction e using inductionOnParts with
  | node e ih =>
    have here := chain_pos e
    have level := levels_pos e
    refine (height_le (n := e.chain + (e.levels - 1) * n - 1) fun c mem => ?_).trans (by omega)
    have longest := (longestChain_le_of_mem_parts mem).trans bound
    have below := ih c mem longest
    have level' := levels_pos c
    rcases part_cases mem with ⟨link, levels⟩ | lower
    · have rows : (c.levels - 1) * n ≤ (e.levels - 1) * n :=
        Nat.mul_le_mul_right n (by omega)
      omega
    · have chain := (chain_le_longestChain c).trans longest
      have rows : (c.levels - 1) * n + n ≤ (e.levels - 1) * n := by
        rw [← Nat.succ_mul]
        exact Nat.mul_le_mul_right n (by omega)
      omega

/-- A tree is at most as high as it is when each of its levels is as high as the longest chain. -/
theorem height_le_levels_mul (e : Expr) : e.height ≤ e.levels * e.longestChain := by
  have level := levels_pos e
  have whole : e.longestChain + (e.levels - 1) * e.longestChain = e.levels * e.longestChain := by
    rw [Nat.add_comm, ← Nat.succ_mul]
    congr 1
    omega
  have height := height_le_chain_add (le_refl e.longestChain)
  have chain := chain_le_longestChain e
  omega

/-- The levels that may be read where `n` nesting levels are left, at strength `k`. -/
def room (n k : Nat) : Nat := 12 * n + 13 - k

/-- The levels of the trees that are read. -/
def maxLevels : Nat := room Parser.maxNesting 1

/-- The tree fits in where `n` nesting levels are left at strength `k`; unless it continues a chain
there, so does a tree one level higher. -/
structure HasRoom (n k : Nat) (e : Expr) : Prop where
  levels : e.levels ≤ room n k
  spare : e.precedence ≠ k → e.levels + 1 ≤ room n k

theorem room_succ {n k : Nat} (bounded : k < 12) : room n k = room n (k + 1) + 1 := by
  unfold room
  omega

theorem room_inside (n : Nat) : room (n + 1) 12 = room n 1 + 1 := by
  unfold room
  omega

theorem levels_binary_le {m : Nat} (link : isLink o true a = true → a.levels ≤ m)
    (lower : ¬isLink o true a = true → a.levels + 1 ≤ m) (second : b.levels + 1 ≤ m) :
    (binary o a b).levels ≤ m := by
  have first : (if isLink o true a then a.levels else a.levels + 1) ≤ m := by
    split
    · next linked => exact link linked
    · next other => exact lower other
  simp only [binary, levels, levelsOperands, isLink, Bool.and_false, Bool.false_and,
    Bool.false_eq_true, if_false] at first ⊢
  omega

/-- What an access is applied to has room on the level of the access. -/
theorem HasRoom.accessed {n : Nat} (h : HasRoom n 12 e) :
    (if e.isAccess then e.levels else e.levels + 1) ≤ room n 12 := by
  split
  · exact h.levels
  · next other => exact h.spare fun same => other (decide_eq_true same)

theorem HasRoom.of_precedence {n k : Nat} (levels : e.levels ≤ room n k)
    (same : e.precedence = k) : HasRoom n k e := ⟨levels, fun other => absurd same other⟩

theorem HasRoom.members {n : Nat} (h : HasRoom n 12 e) (path : String) :
    HasRoom n 12 (members e path) := by
  obtain ⟨base, field, same⟩ := exists_member e path
  refine .of_precedence ?_ (by rw [same]; rfl)
  refine members_induction (motive := fun e => e.levels ≤ room n 12) e path (fun _ => h.accessed) ?_
  exact fun _ _ _ levels => levels

/-- Each strength that a derivation goes through and each nesting level adds a level at most. -/
theorem hasRoom_of_derives {n k : Nat} {ws : List Word} (h : Derives n k ws e) : HasRoom n k e := by
  induction h using Derives.rec (motive_2 := fun n _ es _ => levelsAll es ≤ room n 1) with
  | @tighter n k ws e _ bounded _ ih =>
    have step := room_succ (n := n) bounded
    have levels := ih.levels
    exact ⟨by omega, fun _ => by omega⟩
  | @left n o vs w ws a b left _ _ _ iha ihb =>
    have bounded : o.precedence < 12 := by cases o <;> decide
    have step := room_succ (n := n) bounded
    have second := ihb.levels
    refine .of_precedence (levels_binary_le (fun _ => iha.levels) (fun other => ?_) (by omega)) rfl
    exact iha.spare (by simpa [isLink, left] using other)
  | @relation n o vs w ws a b relational _ _ _ iha ihb =>
    have strength : o.precedence = 4 := by
      revert relational
      cases o <;> decide
    have step : room n 4 = room n 5 + 1 := room_succ (by decide)
    have first := iha.levels
    have second := ihb.levels
    exact .of_precedence
      (levels_binary_le (fun _ => by omega) (fun _ => by omega) (by omega)) strength
  | not _ ih =>
    have inside := ih.levels
    refine .of_precedence ?_ rfl
    simp only [levels, room] at inside ⊢
    omega
  | neg _ ih =>
    have inside := ih.levels
    refine .of_precedence ?_ rfl
    simp only [levels, room] at inside ⊢
    omega
  | pow _ _ _ iha ihb =>
    have first := iha.levels
    have second := ihb.levels
    simp only [room] at first second
    refine .of_precedence (levels_binary_le (fun _ => ?_) (fun _ => ?_) ?_) rfl <;>
      simp only [room] <;> omega
  | num =>
    refine .of_precedence ?_ rfl
    simp only [levels, room]
    omega
  | name lexeme =>
    rcases name_eq lexeme with ⟨b, -, leaf⟩ | leaf <;> rw [leaf] <;>
      exact .of_precedence (by simp only [levels, room]; omega) rfl
  | @paren n l ws r e _ _ _ ih =>
    have inside := ih.levels
    rw [← Nat.succ_le_succ_iff, Nat.succ_eq_add_one, Nat.succ_eq_add_one, ← room_inside] at inside
    exact ⟨by omega, fun _ => inside⟩
  | apply _ _ _ ih =>
    refine .of_precedence (max_le ih.accessed ?_) rfl
    simp only [levelsAll, room]
    omega
  | @call n vs l ws r f args _ _ _ _ ihf ihargs =>
    refine .of_precedence (max_le ihf.accessed ?_) rfl
    rw [room_inside]
    exact Nat.succ_le_succ ihargs
  | @index n vs l ws r base key _ _ _ _ ihbase ihkey =>
    refine .of_precedence (max_le ihbase.accessed ?_) rfl
    rw [room_inside]
    exact Nat.succ_le_succ ihkey.levels
  | @member n ws d u base _ _ _ ih => exact ih.members u.lexeme
  | one _ ih => exact levelsAll_le.2 (by simpa using ih.levels)
  | more _ _ _ ih ihs => exact max_le ih.levels ihs

/-- A tree that was read has a limited number of levels, where the links of a chain stand on one
level, and it is at most as high as when each of them is as high as the longest chain in it. -/
theorem height_le_of_ofTokens {ts : List Token} {e : Expr} (h : Expr.ofTokens ts = .ok e) :
    e.levels ≤ maxLevels ∧ e.height ≤ maxLevels * e.longestChain := by
  have levels := (hasRoom_of_derives (derives_of_ofTokens h)).levels
  exact ⟨levels, (height_le_levels_mul e).trans (Nat.mul_le_mul_right _ levels)⟩

/-- `x + x + .. + x` with `n` signs. -/
def sumTokens : Nat → List Token
  | 0 => [⟨"x", .identifier, 0⟩]
  | n + 1 => sumTokens n ++ [⟨"+", .operator, 0⟩, ⟨"x", .identifier, 0⟩]

/-- The tree of `sumTokens`. -/
def sumTree : Nat → Expr
  | 0 => .ident "x"
  | n + 1 => .binary .add (sumTree n) (.ident "x")

theorem derives_sumTokens (n : Nat) :
    Derives Parser.maxNesting 8 ((sumTokens n).map Token.word) (sumTree n) := by
  have operand (k : Nat) (positive : 0 < k) (bounded : k ≤ 12) :
      Derives Parser.maxNesting k [⟨.identifier, "x"⟩] (.ident "x") :=
    (Derives.name "x").of_le positive bounded le_rfl
  induction n with
  | zero => exact operand 8 (by decide) (by decide)
  | succ n ih =>
    rw [sumTokens, List.map_append]
    exact Derives.left (o := .add) rfl ⟨rfl, rfl⟩ ih (operand 9 (by decide) (by decide))

theorem ofTokens_sumTokens (n : Nat) : Expr.ofTokens (sumTokens n) = .ok (sumTree n) :=
  ofTokens_eq_ok_iff.2 ((derives_sumTokens n).of_le (by decide) (by decide) (by decide))

theorem height_sumTree (n : Nat) : (sumTree n).height = n + 1 := by
  induction n with
  | zero => rfl
  | succ n ih => simp [sumTree, binary, height, heightAll, ih]

theorem height_le_of_ofTokens_sum :
    Expr.ofTokens (sumTokens 200) = .ok (sumTree 200) ∧ (sumTree 200).height = 201 ∧
      (sumTree 200).levels ≤ maxLevels ∧
      (sumTree 200).height ≤ maxLevels * (sumTree 200).longestChain :=
  ⟨ofTokens_sumTokens 200, height_sumTree 200, height_le_of_ofTokens (ofTokens_sumTokens 200)⟩

/-- Sums of enough operands are read as trees of any height. -/
theorem not_exists_height_le :
    ¬∃ H, ∀ ts e, Expr.ofTokens ts = .ok e → e.height ≤ H := by
  rintro ⟨H, bounded⟩
  have height := bounded _ _ (ofTokens_sumTokens H)
  rw [height_sumTree] at height
  omega

end PredicateStrength.Expr
