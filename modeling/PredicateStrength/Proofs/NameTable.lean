import Mathlib
import PredicateStrength.NameTable
import PredicateStrength.Proofs.Numeral

/-!
# The names that a table gives

A table gives a raw name its safe form, with the number of names before it that have the same safe
form, if there are any (`Records.name`, `given_of_mem_answers`). So it gives a name once and for
all, and two raw names with one safe form have different numbers.

A safe form can end like a numbered name: that of `a_b_1` is what the second name with the safe form
`a_b` is given. This is the only way in which two raw names share a name.

Main statement: `name_eq_iff`.
-/
namespace PredicateStrength.NameTable

/-- The raw names in turn, each with the name that the table gives it. -/
def answers (t : NameTable) : List String → List (String × String)
  | [] => []
  | raw :: raws => (raw, (t.name raw).1) :: answers (t.name raw).2 raws

/-- Letters, digits and `_`, and in front one that is no digit. -/
structure IsIdentifier (s : String) : Prop where
  chars : ∀ c ∈ s.toList, c.isAlphanum = true ∨ c = '_'
  head : ∃ c cs, s.toList = c :: cs ∧ c.isDigit = false

/-- The raw names with the given safe form. -/
def sharers (raws : List String) (base : String) : Finset String :=
  raws.toFinset.filter (safeName · = base)

/-- How many raw names before the first occurrence of `raw` have its safe form. -/
def rank (raws : List String) (raw : String) : Nat :=
  (sharers (raws.takeWhile (· ≠ raw)) (safeName raw)).card

/-- The base with a number behind it, from one on. -/
def numbered (base : String) (n : Nat) : String :=
  if n = 0 then base else base ++ "_" ++ toString n

/-- The name that is left for `raw` among the given ones. -/
def given (raws : List String) (raw : String) : String := numbered (safeName raw) (rank raws raw)

/-- The safe form of `r`, which no raw name before it has, is a numbered name, that of `s`. -/
def TakesNumbered (raws : List String) (r s : String) : Prop :=
  rank raws r = 0 ∧ 0 < rank raws s ∧ safeName r = given raws s

instance (raws : List String) (r s : String) : Decidable (TakesNumbered raws r s) :=
  inferInstanceAs (Decidable (_ ∧ _))

variable {t : NameTable} {raws done : List String} {raw r s : String}

theorem mem_sharers {base : String} : r ∈ sharers raws base ↔ r ∈ raws ∧ safeName r = base := by
  simp [sharers]

theorem rank_append (mem : raw ∈ done) (later : List String) :
    rank (done ++ later) raw = rank done raw := by
  obtain ⟨before, after, rfl, fresh⟩ := List.eq_append_cons_of_mem mem
  have kept : ∀ r ∈ before, decide (r ≠ raw) = true := fun r inside =>
    decide_eq_true fun same => fresh (same ▸ inside)
  simp only [rank, List.append_assoc, List.cons_append, List.takeWhile_append_of_pos kept,
    List.takeWhile_cons_of_neg (p := fun r => decide (r ≠ raw)) (a := raw) (by simp)]

theorem given_append (mem : raw ∈ done) (later : List String) :
    given (done ++ later) raw = given done raw := by
  rw [given, given, rank_append mem]

theorem rank_of_fresh (fresh : raw ∉ done) (later : List String) :
    rank (done ++ raw :: later) raw = (sharers done (safeName raw)).card := by
  have kept : ∀ r ∈ done, decide (r ≠ raw) = true := fun r inside =>
    decide_eq_true fun same => fresh (same ▸ inside)
  rw [rank, List.takeWhile_append_of_pos kept,
    List.takeWhile_cons_of_neg (p := fun r => decide (r ≠ raw)) (a := raw) (by simp),
    List.append_nil]

theorem sharers_append_mem (mem : raw ∈ done) (base : String) :
    sharers (done ++ [raw]) base = sharers done base := by
  ext r
  simp only [mem_sharers, List.mem_append, List.mem_singleton]
  constructor
  · rintro ⟨inside | rfl, same⟩
    · exact ⟨inside, same⟩
    · exact ⟨mem, same⟩
  · rintro ⟨inside, same⟩
    exact ⟨.inl inside, same⟩

/-- A new raw name is one more with its safe form. -/
theorem card_sharers_append (fresh : raw ∉ done) (base : String) :
    (sharers (done ++ [raw]) base).card =
      (sharers done base).card + if safeName raw = base then 1 else 0 := by
  by_cases same : safeName raw = base
  · have grown : sharers (done ++ [raw]) base = insert raw (sharers done base) := by
      ext r
      simp only [mem_sharers, List.mem_append, List.mem_singleton, Finset.mem_insert]
      grind
    have outside : raw ∉ sharers done base := fun inside => fresh (mem_sharers.1 inside).1
    rw [grown, Finset.card_insert_of_notMem outside, if_pos same]
  · have kept : sharers (done ++ [raw]) base = sharers done base := by
      ext r
      simp only [mem_sharers, List.mem_append, List.mem_singleton]
      grind
    rw [kept, if_neg same, Nat.add_zero]

/-- Of two raw names with one safe form the later one has the higher rank. -/
theorem rank_lt {before after : List String} (fresh : r ∉ before) (absent : s ∉ before)
    (other : r ≠ s) (same : safeName r = safeName s) :
    rank (before ++ r :: after) r < rank (before ++ r :: after) s := by
  have kept : ∀ q ∈ before, decide (q ≠ s) = true := fun q inside =>
    decide_eq_true fun eq => absent (eq ▸ inside)
  have later : rank (before ++ r :: after) s =
      (sharers (before ++ r :: after.takeWhile (· ≠ s)) (safeName s)).card := by
    rw [rank, List.takeWhile_append_of_pos kept, List.takeWhile_cons_of_pos (by simpa using other)]
  rw [rank_of_fresh fresh, later, same]
  refine Finset.card_lt_card (Finset.ssubset_iff_subset_ne.2 ⟨fun q inside => ?_, fun eq => ?_⟩)
  · obtain ⟨mem, form⟩ := mem_sharers.1 inside
    exact mem_sharers.2 ⟨List.mem_append_left _ mem, form⟩
  · have inside : r ∈ sharers before (safeName s) := by
      rw [eq]
      exact mem_sharers.2 ⟨by simp, same⟩
    exact fresh (mem_sharers.1 inside).1

theorem rank_ne (hr : r ∈ raws) (hs : s ∈ raws) (other : r ≠ s) (same : safeName r = safeName s) :
    rank raws r ≠ rank raws s := by
  obtain ⟨before, after, rfl, fresh⟩ := List.eq_append_cons_of_mem hr
  by_cases earlier : s ∈ before
  · obtain ⟨first, between, rfl, fresh'⟩ := List.eq_append_cons_of_mem earlier
    rw [List.append_assoc, List.cons_append]
    have absent : r ∉ first := fun inside => fresh (List.mem_append_left _ inside)
    exact (rank_lt fresh' absent other.symm same.symm).ne'
  · exact (rank_lt fresh earlier other same).ne

/-- A number is told from what stands in front of the last `_`. -/
theorem numbered_inj {b c : String} {m n : Nat} (hm : 0 < m) (hn : 0 < n)
    (same : numbered b m = numbered c n) : b = c ∧ m = n := by
  have split (base : String) {k : Nat} (hk : 0 < k) :
      Numeral.splitAt? (· = '_') (numbered base k).toList.reverse =
        some ((toString k).toList.reverse, base.toList.reverse) := by
    have digits : ∀ c ∈ (toString k).toList.reverse, decide (c = '_') = false := fun c mem =>
      decide_eq_false (Numeral.ne_of_isDigit
        ((Numeral.isDigits_iff.1 (Numeral.isDigits_toString k)).2 c (List.mem_reverse.1 mem))
        (by decide))
    have chars : (numbered base k).toList.reverse =
        (toString k).toList.reverse ++ '_' :: base.toList.reverse := by
      simp [numbered, hk.ne']
    rw [chars, Numeral.splitAt?_append digits (by decide)]
  have parts := split b hm
  rw [same, split c hn] at parts
  simp only [Option.some.injEq, Prod.mk.injEq, List.reverse_inj, String.toList_inj] at parts
  refine ⟨parts.2.symm, ?_⟩
  rw [← Numeral.amount_toString m, ← parts.1, Numeral.amount_toString]

theorem numbered_zero (base : String) : numbered base 0 = base := if_pos rfl

/-- Numbered names agree in base and number, unless only one of them shows its number. -/
theorem numbered_eq_iff {b c : String} {m n : Nat} :
    numbered b m = numbered c n ↔ (b = c ∧ m = n) ∨ (m = 0 ∧ 0 < n ∧ b = numbered c n) ∨
      (n = 0 ∧ 0 < m ∧ c = numbered b m) := by
  constructor
  · intro same
    rcases Nat.eq_zero_or_pos m with rfl | hm <;> rcases Nat.eq_zero_or_pos n with rfl | hn
    · exact .inl ⟨same, rfl⟩
    · exact .inr (.inl ⟨rfl, hn, same⟩)
    · exact .inr (.inr ⟨rfl, hm, same.symm⟩)
    · exact .inl (numbered_inj hm hn same)
  · rintro (⟨rfl, rfl⟩ | ⟨rfl, -, same⟩ | ⟨rfl, -, same⟩)
    · rfl
    · rw [numbered_zero, same]
    · rw [numbered_zero, same]

theorem given_eq_iff (hr : r ∈ raws) (hs : s ∈ raws) :
    given raws r = given raws s ↔ r = s ∨ TakesNumbered raws r s ∨ TakesNumbered raws s r := by
  have agree : safeName r = safeName s ∧ rank raws r = rank raws s ↔ r = s := by
    constructor
    · rintro ⟨same, ranks⟩
      by_contra other
      exact rank_ne hr hs other same ranks
    · rintro rfl
      exact ⟨rfl, rfl⟩
  rw [given, given, numbered_eq_iff, agree]
  rfl

theorem IsIdentifier.append {a b : String} (ha : IsIdentifier a)
    (hb : ∀ c ∈ b.toList, c.isAlphanum = true ∨ c = '_') : IsIdentifier (a ++ b) := by
  obtain ⟨c, cs, front, head⟩ := ha.head
  refine ⟨fun d mem => ?_, c, cs ++ b.toList, by simp [front], head⟩
  rw [String.toList_append, List.mem_append] at mem
  exact mem.elim (ha.chars d) (hb d)

theorem isIdentifier_safeName (raw : String) : IsIdentifier (safeName raw) := by
  have chars : ∀ d ∈ raw.toList.map (fun c => if c.isAlphanum || c = '_' then c else '_'),
      d.isAlphanum = true ∨ d = '_' := by
    intro d mem
    obtain ⟨c, -, rfl⟩ := List.mem_map.1 mem
    split
    · next safe => simpa using safe
    · exact .inr rfl
  unfold safeName
  generalize raw.toList.map (fun c => if c.isAlphanum || c = '_' then c else '_') = cs at chars
  cases cs with
  | nil => exact ⟨by simp, '_', [], rfl, rfl⟩
  | cons c cs =>
    dsimp only
    by_cases digit : c.isDigit = true
    · rw [if_pos digit]
      refine ⟨fun d mem => ?_, '_', c :: cs, String.toList_ofList, rfl⟩
      rw [String.toList_ofList] at mem
      rcases List.mem_cons.1 mem with rfl | inside
      · exact .inr rfl
      · exact chars d inside
    · rw [if_neg digit]
      refine ⟨fun d mem => chars d ?_, c, cs, String.toList_ofList, by simpa using digit⟩
      rwa [String.toList_ofList] at mem

theorem isIdentifier_numbered {base : String} (h : IsIdentifier base) (n : Nat) :
    IsIdentifier (numbered base n) := by
  rw [numbered]
  split
  · exact h
  · rw [String.append_assoc]
    refine h.append fun c mem => ?_
    rw [String.toList_append, List.mem_append] at mem
    rcases mem with mark | digit
    · exact .inr (by simpa using mark)
    · have isDigit := (Numeral.isDigits_iff.1 (Numeral.isDigits_toString n)).2 c digit
      exact .inl (by simp [Char.isAlphanum, isDigit])

/-- The table knows the raw names that were asked for, and how many of them have each safe form. -/
structure Records (t : NameTable) (done : List String) : Prop where
  names : ∀ raw, t.names.lookup raw = if raw ∈ done then some (given done raw) else none
  uses : ∀ base, (t.uses.lookup base).getD 0 = (sharers done base).card

theorem records_nil : Records {} [] := ⟨fun _ => rfl, fun _ => rfl⟩

/-- A table goes on recording, and gives the name that is left. -/
theorem Records.name (h : Records t done) (raw : String) :
    (t.name raw).1 = given (done ++ [raw]) raw ∧ Records (t.name raw).2 (done ++ [raw]) := by
  unfold NameTable.name
  by_cases known : raw ∈ done
  · rw [h.names raw, if_pos known]
    refine ⟨(given_append known _).symm, fun r => ?_, fun base => ?_⟩
    · rw [h.names r]
      by_cases mem : r ∈ done
      · simp [mem, given_append mem]
      · have other : r ≠ raw := fun eq => mem (eq ▸ known)
        simp [mem, other]
    · rw [h.uses base, sharers_append_mem known]
  · rw [h.names raw, if_neg known]
    dsimp only
    rw [h.uses]
    have left : given (done ++ [raw]) raw =
        numbered (safeName raw) (sharers done (safeName raw)).card := by
      rw [given, rank_of_fresh known]
    refine ⟨left.symm, fun r => ?_, fun base => ?_⟩
    · rw [List.lookup_cons]
      by_cases other : r = raw
      · subst other
        simp [left, numbered]
      · rw [beq_false_of_ne other, h.names r]
        by_cases mem : r ∈ done
        · simp [mem, given_append mem]
        · simp [mem, other]
    · rw [List.lookup_cons, card_sharers_append known]
      by_cases form : base = safeName raw
      · subst form
        simp
      · simp [beq_false_of_ne form, h.uses, Ne.symm form]

theorem Records.answers (h : Records t done) :
    ∀ p ∈ t.answers raws, p.1 ∈ done ++ raws ∧ p.2 = given (done ++ raws) p.1 := by
  induction raws generalizing t done with
  | nil => exact fun p mem => absurd mem List.not_mem_nil
  | cons raw raws ih =>
    obtain ⟨first, next⟩ := h.name raw
    have whole : done ++ raw :: raws = (done ++ [raw]) ++ raws := by simp
    intro p mem
    rw [whole]
    rcases List.mem_cons.1 mem with rfl | later
    · exact ⟨by simp, first.trans (given_append (by simp) raws).symm⟩
    · exact ih next p later

theorem given_of_mem_answers {a : String} (h : (r, a) ∈ answers {} raws) :
    r ∈ raws ∧ a = given raws r :=
  records_nil.answers _ h

/-- Every name that a table gives is an identifier. It gives two raw names the same one exactly if
they are equal or the safe form of one, which it was the first to have, is a numbered name, that of
the other. -/
theorem name_eq_iff (raws : List String) (r s a b : String) (first : (r, a) ∈ answers {} raws)
    (second : (s, b) ∈ answers {} raws) :
    IsIdentifier a ∧ (a = b ↔ r = s ∨ TakesNumbered raws r s ∨ TakesNumbered raws s r) := by
  obtain ⟨hr, rfl⟩ := given_of_mem_answers first
  obtain ⟨hs, rfl⟩ := given_of_mem_answers second
  exact ⟨isIdentifier_numbered (isIdentifier_safeName r) _, given_eq_iff hr hs⟩

/-- Two raw names with one safe form, and the second of them has the number one. -/
theorem name_eq_iff_sender :
    ("msg.sender", "msg_sender") ∈ answers {} ["msg.sender", "msg-sender"] ∧
      ("msg-sender", "msg_sender_1") ∈ answers {} ["msg.sender", "msg-sender"] ∧
      IsIdentifier "msg_sender" ∧ "msg_sender" ≠ "msg_sender_1" := by
  have first : ("msg.sender", "msg_sender") ∈ answers {} ["msg.sender", "msg-sender"] := by decide
  have second : ("msg-sender", "msg_sender_1") ∈ answers {} ["msg.sender", "msg-sender"] := by
    decide
  obtain ⟨safe, shared⟩ := name_eq_iff ["msg.sender", "msg-sender"] _ _ _ _ first second
  exact ⟨first, second, safe, fun same => absurd (shared.1 same) (by decide)⟩

/-- The third raw name looks like the numbered name of the second one. -/
theorem exists_shared_name : ¬∀ (raws : List String) (r s a b : String),
    (r, a) ∈ answers {} raws → (s, b) ∈ answers {} raws → r ≠ s → a ≠ b := by
  intro unique
  exact unique ["a.b", "a-b", "a_b_1"] "a-b" "a_b_1" "a_b_1" "a_b_1" (by decide) (by decide)
    (by decide) rfl

end PredicateStrength.NameTable
