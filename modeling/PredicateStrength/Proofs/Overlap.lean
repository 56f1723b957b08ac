import Mathlib
import PredicateStrength.Proofs.Substitution

/-!
# Patterns that overlap themselves

A text scanned character by character (`scan`) has the pattern replaced wherever it stands at a
boundary and the scan arrives. The substitution instead takes the matches of a plain search, one
behind the other, and drops those that are not at a boundary (`searched`): a dropped match is passed
over as a whole, and with it an occurrence that starts inside it and is at a boundary (`Hides`), as
the second `a+a` of `xa+a+a`.

Main statement: a text in which no dropped match hides an occurrence is rewritten by the scan, and
every occurrence at a boundary is replaced or starts in one that is (`toList_apply_ofList`). These
are exactly the texts on which both agree (`searched_eq_scan_iff`); for a name as pattern, and for a
pattern whose first character does not come back, they are all texts.
-/
namespace PredicateStrength.Substitution

/-- A step of a scan: a character is copied, or an occurrence of the pattern replaced. -/
inductive Step where
  | copy (c : Char)
  | replace
deriving DecidableEq, Repr

/-- The characters of the steps, with `word` for each replaced occurrence: the text that was read
if this is the pattern, the text that is written if it is the replacement. -/
def spell (word : List Char) (steps : List Step) : List Char :=
  steps.flatMap fun
    | .copy c => [c]
    | .replace => word

variable {accept : Option Char → Option Char → Bool} {head c : Char} {tail : List Char}
  {before : Option Char}

/-- From left to right: replace the pattern `head :: tail` where it stands and is accepted, and go
on behind it; copy one character otherwise. -/
def scan (accept : Option Char → Option Char → Bool) (head : Char) (tail : List Char)
    (before : Option Char) : List Char → List Step
  | [] => []
  | c :: cs =>
    if (head :: tail).isPrefixOf (c :: cs) && accept before (cs.drop tail.length).head? then
      .replace :: scan accept head tail (some (tail.getLast?.getD head)) (cs.drop tail.length)
    else .copy c :: scan accept head tail (some c) cs
termination_by cs => cs.length
decreasing_by all_goals simp

/-- The matches of a plain search; one that is not accepted is copied as a whole. -/
def searched (accept : Option Char → Option Char → Bool) (head : Char) (tail : List Char)
    (before : Option Char) : List Char → List Step
  | [] => []
  | c :: cs =>
    if (head :: tail).isPrefixOf (c :: cs) then
      let rest := cs.drop tail.length
      (if accept before rest.head? then [.replace] else (head :: tail).map .copy) ++
        searched accept head tail (some (tail.getLast?.getD head)) rest
    else .copy c :: searched accept head tail (some c) cs
termination_by cs => cs.length
decreasing_by all_goals simp

/-- Behind `front` the text goes on with the pattern, between acceptable characters. -/
def StandsBehind (accept : Option Char → Option Char → Bool) (pattern : List Char)
    (before : Option Char) (front text : List Char) : Prop :=
  ∃ back, text = front ++ pattern ++ back ∧ accept (front.getLast?.or before) back.head? = true

/-- A match of the plain search is not accepted, though an accepted occurrence starts inside. -/
def Hides (accept : Option Char → Option Char → Bool) (head : Char) (tail : List Char)
    (before : Option Char) (text : List Char) : Prop :=
  ∃ earlier later, scan (fun _ _ => true) head tail before text = earlier ++ .replace :: later ∧
    ¬ StandsBehind accept (head :: tail) before (spell (head :: tail) earlier) text ∧
    ∃ front, StandsBehind accept (head :: tail) before front text ∧
      (spell (head :: tail) earlier).length < front.length ∧
      front.length ≤ (spell (head :: tail) earlier).length + tail.length

@[simp] theorem spell_nil (word : List Char) : spell word [] = [] := rfl

@[simp] theorem spell_copy (word : List Char) (steps : List Step) :
    spell word (.copy c :: steps) = c :: spell word steps := rfl

@[simp] theorem spell_replace (word : List Char) (steps : List Step) :
    spell word (.replace :: steps) = word ++ spell word steps := rfl

@[simp] theorem spell_append (word : List Char) (steps more : List Step) :
    spell word (steps ++ more) = spell word steps ++ spell word more := List.flatMap_append

@[simp] theorem spell_copies (word cs : List Char) : spell word (cs.map .copy) = cs := by
  induction cs with
  | nil => rfl
  | cons c cs ih => rw [List.map_cons, spell_copy, ih]

theorem length_le_length_spell (steps : List Step) :
    steps.length ≤ (spell (head :: tail) steps).length := by
  induction steps with
  | nil => exact Nat.le_refl 0
  | cons step steps ih => cases step <;> simp <;> omega

theorem replaceMatches_eq_spell (replacement cs : List Char) :
    replaceMatches accept head tail replacement before cs =
      spell replacement (searched accept head tail before cs) := by
  fun_induction replaceMatches accept head tail replacement before cs with
  | case1 => rw [searched, spell_nil]
  | case2 before c cs found rest ih =>
    rw [searched, if_pos found, spell_append, ih]
    split
    · rw [spell_replace, spell_nil, List.append_nil]
    · rw [spell_copies]
  | case3 before c cs found ih => rw [searched, if_neg found, spell_copy, ih]

theorem eq_append_of_isPrefixOf {cs : List Char}
    (found : (head :: tail).isPrefixOf (c :: cs) = true) :
    head = c ∧ ∃ rest, cs = tail ++ rest := by
  obtain ⟨rest, text⟩ := List.isPrefixOf_iff_prefix.1 found
  rw [List.cons_append, List.cons.injEq] at text
  exact ⟨text.1, rest, text.2.symm⟩

theorem standsBehind_append (xs : List Char) {front text : List Char} :
    StandsBehind accept (head :: tail) before (xs ++ front) (xs ++ text) ↔
      StandsBehind accept (head :: tail) (xs.getLast?.or before) front text := by
  simp only [StandsBehind, List.append_assoc, List.append_cancel_left_eq, List.getLast?_append,
    Option.or_assoc]

/-- An occurrence that does not start within the characters in front comes behind them. -/
theorem StandsBehind.prefix_front {xs front text : List Char}
    (stands : StandsBehind accept (head :: tail) before front (xs ++ text))
    (long : xs.length ≤ front.length) : xs <+: front := by
  obtain ⟨back, same, -⟩ := stands
  rw [List.append_assoc] at same
  exact List.prefix_of_prefix_length_le ⟨text, same⟩ (List.prefix_append _ _) long

theorem standsBehind_nil {rest : List Char} :
    StandsBehind accept (head :: tail) before [] (head :: tail ++ rest) ↔
      accept before rest.head? = true := by
  simp [StandsBehind]

/-- The pattern in front of what is left is either accepted there or copied in part. -/
theorem scan_pattern {rest : List Char} :
    scan accept head tail before (head :: tail ++ rest) =
      if accept before rest.head? then
        .replace :: scan accept head tail (some (tail.getLast?.getD head)) rest
      else .copy head :: scan accept head tail (some head) (tail ++ rest) := by
  have found : (head :: tail).isPrefixOf (head :: (tail ++ rest)) = true :=
    List.isPrefixOf_iff_prefix.2 (List.prefix_append (head :: tail) rest)
  rw [List.cons_append, scan, found, Bool.true_and, List.drop_left]

theorem spell_scan (cs : List Char) :
    spell (head :: tail) (scan accept head tail before cs) = cs := by
  fun_induction scan accept head tail before cs with
  | case1 => rfl
  | case2 before c cs found ih =>
    obtain ⟨rfl, rest, rfl⟩ := eq_append_of_isPrefixOf (Bool.and_eq_true_iff.1 found).1
    rw [spell_replace, ih, List.drop_left, List.cons_append]
  | case3 before c cs found ih => rw [spell_copy, ih]

theorem getLast?_pattern : (head :: tail).getLast?.or before = some (tail.getLast?.getD head) := by
  rw [List.getLast?_cons]
  cases tail.getLast? <;> rfl

/-- What the scan replaces is an acceptable occurrence. -/
theorem standsBehind_of_scan {cs : List Char} {earlier later : List Step}
    (split : scan accept head tail before cs = earlier ++ .replace :: later) :
    StandsBehind accept (head :: tail) before (spell (head :: tail) earlier) cs := by
  fun_induction scan accept head tail before cs generalizing earlier with
  | case1 => simp at split
  | case2 before c cs found ih =>
    obtain ⟨prefixed, accepted⟩ := Bool.and_eq_true_iff.1 found
    obtain ⟨rfl, rest, rfl⟩ := eq_append_of_isPrefixOf prefixed
    rw [List.drop_left] at accepted ih split
    rw [← List.cons_append]
    cases earlier with
    | nil => exact standsBehind_nil.2 accepted
    | cons step earlier =>
      rw [List.cons_append, List.cons.injEq] at split
      obtain ⟨rfl, split⟩ := split
      rw [spell_replace, standsBehind_append, getLast?_pattern]
      exact ih split
  | case3 before c cs found ih =>
    cases earlier with
    | nil => cases split
    | cons step earlier =>
      rw [List.cons_append, List.cons.injEq] at split
      obtain ⟨rfl, split⟩ := split
      rw [spell_copy]
      exact (standsBehind_append [c]).2 (ih split)

/-- An acceptable occurrence is replaced, or starts in one that is. -/
theorem exists_replace_of_standsBehind {cs front : List Char}
    (stands : StandsBehind accept (head :: tail) before front cs) :
    ∃ earlier later, scan accept head tail before cs = earlier ++ .replace :: later ∧
      (spell (head :: tail) earlier).length ≤ front.length ∧
      front.length ≤ (spell (head :: tail) earlier).length + tail.length := by
  fun_induction scan accept head tail before cs generalizing front with
  | case1 =>
    obtain ⟨back, text, -⟩ := stands
    simp at text
  | case2 before c cs found ih =>
    by_cases inside : front.length ≤ tail.length
    · exact ⟨[], _, rfl, Nat.zero_le _, by simpa using inside⟩
    · obtain ⟨rfl, rest, rfl⟩ := eq_append_of_isPrefixOf (Bool.and_eq_true_iff.1 found).1
      rw [← List.cons_append] at stands
      obtain ⟨behind, rfl⟩ := stands.prefix_front (by rw [List.length_cons]; omega)
      rw [standsBehind_append, getLast?_pattern] at stands
      rw [List.drop_left] at ih ⊢
      obtain ⟨earlier, later, split, low, high⟩ := ih stands
      exact ⟨.replace :: earlier, later, by rw [split]; rfl, by simp; omega,
        by simp at high ⊢; omega⟩
  | case3 before c cs found ih =>
    cases front with
    | nil =>
      obtain ⟨back, text, accepted⟩ := stands
      rw [List.nil_append, List.cons_append, List.cons.injEq] at text
      obtain ⟨rfl, rfl⟩ := text
      refine absurd (Bool.and_eq_true_iff.2 ⟨?_, ?_⟩) found
      · exact List.isPrefixOf_iff_prefix.2 ⟨back, rfl⟩
      · rwa [List.drop_left]
    | cons d front =>
      obtain rfl : d = c := by
        obtain ⟨back, text, -⟩ := stands
        exact (List.cons.inj text).1.symm
      obtain ⟨earlier, later, split, low, high⟩ := ih ((standsBehind_append [d]).1 stands)
      exact ⟨.copy d :: earlier, later, by rw [split]; rfl, by simpa using low,
        by simp at high ⊢; omega⟩

/-- Where no acceptable occurrence starts the characters are copied. -/
theorem scan_append {xs rest : List Char}
    (absent : ∀ front more, xs = front ++ more → more ≠ [] →
      ¬ StandsBehind accept (head :: tail) before front (xs ++ rest)) :
    scan accept head tail before (xs ++ rest) =
      xs.map .copy ++ scan accept head tail (xs.getLast?.or before) rest := by
  induction xs generalizing before with
  | nil => rfl
  | cons x xs ih =>
    have copied : ¬ ((head :: tail).isPrefixOf (x :: (xs ++ rest)) &&
        accept before ((xs ++ rest).drop tail.length).head?) = true := by
      intro found
      obtain ⟨prefixed, accepted⟩ := Bool.and_eq_true_iff.1 found
      obtain ⟨rfl, back, text⟩ := eq_append_of_isPrefixOf prefixed
      rw [text, List.drop_left] at accepted
      exact absent [] (head :: xs) rfl (List.cons_ne_nil _ _)
        ⟨back, congrArg (List.cons head) text, accepted⟩
    have later := @ih (some x) fun front more split filled stands =>
      absent (x :: front) more (by rw [split]; rfl) filled
        ((standsBehind_append [x]).2 stands)
    rw [List.cons_append, scan, if_neg copied, later, List.getLast?_cons, List.map_cons,
      List.cons_append]
    cases xs.getLast? <;> rfl

/-- The first step of the plain search hides an occurrence, or what is left does. -/
theorem hides_append {step : Step} {xs cs : List Char} (spelled : spell (head :: tail) [step] = xs)
    (first : scan (fun _ _ => true) head tail before (xs ++ cs) =
      step :: scan (fun _ _ => true) head tail (xs.getLast?.or before) cs) :
    Hides accept head tail before (xs ++ cs) ↔
      (step = .replace ∧ ¬ StandsBehind accept (head :: tail) before [] (xs ++ cs) ∧
        ∃ front, StandsBehind accept (head :: tail) before front (xs ++ cs) ∧
          0 < front.length ∧ front.length ≤ tail.length) ∨
      Hides accept head tail (xs.getLast?.or before) cs := by
  have spell_cons (steps : List Step) :
      spell (head :: tail) (step :: steps) = xs ++ spell (head :: tail) steps := by
    rw [← spelled, ← spell_append]
    rfl
  constructor
  · rintro ⟨earlier, later, split, dropped, front, stands, low, high⟩
    rw [first] at split
    cases earlier with
    | nil => exact .inl ⟨(List.cons.inj split).1, dropped, front, stands, low, by simpa using high⟩
    | cons other earlier =>
      rw [List.cons_append, List.cons.injEq] at split
      obtain ⟨rfl, split⟩ := split
      rw [spell_cons, List.length_append] at low high
      obtain ⟨behind, rfl⟩ := stands.prefix_front (by omega)
      rw [spell_cons, standsBehind_append] at dropped
      rw [List.length_append] at low high
      exact .inr ⟨earlier, later, split, dropped, behind, (standsBehind_append xs).1 stands, by omega,
        by omega⟩
  · rintro (⟨rfl, dropped, front, stands, low, high⟩ |
      ⟨earlier, later, split, dropped, front, stands, low, high⟩)
    · exact ⟨[], _, first, dropped, front, stands, low, by simpa using high⟩
    · refine ⟨step :: earlier, later, by rw [first, split]; rfl, ?_, xs ++ front,
        (standsBehind_append xs).2 stands, ?_, ?_⟩
      · rwa [spell_cons, standsBehind_append]
      · rw [spell_cons, List.length_append, List.length_append]
        omega
      · rw [spell_cons, List.length_append, List.length_append]
        omega

/-- A replaced occurrence does not start within copied characters. -/
theorem length_le_of_copies {xs : List Char} {steps earlier later : List Step}
    (split : xs.map .copy ++ steps = earlier ++ .replace :: later) :
    xs.length ≤ (spell (head :: tail) earlier).length := by
  refine Nat.le_trans ?_ (length_le_length_spell earlier)
  by_contra short
  have copied : (xs.map Step.copy ++ steps)[earlier.length]? = (xs[earlier.length]?).map .copy := by
    rw [List.getElem?_append_left (by simpa using short), List.getElem?_map]
  rw [split, List.getElem?_append_right (Nat.le_refl _), Nat.sub_self,
    List.getElem?_eq_getElem (Nat.not_le.1 short)] at copied
  cases copied

/-- Search and scan agree exactly where no dropped match hides an occurrence. -/
theorem searched_eq_scan_iff {cs : List Char} :
    searched accept head tail before cs = scan accept head tail before cs ↔
      ¬ Hides accept head tail before cs := by
  fun_induction searched accept head tail before cs with
  | case1 => simp [scan, Hides]
  | case2 before c cs found rest ih =>
    obtain ⟨rfl, rest', rfl⟩ := eq_append_of_isPrefixOf found
    rw [show rest = rest' from List.drop_left] at ih ⊢
    have step := @hides_append accept head tail before .replace (head :: tail) rest' (by simp)
      (by rw [scan_pattern, getLast?_pattern, if_pos rfl])
    rw [getLast?_pattern, standsBehind_nil] at step
    rw [← List.cons_append, step]
    by_cases accepted : accept before rest'.head? = true
    · rw [scan_pattern, if_pos accepted, if_pos accepted, List.singleton_append,
        List.cons.injEq, ih]
      simp only [accepted, true_and, not_true_eq_false, false_and, and_false, false_or]
    · rw [if_neg accepted]
      by_cases hidden : ∃ front,
          StandsBehind accept (head :: tail) before front (head :: tail ++ rest') ∧
            0 < front.length ∧ front.length ≤ tail.length
      · refine iff_of_false (fun agree => ?_) (fun clear => clear (.inl ⟨rfl, accepted, hidden⟩))
        obtain ⟨front, stands, -, inside⟩ := hidden
        obtain ⟨earlier, later, split, low, -⟩ := exists_replace_of_standsBehind stands
        have copied : tail.length + 1 ≤ (spell (head :: tail) earlier).length :=
          length_le_of_copies (agree.trans split)
        omega
      · rw [scan_append, getLast?_pattern, List.append_cancel_left_eq, ih]
        · simp only [hidden, and_false, false_or]
        · intro front more parts filled stands
          have short : front.length + more.length = tail.length + 1 := by
            rw [← List.length_append, ← parts, List.length_cons]
          have left := List.length_pos_iff.2 filled
          cases front with
          | nil => exact accepted (standsBehind_nil.1 stands)
          | cons c front => exact hidden ⟨c :: front, stands, by simp, by omega⟩
  | case3 before c cs found ih =>
    have step := @hides_append accept head tail before (.copy c) [c] cs rfl
      (by simp [scan, found])
    rw [List.singleton_append] at step
    rw [step]
    simpa [scan, found] using ih

/-- Inside a dropped match the pattern starts again, behind an acceptable character. -/
theorem Hides.overlap {cs : List Char} (hides : Hides accept head tail before cs) :
    ∃ inner more after, head :: tail = inner ++ head :: more ∧ inner ≠ [] ∧
      accept inner.getLast? after = true := by
  obtain ⟨earlier, later, split, -, front, ⟨back, text, accepted⟩, low, high⟩ := hides
  obtain ⟨rest, same, -⟩ := standsBehind_of_scan split
  rw [text, List.append_assoc, List.append_assoc] at same
  obtain ⟨inner, rfl⟩ : spell (head :: tail) earlier <+: front :=
    List.prefix_of_prefix_length_le ⟨_, same.symm⟩ (List.prefix_append _ _) (by omega)
  rw [List.length_append] at low high
  rw [List.append_assoc, List.append_cancel_left_eq] at same
  have start : inner ++ [head] <+: head :: tail :=
    List.prefix_of_prefix_length_le ⟨tail ++ back, by simpa using same⟩ (List.prefix_append _ rest)
      (by rw [List.length_append, List.length_cons, List.length_cons]; simp; omega)
  obtain ⟨more, parts⟩ := start
  have filled : inner ≠ [] := List.length_pos_iff.1 (by omega)
  refine ⟨inner, more, back.head?, by simpa using parts.symm, filled, ?_⟩
  rw [List.getLast?_append, List.getLast?_eq_some_getLast filled] at accepted
  rwa [List.getLast?_eq_some_getLast filled]

/-- A pattern whose first character does not come back overlaps no other occurrence. -/
theorem not_hides_of_fresh (fresh : head ∉ tail) {cs : List Char} :
    ¬ Hides accept head tail before cs := by
  intro hides
  obtain ⟨inner, more, after, parts, filled, -⟩ := hides.overlap
  cases inner with
  | nil => exact filled rfl
  | cons c inner => exact fresh ((List.cons.inj parts).2 ▸ by simp)

/-- Inside a name there is no boundary in front of a name. -/
theorem not_hides_of_name (letter : isWordChar head = true) (joined : ∀ c ∈ tail, joins c = true)
    {cs : List Char} : ¬ Hides (atBoundary head tail) head tail before cs := by
  intro hides
  obtain ⟨inner, more, after, parts, filled, accepted⟩ := hides.overlap
  have last := List.getLast?_eq_some_getLast filled
  have within : inner.getLast filled ∈ head :: tail :=
    parts ▸ List.mem_append_left _ (List.getLast_mem filled)
  have joins_last : joins (inner.getLast filled) = true := by
    rcases List.mem_cons.1 within with same | mem
    · rw [same, joins, letter, Bool.true_or]
    · exact joined _ mem
  have inside : inner.getLast?.any joins = true := by rwa [last]
  rw [atBoundary, letter, Bool.true_and] at accepted
  change (!inner.getLast?.any joins && _) = true at accepted
  rw [inside] at accepted
  cases accepted

/-- An entry rewrites a text in which no dropped match hides an occurrence by the scan; an
occurrence at word boundaries is replaced, or starts in one that is. -/
theorem toList_apply_ofList {pattern : String} (chars : pattern.toList = head :: tail)
    (replacement text : String)
    (shown : ¬ Hides (atBoundary head tail) head tail none text.toList) :
    ((ofList [(pattern, replacement)]).apply text).toList =
        spell replacement.toList (scan (atBoundary head tail) head tail none text.toList) ∧
      spell pattern.toList (scan (atBoundary head tail) head tail none text.toList) = text.toList ∧
      ∀ front back, text.toList = front ++ pattern.toList ++ back →
        atBoundary head tail front.getLast? back.head? = true →
        ∃ earlier later,
          scan (atBoundary head tail) head tail none text.toList = earlier ++ .replace :: later ∧
          (spell pattern.toList earlier).length ≤ front.length ∧
          front.length < (spell pattern.toList earlier).length + pattern.toList.length := by
  have filled : pattern ≠ "" := by
    rintro rfl
    cases chars
  rw [chars]
  refine ⟨?_, spell_scan _, fun front back split bounded => ?_⟩
  · have rewritten : (ofList [(pattern, replacement)]).apply text =
        replaceWords text pattern replacement := by
      simp [ofList, insert, filled, apply]
    rw [rewritten, replaceWords, chars, String.toList_ofList, replaceMatches_eq_spell,
      searched_eq_scan_iff.2 shown]
  · have stands : StandsBehind (atBoundary head tail) (head :: tail) none front text.toList :=
      ⟨back, split, by rwa [Option.or_none]⟩
    obtain ⟨earlier, later, steps, low, high⟩ := exists_replace_of_standsBehind stands
    exact ⟨earlier, later, steps, low, Nat.lt_succ_of_le high⟩

/-- A dropped match behind `x`, a replaced one, and one that starts in the replaced one. -/
theorem toList_apply_ofList_sum :
    ¬ Hides (atBoundary 'a' ['+', 'a']) 'a' ['+', 'a'] none "xa+a < a+a+a".toList ∧
      (ofList [("a+a", "b")]).apply "xa+a < a+a+a" = "xa+a < b+a" := by
  have shown : ¬ Hides (atBoundary 'a' ['+', 'a']) 'a' ['+', 'a'] none "xa+a < a+a+a".toList :=
    searched_eq_scan_iff.1 (by cbv)
  have chars : "a+a".toList = 'a' :: ['+', 'a'] := rfl
  have rewritten := (toList_apply_ofList chars "b" "xa+a < a+a+a" shown).1
  exact ⟨shown, String.toList_injective (rewritten.trans (by cbv))⟩

/-- Behind the dropped match of `xa+a` the scan replaces `a+a`; the search has passed over it. -/
theorem toList_apply_ofList_ne :
    (ofList [("a+a", "b")]).apply "xa+a+a" = "xa+a+a" ∧
      spell "b".toList (scan (atBoundary 'a' ['+', 'a']) 'a' ['+', 'a'] none "xa+a+a".toList) =
        "xa+b".toList ∧
      ((ofList [("a+a", "b")]).apply "xa+a+a").toList ≠
        spell "b".toList
          (scan (atBoundary 'a' ['+', 'a']) 'a' ['+', 'a'] none "xa+a+a".toList) := by
  have kept : (ofList [("a+a", "b")]).apply "xa+a+a" = "xa+a+a" := by cbv
  have scanned : spell "b".toList
      (scan (atBoundary 'a' ['+', 'a']) 'a' ['+', 'a'] none "xa+a+a".toList) = "xa+b".toList := by
    cbv
  refine ⟨kept, scanned, ?_⟩
  rw [kept, scanned]
  decide

end PredicateStrength.Substitution
