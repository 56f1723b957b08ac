import Mathlib
import PredicateStrength.Substitution

/-!
# What substitutions replace

A pattern whose first character does not come back inside it cannot overlap itself, so a match that
is kept hides no other one: such a pattern is replaced wherever it stands at a boundary, and
everything else is copied character by character (`replaceMatches_cons`). For the two shapes of
patterns in use, a word and a word behind a space, standing at a boundary says which word it is.
-/
namespace PredicateStrength.Substitution

/-- The word characters at the front. -/
def frontWord (cs : List Char) : List Char := cs.takeWhile isWordChar

variable {accept : Option Char → Option Char → Bool} {head c : Char}
  {tail replacement cs rest word : List Char}

/-- Characters other than the first one of the pattern are copied. -/
theorem replaceMatches_skip {xs : List Char} (absent : head ∉ xs) (before : Option Char) :
    replaceMatches accept head tail replacement before (xs ++ rest) =
      xs ++ replaceMatches accept head tail replacement (xs.getLast?.or before) rest := by
  induction xs generalizing before with
  | nil => rfl
  | cons x xs ih =>
    obtain ⟨other, absent⟩ := not_or.1 (mt List.mem_cons.2 absent)
    rw [List.cons_append, replaceMatches, if_neg (by simp [List.isPrefixOf, other]), ih absent,
      List.getLast?_cons, List.cons_append]
    cases xs.getLast? <;> rfl

/-- A pattern that cannot overlap itself is replaced at every boundary. -/
theorem replaceMatches_cons (fresh : head ∉ tail) (before : Option Char) :
    replaceMatches accept head tail replacement before (c :: cs) =
      if (head :: tail).isPrefixOf (c :: cs) && accept before (cs.drop tail.length).head? then
        replacement ++ replaceMatches accept head tail replacement
          (some (tail.getLast?.getD head)) (cs.drop tail.length)
      else c :: replaceMatches accept head tail replacement (some c) cs := by
  by_cases found : (head :: tail).isPrefixOf (c :: cs) = true
  · rw [replaceMatches, if_pos found]
    by_cases accepted : accept before (cs.drop tail.length).head? = true
    · simp only [found, accepted, Bool.and_self, if_true]
    · obtain ⟨rest, split⟩ := List.isPrefixOf_iff_prefix.1 found
      rw [List.cons_append, List.cons.injEq] at split
      obtain ⟨rfl, rfl⟩ := split
      rw [List.drop_left] at accepted ⊢
      simp only [found, accepted, Bool.and_false, if_false, Bool.false_eq_true]
      rw [replaceMatches_skip fresh, List.cons_append]
      cases tail.getLast? <;> rfl
  · rw [replaceMatches, if_neg found, if_neg (by simp [found])]

/-- A word stands in front, and no longer word does, exactly when it is the word in front. -/
theorem isPrefixOf_and_ends (letters : ∀ x ∈ word, isWordChar x = true) :
    (word.isPrefixOf cs && !(cs.drop word.length).head?.any isWordChar) =
      decide (frontWord cs = word) := by
  induction word generalizing cs with
  | nil =>
    cases cs with
    | nil => rfl
    | cons d ds => cases letter : isWordChar d <;> simp [frontWord, letter]
  | cons x xs ih =>
    obtain ⟨letter, letters⟩ := List.forall_mem_cons.1 letters
    cases cs with
    | nil => simp [frontWord]
    | cons d ds =>
      by_cases same : x = d
      · subst same
        have shorter := @ih ds letters
        simp only [List.isPrefixOf, beq_self_eq_true, Bool.true_and, List.length_cons,
          List.drop_succ_cons, shorter, frontWord, List.takeWhile_cons_of_pos letter,
          List.cons.injEq, true_and]
        rfl
      · have differ : frontWord (d :: ds) ≠ x :: xs := by
          intro front
          simp only [frontWord, List.takeWhile_cons] at front
          split at front
          · exact same (List.cons.inj front).1.symm
          · cases front
        simp [List.isPrefixOf, same, differ]

theorem not_mem_of_letters (letters : ∀ x ∈ word, isWordChar x = true)
    (other : isWordChar c = false) : c ∉ word := fun mem => by
  rw [letters c mem] at other
  cases other

theorem frontWord_append {xs : List Char} (ends : ∀ c ∈ rest.head?, isWordChar c = false) :
    frontWord (xs ++ rest) = frontWord xs := by
  induction xs with
  | nil =>
    cases rest with
    | nil => rfl
    | cons c cs =>
      rw [List.nil_append, frontWord, List.takeWhile_cons_of_neg (by simp [ends c rfl])]
      rfl
  | cons x xs ih =>
    by_cases letter : isWordChar x = true
    · simpa [frontWord, letter] using ih
    · simp [frontWord, letter]

theorem frontWord_letters (letters : ∀ x ∈ word, isWordChar x = true) : frontWord word = word :=
  List.takeWhile_eq_self_iff.2 letters

/-- Another character in front than the word has is no start of the word. -/
theorem frontWord_ne (filled : word ≠ []) (other : c ∉ word) : frontWord (c :: cs) ≠ word := by
  rintro rfl
  by_cases letter : isWordChar c = true
  · exact other (by simp [frontWord, letter])
  · exact filled (by simp [frontWord, letter])

/-- Replace the word where it stands behind a space. -/
def replaceSuffix (word replacement : List Char) (cs : List Char) : List Char :=
  replaceMatches (atBoundary ' ' word) ' ' word replacement none cs

/-- What stands before a space does not matter. -/
theorem replaceMatches_suffix (letters : ∀ x ∈ word, isWordChar x = true)
    (before : Option Char) :
    replaceMatches (atBoundary ' ' word) ' ' word replacement before cs =
      replaceSuffix word replacement cs := by
  cases cs with
  | nil => simp only [replaceSuffix, replaceMatches]
  | cons c cs =>
    have space : isWordChar ' ' = false := by decide
    have fresh : ' ' ∉ word := not_mem_of_letters letters space
    rw [replaceSuffix, replaceMatches_cons fresh, replaceMatches_cons fresh]
    simp only [atBoundary, space, Bool.false_and]

theorem replaceSuffix_space (letters : ∀ x ∈ word, isWordChar x = true) (filled : word ≠ []) :
    replaceSuffix word replacement (' ' :: cs) =
      if frontWord cs = word then
        replacement ++ replaceSuffix word replacement (cs.drop word.length)
      else ' ' :: replaceSuffix word replacement cs := by
  have last := List.getLast?_eq_some_getLast filled
  have letter := letters _ (List.getLast_mem filled)
  have space : isWordChar ' ' = false := by decide
  have condition : ((' ' :: word).isPrefixOf (' ' :: cs) &&
      atBoundary ' ' word none (cs.drop word.length).head?) = decide (frontWord cs = word) := by
    have ends := @isPrefixOf_and_ends cs _ letters
    simpa only [List.isPrefixOf, beq_self_eq_true, Bool.true_and, atBoundary, last,
      Option.getD_some, letter, space, Bool.false_and, Bool.not_false] using ends
  rw [replaceSuffix, replaceMatches_cons (not_mem_of_letters letters space), condition]
  simp only [decide_eq_true_eq, replaceMatches_suffix letters]

theorem replaceSuffix_skip (letters : ∀ x ∈ word, isWordChar x = true) {xs : List Char}
    (absent : ' ' ∉ xs) :
    replaceSuffix word replacement (xs ++ rest) = xs ++ replaceSuffix word replacement rest := by
  rw [replaceSuffix, replaceMatches_skip absent, replaceMatches_suffix letters]

theorem toList_replaceWords_suffix (text word replacement : String) :
    (replaceWords text (" " ++ word) replacement).toList =
      replaceSuffix word.toList replacement.toList text.toList := by
  have pattern : (" " ++ word).toList = ' ' :: word.toList := String.toList_append
  simp only [replaceWords, pattern, String.toList_ofList]
  rfl

/-- Word characters and dots hold a name together. -/
def joins (c : Char) : Bool := isWordChar c || c = '.'

variable {xs : List Char}

/-- Replace the word `head :: tail` where it stands by itself. -/
def replaceWord (head : Char) (tail replacement : List Char) (before : Option Char)
    (cs : List Char) : List Char :=
  replaceMatches (atBoundary head tail) head tail replacement before cs

theorem replaceWord_cons (letters : ∀ x ∈ head :: tail, isWordChar x = true) (fresh : head ∉ tail)
    (before : Option Char) :
    replaceWord head tail replacement before (c :: cs) =
      if before.any joins = false ∧ frontWord (c :: cs) = head :: tail then
        replacement ++ replaceWord head tail replacement (some (tail.getLast?.getD head))
          (cs.drop tail.length)
      else c :: replaceWord head tail replacement (some c) cs := by
  have last : isWordChar (tail.getLast?.getD head) = true := by
    apply letters
    cases final : tail.getLast? with
    | none => exact List.mem_cons_self
    | some z => exact List.mem_cons_of_mem _ (List.mem_of_getLast? final)
  have condition : ((head :: tail).isPrefixOf (c :: cs) &&
      atBoundary head tail before (cs.drop tail.length).head?) =
        decide (before.any joins = false ∧ frontWord (c :: cs) = head :: tail) := by
    have ends := @isPrefixOf_and_ends (c :: cs) _ letters
    rw [List.length_cons, List.drop_succ_cons] at ends
    rw [atBoundary, letters head List.mem_cons_self, last, Bool.true_and, Bool.true_and,
      Bool.and_left_comm, ends, Bool.decide_and]
    change (!before.any joins && _) = _
    cases before.any joins <;> rfl
  rw [replaceWord, replaceMatches_cons fresh, condition]
  simp only [decide_eq_true_eq]
  rfl

/-- Inside a name nothing is replaced. -/
theorem replaceWord_inside (letters : ∀ x ∈ head :: tail, isWordChar x = true)
    (fresh : head ∉ tail) (joined : ∀ x ∈ xs, joins x = true) {before : Option Char}
    (inside : before.any joins = true) :
    replaceWord head tail replacement before (xs ++ rest) =
      xs ++ replaceWord head tail replacement (xs.getLast?.or before) rest := by
  induction xs generalizing before with
  | nil => rfl
  | cons x xs ih =>
    obtain ⟨here, joined⟩ := List.forall_mem_cons.1 joined
    rw [List.cons_append, replaceWord_cons letters fresh, if_neg (by simp [inside]),
      ih joined (by simpa using here), List.getLast?_cons, List.cons_append]
    cases xs.getLast? <;> rfl

/-- A name that starts with another word is copied, wherever it stands. -/
theorem replaceWord_name (letters : ∀ x ∈ head :: tail, isWordChar x = true) (fresh : head ∉ tail)
    (joined : ∀ x ∈ xs, joins x = true) (differs : frontWord (xs ++ rest) ≠ head :: tail)
    (before : Option Char) :
    replaceWord head tail replacement before (xs ++ rest) =
      xs ++ replaceWord head tail replacement (xs.getLast?.or before) rest := by
  cases xs with
  | nil => rfl
  | cons x xs =>
    obtain ⟨here, joined⟩ := List.forall_mem_cons.1 joined
    rw [List.cons_append] at differs ⊢
    rw [replaceWord_cons letters fresh, if_neg (fun found => differs found.2),
      replaceWord_inside letters fresh joined (by simpa using here), List.getLast?_cons,
      List.cons_append]
    cases xs.getLast? <;> rfl

theorem replaceWord_skip (absent : head ∉ xs) (before : Option Char) :
    replaceWord head tail replacement before (xs ++ rest) =
      xs ++ replaceWord head tail replacement (xs.getLast?.or before) rest :=
  replaceMatches_skip absent before

theorem toList_replaceWords_word {word : String} (pattern : word.toList = head :: tail)
    (text replacement : String) :
    (replaceWords text word replacement).toList =
      replaceWord head tail replacement.toList none text.toList := by
  simp only [replaceWords, pattern, String.toList_ofList]
  rfl

end PredicateStrength.Substitution
