import Mathlib
import PredicateStrength.Proofs.Unit.Suffix

/-!
# Pieces of written predicates

The text of a tree is a row of pieces: names, numerals with and without a unit, member paths,
signs, brackets, operators between spaces and commas. Names and numbers never touch, which is why
such text can be taken apart again.

Main statements: the table of surface substitutions writes its numerals for the units and leaves
everything else alone (`toList_apply_solidity`); what it writes splits into the words of the pieces
(`lexes_charsOf`).
-/
namespace PredicateStrength

open Substitution Token

/-- The name is one token and does not start with a word of the table. -/
def isPlainName (name : String) : Bool :=
  isWhole .identifier name && keywords.all fun w => frontWord name.toList ≠ w.toList

/-- A part of the text of a tree. -/
inductive Piece where
  | name (lexeme : String) (valid : isPlainName lexeme = true)
  | number (lexeme : String) (valid : isWhole .number lexeme = true)
  | quantity (digits : String) (unit : UnitSuffix) (valid : Numeral.isDigits digits = true)
  | field (path : String) (valid : isWhole .identifier path = true)
  | sign (mark : Char) (valid : mark = '!' ∨ mark = '-')
  | bracket (mark : Char) (kind : TokenKind)
      (valid : punctuation? mark = some kind ∧ mark ≠ '.')
  | operator (o : Operator)
  | comma

namespace Piece

/-- Names and numbers take in what follows them, if it is a name or a number too. -/
def isLong : Piece → Bool
  | .name .. | .number .. | .quantity .. | .field .. => true
  | _ => false

/-- The characters, once the table has replaced the units that `expanded` holds of. -/
def chars (expanded : UnitSuffix → Bool) : Piece → List Char
  | .name lexeme _ | .number lexeme _ => lexeme.toList
  | .quantity digits u _ =>
    digits.toList ++ if expanded u then u.replacement.toList else ' ' :: u.word.toList
  | .field path _ => '.' :: path.toList
  | .sign mark _ | .bracket mark _ _ => [mark]
  | .operator o => ' ' :: o.symbol.toList ++ [' ']
  | .comma => [',', ' ']

/-- The words that come out once all units have been replaced. -/
def words : Piece → List Word
  | .name lexeme _ => [⟨.identifier, lexeme⟩]
  | .number lexeme _ => [⟨.number, lexeme⟩]
  | .quantity digits u _ =>
    match u.factor? with
    | some factor => [⟨.number, digits⟩, ⟨.operator, "*"⟩, ⟨.number, factor⟩]
    | none => [⟨.number, digits ++ u.replacement⟩]
  | .field path _ => [⟨.dot, "."⟩, ⟨.identifier, path⟩]
  | .sign mark _ => [⟨.operator, String.ofList [mark]⟩]
  | .bracket mark kind _ => [⟨kind, String.ofList [mark]⟩]
  | .operator o => [⟨.operator, o.symbol⟩]
  | .comma => [⟨.comma, ","⟩]

end Piece

def charsOf (expanded : UnitSuffix → Bool) (ps : List Piece) : List Char :=
  ps.flatMap (Piece.chars expanded)

theorem charsOf_cons (expanded : UnitSuffix → Bool) (p : Piece) (ps : List Piece) :
    charsOf expanded (p :: ps) = p.chars expanded ++ charsOf expanded ps := List.flatMap_cons

def wordsOf (ps : List Piece) : List Word := ps.flatMap Piece.words

/-- Names and numbers do not touch each other. -/
def Separated (ps : List Piece) : Prop := ps.IsChain fun p q => (p.isLong && q.isLong) = false

variable {expanded : UnitSuffix → Bool} {p : Piece} {ps : List Piece}

theorem breaks_of_separated (h : Separated (p :: ps)) (long : p.isLong = true) :
    Breaks (charsOf expanded ps) := by
  cases ps with
  | nil => exact fun _ mem => by cases mem
  | cons q ps =>
    have short : q.isLong = false := by
      have touch := (List.isChain_cons_cons.1 h).1
      rwa [long, Bool.true_and] at touch
    rintro c front
    cases q with
    | sign mark valid =>
      obtain rfl : mark = c := by simpa [charsOf, Piece.chars] using front
      rcases valid with rfl | rfl <;> decide
    | bracket mark kind valid =>
      obtain rfl : mark = c := by simpa [charsOf, Piece.chars] using front
      exact ⟨isIdentPart_of_punctuation? valid.1, valid.2⟩
    | operator o =>
      obtain rfl : ' ' = c := by simpa [charsOf, Piece.chars] using front
      decide
    | comma =>
      obtain rfl : ',' = c := by simpa [charsOf, Piece.chars] using front
      decide
    | _ => cases short

/-- What breaks a token off also ends a word. -/
theorem frontWord_of_breaks {xs rest : List Char} (h : Breaks rest) :
    frontWord (xs ++ rest) = frontWord xs :=
  frontWord_append fun c front => (h c front).1

/-- No word of the table starts with this character. -/
theorem frontWord_ne_keyword {word : String} (keyword : word ∈ keywords) {c : Char}
    (other : c.isAlpha = false) (cs : List Char) : frontWord (c :: cs) ≠ word.toList := by
  obtain ⟨filled, letters⟩ := keyword_letters keyword
  refine frontWord_ne filled fun mem => ?_
  rw [letters c mem] at other
  cases other

theorem isAlpha_of_isDigit {c : Char} (h : c.isDigit = true) : c.isAlpha = false := by
  simp only [Char.isDigit, Char.isAlpha, Char.isUpper, Char.isLower, Bool.and_eq_true,
    Bool.or_eq_false_iff, Bool.and_eq_false_iff, decide_eq_true_eq, decide_eq_false_iff_not] at h ⊢
  grind

theorem isAlpha_of_not_isIdentPart {c : Char} (h : isIdentPart c = false) : c.isAlpha = false := by
  simp only [isIdentPart, Char.isAlphanum, Bool.or_eq_false_iff] at h
  exact h.1.1.1

theorem isAlpha_of_startsNumber {c : Char} {cs : List Char} (h : startsNumber c cs = true) :
    c.isAlpha = false := by
  rcases Bool.or_eq_true _ _ ▸ h with digit | fraction
  · exact isAlpha_of_isDigit digit
  · obtain rfl := of_decide_eq_true (Bool.and_eq_true _ _ ▸ fraction).1
    decide

theorem exists_cons_of_isDigits {digits : String} (h : Numeral.isDigits digits = true) :
    ∃ c cs, digits.toList = c :: cs ∧ ∀ d ∈ c :: cs, d.isDigit = true := by
  obtain ⟨filled, all⟩ := Numeral.isDigits_iff.1 h
  obtain ⟨c, cs, chars⟩ := List.exists_cons_of_ne_nil filled
  exact ⟨c, cs, chars, chars ▸ all⟩

/-- Behind a space, the pieces start with no word of the table. -/
theorem frontWord_charsOf (h : Separated ps) {word : String} (keyword : word ∈ keywords) :
    frontWord (charsOf expanded ps) ≠ word.toList := by
  cases ps with
  | nil => exact (keyword_letters keyword).1.symm
  | cons p ps =>
    rw [charsOf_cons]
    cases p with
    | name lexeme valid =>
      obtain ⟨-, plain⟩ := Bool.and_eq_true _ _ ▸ valid
      rw [Piece.chars, frontWord_of_breaks (breaks_of_separated h rfl)]
      exact of_decide_eq_true (List.all_eq_true.1 plain word keyword)
    | number lexeme valid =>
      obtain ⟨c, cs, chars, start, -⟩ := chars_number valid
      rw [Piece.chars, chars]
      exact frontWord_ne_keyword keyword (isAlpha_of_startsNumber start) _
    | quantity digits u valid =>
      obtain ⟨c, cs, chars, all⟩ := exists_cons_of_isDigits valid
      rw [Piece.chars, chars]
      exact frontWord_ne_keyword keyword (isAlpha_of_isDigit (all c List.mem_cons_self)) _
    | field path => exact frontWord_ne_keyword keyword (by decide) _
    | sign mark valid =>
      refine frontWord_ne_keyword keyword ?_ _
      rcases valid with rfl | rfl <;> decide
    | bracket mark kind valid =>
      exact frontWord_ne_keyword keyword
        (isAlpha_of_not_isIdentPart (isIdentPart_of_punctuation? valid.1)) _
    | operator o => exact frontWord_ne_keyword keyword (by decide) _
    | comma => exact frontWord_ne_keyword keyword (by decide) _

theorem isWordChar_of_isAlpha {c : Char} (h : c.isAlpha = true) : isWordChar c = true := by
  simp [isWordChar, Char.isAlphanum, h]

theorem UnitSuffix.wordChars (u : UnitSuffix) : ∀ c ∈ u.word.toList, isWordChar c = true :=
  fun c mem => isWordChar_of_isAlpha (u.word_letters.2 c mem)

theorem space_not_mem_of_forall {p : Char → Bool} {cs : List Char} (h : ∀ c ∈ cs, p c = true)
    (space : p ' ' = false) : ' ' ∉ cs := fun mem => by
  rw [h ' ' mem] at space
  cases space

theorem space_not_mem_identifier {name : String} (h : isWhole .identifier name = true) :
    ' ' ∉ name.toList := by
  obtain ⟨c, cs, chars, -, joined⟩ := chars_identifier h
  rw [chars]
  exact fun mem => absurd (joined ' ' mem) (by decide)

theorem space_not_mem_number {lexeme : String} (h : isWhole .number lexeme = true) :
    ' ' ∉ lexeme.toList := by
  obtain ⟨c, cs, chars, -, parts⟩ := chars_number h
  rw [chars]
  exact space_not_mem_of_forall parts (by decide)

theorem space_not_mem_digits {digits : String} (h : Numeral.isDigits digits = true) :
    ' ' ∉ digits.toList :=
  space_not_mem_of_forall (Numeral.isDigits_iff.1 h).2 (by decide)

theorem space_not_mem_symbol (o : Operator) : ' ' ∉ o.symbol.toList := by
  cases o <;> decide

theorem exists_symbol (o : Operator) : ∃ c cs, o.symbol.toList = c :: cs ∧ c.isAlpha = false := by
  cases o <;> exact ⟨_, _, rfl, by decide⟩

section

variable (u : UnitSuffix)

/-- The text after the substitution for the unit `u` alone. -/
def replaceUnit (cs : List Char) : List Char :=
  replaceSuffix u.word.toList u.replacement.toList cs

theorem replaceUnit_skip {xs : List Char} (absent : ' ' ∉ xs) (rest : List Char) :
    replaceUnit u (xs ++ rest) = xs ++ replaceUnit u rest :=
  replaceSuffix_skip u.wordChars absent

/-- A space before another word stays. -/
theorem replaceUnit_space {rest : List Char} (other : frontWord rest ≠ u.word.toList) :
    replaceUnit u (' ' :: rest) = ' ' :: replaceUnit u rest := by
  rw [replaceUnit, replaceSuffix_space u.wordChars u.word_letters.1, if_neg other]
  rfl

/-- What follows a space is kept with it, if it does not start with a letter. -/
theorem replaceUnit_gap {c : Char} {cs : List Char} (other : c.isAlpha = false)
    (absent : ' ' ∉ c :: cs) (rest : List Char) :
    replaceUnit u (' ' :: (c :: cs ++ rest)) = ' ' :: (c :: cs ++ replaceUnit u rest) := by
  have front : frontWord (c :: cs ++ rest) ≠ u.word.toList :=
    frontWord_ne_keyword u.word_mem_keywords other _
  rw [replaceUnit_space u front, replaceUnit_skip u absent]

theorem replaceUnit_word {v : UnitSuffix} {rest : List Char} (breaks : Breaks rest) :
    replaceUnit u (' ' :: (v.word.toList ++ rest)) =
      (if v = u then v.replacement.toList else ' ' :: v.word.toList) ++ replaceUnit u rest := by
  have front : frontWord (v.word.toList ++ rest) = v.word.toList := by
    rw [frontWord_of_breaks breaks, frontWord_letters v.wordChars]
  by_cases same : v = u
  · subst same
    rw [replaceUnit, replaceSuffix_space v.wordChars v.word_letters.1, if_pos front, List.drop_left,
      if_pos rfl]
    rfl
  · have other : frontWord (v.word.toList ++ rest) ≠ u.word.toList := fun words =>
      same (UnitSuffix.word_injective (String.toList_inj.1 (front.symm.trans words)))
    have absent : ' ' ∉ v.word.toList := space_not_mem_of_forall v.wordChars (by decide)
    rw [replaceUnit_space u other, replaceUnit_skip u absent, if_neg same]
    rfl

/-- What has been written for a unit holds no further unit. -/
theorem replaceUnit_replacement (v : UnitSuffix) (rest : List Char) :
    replaceUnit u (v.replacement.toList ++ rest) = v.replacement.toList ++ replaceUnit u rest := by
  cases factor : v.factor? with
  | some text =>
    have shape : v.replacement.toList = ' ' :: '*' :: ' ' :: text.toList := by
      simp [UnitSuffix.replacement, factor]
    obtain ⟨c, cs, chars, digits⟩ := exists_cons_of_isDigits (UnitSuffix.factor?_spec factor).1
    have digit := isAlpha_of_isDigit (digits c List.mem_cons_self)
    have absent : ' ' ∉ c :: cs := space_not_mem_of_forall digits (by decide)
    have star := replaceUnit_gap u (show '*'.isAlpha = false by decide)
      (show ' ' ∉ ['*'] by decide) (' ' :: (c :: cs ++ rest))
    rw [replaceUnit_gap u digit absent] at star
    rw [shape, chars]
    exact star
  | none =>
    cases power : v.power? with
    | some text =>
      have digits := (Numeral.isDigits_iff.1 (UnitSuffix.power?_spec power).1).2
      have shape : v.replacement.toList = 'e' :: text.toList := by
        simp [UnitSuffix.replacement, factor, power]
      refine replaceUnit_skip u (fun mem => ?_) rest
      rw [shape] at mem
      rcases List.mem_cons.1 mem with space | space
      · exact absurd space (by decide)
      · exact absurd (digits ' ' space) (by decide)
    | none =>
      have nothing : v.replacement.toList = [] := by
        simp [UnitSuffix.replacement, factor, power]
      rw [nothing]
      rfl

/-- The substitution for a unit replaces this unit behind its numerals and nothing else. -/
theorem replaceUnit_charsOf (h : Separated ps) :
    replaceUnit u (charsOf expanded ps) = charsOf (fun v => expanded v || v = u) ps := by
  induction ps with
  | nil => simp only [charsOf, List.flatMap_nil, replaceUnit, replaceSuffix, replaceMatches]
  | cons p ps ih =>
    have more := ih h.tail
    rw [charsOf_cons, charsOf_cons]
    cases p with
    | name lexeme valid =>
      have word := (Bool.and_eq_true _ _ ▸ valid).1
      exact (replaceUnit_skip u (space_not_mem_identifier word) _).trans (by rw [more]; rfl)
    | number lexeme valid =>
      exact (replaceUnit_skip u (space_not_mem_number valid) _).trans (by rw [more]; rfl)
    | quantity digits v valid =>
      have breaks : Breaks (charsOf expanded ps) := breaks_of_separated h rfl
      simp only [Piece.chars, List.append_assoc]
      rw [replaceUnit_skip u (space_not_mem_digits valid)]
      congr 1
      by_cases done : expanded v = true
      · simp only [done, if_true, Bool.true_or, replaceUnit_replacement, more]
      · simp only [done, Bool.false_eq_true, if_false, Bool.false_or, List.cons_append]
        rw [replaceUnit_word u breaks, more]
        simp
    | field path valid =>
      have absent : ' ' ∉ '.' :: path.toList := by
        simpa using space_not_mem_identifier valid
      exact (replaceUnit_skip u absent _).trans (by rw [more]; rfl)
    | sign mark valid =>
      have absent : ' ' ∉ [mark] := by
        rcases valid with rfl | rfl <;> decide
      exact (replaceUnit_skip u absent _).trans (by rw [more]; rfl)
    | bracket mark kind valid =>
      have absent : ' ' ∉ [mark] := by
        intro mem
        rw [← List.mem_singleton.1 mem] at valid
        cases valid.1
      exact (replaceUnit_skip u absent _).trans (by rw [more]; rfl)
    | operator o =>
      obtain ⟨c, cs, chars, other⟩ := exists_symbol o
      have symbol := chars ▸ space_not_mem_symbol o
      have front : frontWord (charsOf expanded ps) ≠ u.word.toList :=
        frontWord_charsOf h.tail u.word_mem_keywords
      have gap := replaceUnit_gap u other symbol (' ' :: charsOf expanded ps)
      rw [replaceUnit_space u front, more] at gap
      simpa [Piece.chars, chars] using gap
    | comma =>
      have front : frontWord (charsOf expanded ps) ≠ u.word.toList :=
        frontWord_charsOf h.tail u.word_mem_keywords
      have mark := replaceUnit_skip u (show ' ' ∉ [','] by decide) (' ' :: charsOf expanded ps)
      rw [replaceUnit_space u front, more] at mark
      exact mark

end

/-- The text after the substitution for `now`, where `before` stands in front of it. -/
def replaceNow (before : Option Char) (cs : List Char) : List Char :=
  replaceWord 'n' ['o', 'w'] "block.timestamp".toList before cs

theorem now_letters : ∀ c ∈ 'n' :: ['o', 'w'], isWordChar c = true := List.all_eq_true.1 rfl

theorem joins_of_identifier {name : String} (h : isWhole .identifier name = true) :
    ∀ c ∈ name.toList, joins c = true := by
  obtain ⟨c, cs, chars, -, joined⟩ := chars_identifier h
  rw [chars]
  intro d mem
  rcases joined d mem with part | rfl
  · exact Bool.or_eq_true _ _ ▸ .inl part
  · decide

/-- Pieces without the letter `n` at the start of a word are copied. -/
theorem replaceNow_charsOf (h : Separated ps) (before : Option Char) :
    replaceNow before (charsOf (fun _ => false) ps) = charsOf (fun _ => false) ps := by
  induction ps generalizing before with
  | nil => simp only [charsOf, List.flatMap_nil, replaceNow, replaceWord, replaceMatches]
  | cons p ps ih =>
    have more := ih h.tail
    have skip : ∀ {xs : List Char}, 'n' ∉ xs → ∀ before, replaceNow before
        (xs ++ charsOf (fun _ => false) ps) = xs ++ charsOf (fun _ => false) ps := by
      intro xs absent before
      rw [replaceNow, replaceWord_skip absent]
      exact congrArg (xs ++ ·) (more _)
    have word : ∀ {xs : List Char}, (∀ c ∈ xs, joins c = true) →
        frontWord (xs ++ charsOf (fun _ => false) ps) ≠ ['n', 'o', 'w'] → ∀ before,
        replaceNow before (xs ++ charsOf (fun _ => false) ps) =
          xs ++ charsOf (fun _ => false) ps := by
      intro xs joined other before
      rw [replaceNow, replaceWord_name now_letters (by decide) joined other]
      exact congrArg (xs ++ ·) (more _)
    rw [charsOf_cons]
    cases p with
    | name lexeme valid =>
      obtain ⟨whole, plain⟩ := Bool.and_eq_true _ _ ▸ valid
      refine word (joins_of_identifier whole) ?_ before
      rw [frontWord_of_breaks (breaks_of_separated h rfl)]
      exact of_decide_eq_true (List.all_eq_true.1 plain "now" List.mem_cons_self)
    | number lexeme valid =>
      obtain ⟨c, cs, chars, -, parts⟩ := chars_number valid
      refine skip (fun mem => ?_) before
      rw [Piece.chars, chars] at mem
      exact absurd (parts 'n' mem) (by decide)
    | quantity digits u valid =>
      have front : frontWord (u.word.toList ++ charsOf (fun _ => false) ps) ≠ ['n', 'o', 'w'] := by
        rw [frontWord_of_breaks (breaks_of_separated h rfl), frontWord_letters u.wordChars]
        cases u <;> decide
      have joined : ∀ c ∈ u.word.toList, joins c = true := fun c mem =>
        Bool.or_eq_true _ _ ▸ .inl (u.wordChars c mem)
      have absent : 'n' ∉ digits.toList ++ [' '] := by
        intro mem
        rcases List.mem_append.1 mem with digit | space
        · exact absurd ((Numeral.isDigits_iff.1 valid).2 'n' digit) (by decide)
        · exact absurd space (by decide)
      have shape : (Piece.quantity digits u valid).chars (fun _ => false) =
          (digits.toList ++ [' ']) ++ u.word.toList := by
        simp [Piece.chars]
      rw [shape, List.append_assoc, replaceNow, replaceWord_skip absent]
      exact congrArg (digits.toList ++ [' '] ++ ·) (word joined front _)
    | field path valid =>
      rw [Piece.chars, ← List.singleton_append, List.append_assoc, replaceNow,
        replaceWord_skip (by decide),
        replaceWord_inside now_letters (by decide) (joins_of_identifier valid) rfl]
      exact congrArg (fun cs => ['.'] ++ (path.toList ++ cs)) (more _)
    | sign mark valid =>
      refine skip (fun mem => ?_) before
      rcases valid with rfl | rfl <;> exact absurd mem (by decide)
    | bracket mark kind valid =>
      refine skip (fun mem => ?_) before
      rw [← List.mem_singleton.1 mem] at valid
      cases valid.1
    | operator o => exact skip (by cases o <;> decide) before
    | comma => exact skip (by decide) before

/-- Substitutions for some units, one after another. -/
theorem toList_foldl_replaceWords (units : List UnitSuffix) {text : String} (h : Separated ps)
    (chars : text.toList = charsOf expanded ps) :
    (units.foldl (fun text u => replaceWords text (" " ++ u.word) u.replacement) text).toList =
      charsOf (fun v => expanded v || v ∈ units) ps := by
  induction units generalizing text expanded with
  | nil => simpa using chars
  | cons u units ih =>
    have first : (replaceWords text (" " ++ u.word) u.replacement).toList =
        charsOf (fun v => expanded v || v = u) ps := by
      rw [toList_replaceWords_suffix, chars]
      exact replaceUnit_charsOf u h
    rw [List.foldl_cons, ih first]
    simp [Bool.or_assoc]

/-- The table writes its numerals for the units and leaves everything else alone. -/
theorem toList_apply_solidity {text : String} (h : Separated ps)
    (chars : text.toList = charsOf (fun _ => false) ps) :
    (solidity.apply text).toList = charsOf (fun _ => true) ps := by
  have now : (replaceWords text "now" "block.timestamp").toList = charsOf (fun _ => false) ps := by
    rw [toList_replaceWords_word (show "now".toList = 'n' :: ['o', 'w'] from rfl), chars]
    exact replaceNow_charsOf h none
  have units := toList_foldl_replaceWords UnitSuffix.all h now
  simp only [Substitution.apply, entries_solidity, List.foldl_cons, List.foldl_map]
  simpa [UnitSuffix.mem_all] using units

theorem head_charsOf_ne_equals (ps : List Piece) : (charsOf expanded ps).head? ≠ some '=' := by
  cases ps with
  | nil => exact fun front => by cases front
  | cons p ps =>
    rw [charsOf_cons]
    intro front
    cases p with
    | name lexeme valid =>
      obtain ⟨c, cs, chars, start, -⟩ := chars_identifier (Bool.and_eq_true _ _ ▸ valid).1
      rw [Piece.chars, chars] at front
      obtain rfl : c = '=' := Option.some.inj front
      exact absurd start (by decide)
    | number lexeme valid =>
      obtain ⟨c, cs, chars, start, -⟩ := chars_number valid
      rw [Piece.chars, chars] at front
      obtain rfl : c = '=' := Option.some.inj front
      cases start
    | quantity digits u valid =>
      obtain ⟨c, cs, chars, all⟩ := exists_cons_of_isDigits valid
      rw [Piece.chars, chars] at front
      obtain rfl : c = '=' := Option.some.inj front
      exact absurd (all '=' List.mem_cons_self) (by decide)
    | sign mark valid =>
      obtain rfl : mark = '=' := Option.some.inj front
      rcases valid with same | same <;> exact absurd same (by decide)
    | bracket mark kind valid =>
      obtain rfl : mark = '=' := Option.some.inj front
      cases valid.1
    | field | operator | comma => exact absurd (Option.some.inj front) (by decide)

/-- What comes out of the table splits into the words of the pieces. -/
theorem lexes_charsOf (h : Separated ps) : Lexes (charsOf (fun _ => true) ps) (wordsOf ps) := by
  induction ps with
  | nil => exact Lexes.nil
  | cons p ps ih =>
    have more := ih h.tail
    rw [charsOf_cons, wordsOf, List.flatMap_cons, ← wordsOf]
    cases p with
    | name lexeme valid =>
      exact Lexes.whole (Bool.and_eq_true _ _ ▸ valid).1 (.inl rfl) (breaks_of_separated h rfl) more
    | number lexeme valid => exact Lexes.whole valid (.inr rfl) (breaks_of_separated h rfl) more
    | quantity digits u valid =>
      have breaks : Breaks (charsOf (fun _ => true) ps) := breaks_of_separated h rfl
      cases factor : u.factor? with
      | none =>
        have joined := Lexes.whole (UnitSuffix.value?_joined valid factor).2 (.inr rfl) breaks more
        simpa [Piece.chars, Piece.words, factor] using joined
      | some text =>
        have last := Lexes.whole (isWhole_of_isDigits (UnitSuffix.factor?_spec factor).1) (.inr rfl)
          breaks more
        have times := Lexes.between .mul last
        have gap : Breaks (' ' :: (Operator.mul.symbol.toList ++ ' ' :: (text.toList ++
            charsOf (fun _ => true) ps))) := by
          rintro c ⟨⟩
          decide
        have first := Lexes.whole (isWhole_of_isDigits valid) (.inr rfl) gap times
        have shape : u.replacement.toList = ' ' :: (Operator.mul.symbol.toList ++ ' ' ::
            text.toList) := by
          simp [UnitSuffix.replacement, factor, Operator.symbol]
        simpa [Piece.chars, Piece.words, factor, shape, Operator.symbol] using first
    | field path valid => exact Lexes.path valid (breaks_of_separated h rfl) more
    | sign mark valid => exact Lexes.sign valid (head_charsOf_ne_equals ps) more
    | bracket mark kind valid =>
      exact Lexes.punctuation valid.1 (fun dot => absurd dot valid.2) more
    | operator o => simpa [Piece.chars, Piece.words] using Lexes.between o more
    | comma => exact Lexes.comma more

/-- A text in pieces is read, behind the table, as the tree that their words form. -/
theorem ofText_apply_solidity {text : String} {e : Expr} (h : Separated ps)
    (chars : text.toList = charsOf (fun _ => false) ps)
    (derives : Parser.Derives Parser.maxNesting 1 (wordsOf ps) e) :
    Expr.ofText (solidity.apply text) = .ok e := by
  refine Expr.ofText_of_lexes ?_ derives
  rw [toList_apply_solidity h chars]
  exact lexes_charsOf h

end PredicateStrength
