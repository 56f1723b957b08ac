import Mathlib
import PredicateStrength.Proofs.Token.Lexing

/-!
# Text split and put together

How far a token reaches can depend on what follows it, but only in one direction: the token ends at
the same place when what follows is cut off anywhere, or is put off by a space. So a name or number
that comes out of a text is one token also when it stands alone. In the other direction, text that
splits into words in front of what follows it can be put together from parts, as long as no part
runs on into the next.

Main statements: `scan_cut`, `isWhole_of_mem_ofText`, `Splits.append`.
-/
namespace PredicateStrength.Token

variable {c : Char} {cs rest rest' : List Char} {kind : TokenKind}

/-- What followed a token is cut short: a beginning of it is left, or a space stands in front. -/
inductive Cut : List Char → List Char → Prop
  | front (kept off : List Char) : Cut (kept ++ off) kept
  | space (before more : List Char) : Cut before (' ' :: more)

theorem Cut.nil (rest : List Char) : Cut rest [] := .front [] rest

theorem Cut.cases (h : Cut rest rest') : rest' = [] ∨ (∃ more, rest' = ' ' :: more) ∨
    ∃ d kept off, rest' = d :: kept ∧ rest = d :: (kept ++ off) := by
  cases h with
  | space before more => exact .inr (.inl ⟨more, rfl⟩)
  | front kept off =>
    cases rest' with
    | nil => exact .inl rfl
    | cons d ds => exact .inr (.inr ⟨d, ds, off, rfl, rfl⟩)

theorem Cut.startsWith (h : Cut rest rest') {p : Char → Bool} (space : p ' ' = false)
    (none : Token.startsWith p rest = false) : Token.startsWith p rest' = false := by
  cases h with
  | front kept off =>
    by_contra found
    rw [Bool.not_eq_false] at found
    rw [startsWith_append found] at none
    cases none
  | space before more => exact space

/-- Behind the same characters, what is cut short starts no differently. -/
theorem Cut.startsWith_append (h : Cut rest rest') {p : Char → Bool} (space : p ' ' = false)
    (taken : List Char) (none : Token.startsWith p (taken ++ rest) = false) :
    Token.startsWith p (taken ++ rest') = false := by
  cases taken with
  | nil => exact h.startsWith space none
  | cons d ds => exact none

theorem startsWith_taken {p : Char → Bool} {s : Scan} (chars : s.chars = cs)
    (filled : s.taken ≠ []) (found : Token.startsWith p cs = true) (rest' : List Char) :
    Token.startsWith p (s.taken ++ rest') = true := by
  obtain ⟨d, ds, same⟩ := List.exists_cons_of_ne_nil filled
  rw [← chars, Scan.chars, same] at found
  rw [same]
  exact found

theorem taken_scanIdent_ne_nil (h : Token.startsWith isIdentStart cs = true) :
    (scanIdent cs).taken ≠ [] := by
  cases cs with
  | nil => cases h
  | cons d ds =>
    have part : isIdentPart d = true := isIdentPart_of_isIdentStart h
    simp [scanIdent, part]

theorem scanIdent_of_cut (stops : scanIdent rest = .stop rest) (cut : Cut rest rest') :
    scanIdent rest' = .stop rest' := by
  rcases cut.cases with rfl | ⟨more, rfl⟩ | ⟨d, kept, off, rfl, rfl⟩
  · rfl
  · rw [scanIdent]
    exact if_neg (by simp [isIdentPart])
  · rw [scanIdent] at stops
    split at stops
    · exact absurd (congrArg Scan.taken stops) (Scan.taken_cons_ne_nil _ _)
    · next part =>
      rw [scanIdent]
      apply if_neg
      intro goes
      apply part
      simp only [Bool.or_eq_true, Bool.and_eq_true] at goes ⊢
      exact goes.imp id fun dotted => ⟨dotted.1, Token.startsWith_append dotted.2⟩

/-- What a name takes, it takes again. -/
theorem scanIdent_cut (cut : Cut (scanIdent cs).rest rest') :
    scanIdent ((scanIdent cs).taken ++ rest') = ⟨(scanIdent cs).taken, rest', true⟩ := by
  fun_induction scanIdent cs with
  | case1 => exact scanIdent_of_cut rfl cut
  | case2 c cs part ih =>
    have again : (isIdentPart c ||
        c = '.' && Token.startsWith isIdentStart ((scanIdent cs).taken ++ rest')) = true := by
      simp only [Bool.or_eq_true, Bool.and_eq_true] at part ⊢
      refine part.imp id fun dotted => ⟨dotted.1, ?_⟩
      exact startsWith_taken (chars_scanIdent cs) (taken_scanIdent_ne_nil dotted.2) dotted.2 rest'
    show scanIdent (c :: ((scanIdent cs).taken ++ rest')) = _
    rw [scanIdent, if_pos again, ih cut]
    rfl
  | case3 c cs part =>
    refine scanIdent_of_cut ?_ cut
    show scanIdent (c :: cs) = .stop (c :: cs)
    rw [scanIdent, if_neg part]

theorem taken_scanDecimal_ne_nil {point exponent : Bool}
    (h : Token.startsWith Char.isDigit cs = true) :
    (scanDecimal point exponent cs).taken ≠ [] := by
  cases cs with
  | nil => cases h
  | cons d ds =>
    have digit : d.isDigit = true := h
    rw [scanDecimal.eq_def]
    simp [digit]

theorem startsWith_scanDecimal {point exponent : Bool}
    (h : Token.startsWith Char.isDigit cs = true) (rest' : List Char) :
    Token.startsWith Char.isDigit ((scanDecimal point exponent cs).taken ++ rest') = true :=
  startsWith_taken (chars_scanDecimal _ _ cs) (taken_scanDecimal_ne_nil h) h rest'

/-- Whether a decimal number goes on is seen from the next character alone. -/
theorem scanDecimal_cons_eq_stop {point exponent : Bool} {d : Char} {ds : List Char} :
    scanDecimal point exponent (d :: ds) = .stop (d :: ds) ↔
      ¬(d.isDigit || d = '_') = true ∧ ¬(d = '.' && !point && !exponent) = true ∧
        ¬((d = 'e' || d = 'E') && !exponent) = true := by
  rw [scanDecimal.eq_def]
  constructor
  · intro stops
    dsimp only at stops
    split at stops
    · exact absurd (congrArg Scan.taken stops) (Scan.taken_cons_ne_nil _ _)
    · next digit =>
      split at stops
      · split at stops
        · exact absurd (congrArg Scan.taken stops) (Scan.taken_cons_ne_nil _ _)
        · exact absurd (congrArg Scan.wellFormed stops) Bool.false_ne_true
      · next dot =>
        split at stops
        · exact absurd (congrArg Scan.taken stops) (Scan.taken_cons_ne_nil _ _)
        · next mark => exact ⟨digit, dot, mark⟩
  · rintro ⟨digit, dot, mark⟩
    simp only [digit, dot, mark]
    rfl

theorem scanDecimal_of_cut {point exponent : Bool}
    (stops : scanDecimal point exponent rest = .stop rest) (cut : Cut rest rest') :
    scanDecimal point exponent rest' = .stop rest' := by
  rcases cut.cases with rfl | ⟨more, rfl⟩ | ⟨d, kept, off, rfl, rfl⟩
  · rfl
  · exact scanDecimal_cons_eq_stop.2 (by simp)
  · exact scanDecimal_cons_eq_stop.2 (scanDecimal_cons_eq_stop.1 stops)

/-- What a decimal number takes, it takes again. -/
theorem scanDecimal_cut {point exponent : Bool}
    (formed : (scanDecimal point exponent cs).wellFormed = true)
    (cut : Cut (scanDecimal point exponent cs).rest rest') :
    scanDecimal point exponent ((scanDecimal point exponent cs).taken ++ rest') =
      ⟨(scanDecimal point exponent cs).taken, rest', true⟩ := by
  fun_induction scanDecimal point exponent cs with
  | case1 => exact scanDecimal_of_cut rfl cut
  | case2 point exponent c cs digit ih =>
    show scanDecimal _ _ (c :: ((scanDecimal point exponent cs).taken ++ rest')) = _
    rw [scanDecimal.eq_def]
    simp only [digit, if_true, ih formed cut]
    rfl
  | case3 point exponent c cs digit dot fraction ih =>
    show scanDecimal _ _ (c :: ((scanDecimal true exponent cs).taken ++ rest')) = _
    rw [scanDecimal.eq_def]
    simp only [digit, dot, startsWith_scanDecimal fraction, if_true, ih formed cut]
    rfl
  | case4 => cases formed
  | case5 point exponent c cs digit dot mark ih =>
    cases cs with
    | nil => cases formed
    | cons d ds =>
      obtain ⟨afterSign, unsigned⟩ := ih
      simp only [Scan.cons] at formed cut ⊢
      by_cases sign : (decide (d = '+') || decide (d = '-')) = true
      · by_cases started : Token.startsWith Char.isDigit ds = true
        · simp only [sign, started, if_true] at formed cut ⊢
          rw [List.cons_append, List.cons_append, scanDecimal.eq_def]
          simp only [digit, dot, mark, sign, startsWith_scanDecimal started, if_true,
            afterSign formed cut]
          rfl
        · simp [sign, started, Scan.broken] at formed
      · by_cases started : d.isDigit = true
        · simp only [sign, started, Bool.false_eq_true, if_false, if_true] at formed cut ⊢
          have more := unsigned formed cut
          obtain ⟨ds', same⟩ : ∃ ds', (scanDecimal point true (d :: ds)).taken = d :: ds' := by
            rw [scanDecimal.eq_def]
            simp [started, Scan.cons]
          rw [same] at more ⊢
          rw [List.cons_append] at more
          rw [List.cons_append, List.cons_append, scanDecimal.eq_def]
          simp only [digit, dot, mark, sign, started, Bool.false_eq_true, if_false, if_true, more]
          rfl
        · simp [sign, started, Scan.broken] at formed
  | case6 point exponent c cs digit dot mark =>
    exact scanDecimal_of_cut (scanDecimal_cons_eq_stop.2 ⟨digit, dot, mark⟩) cut

theorem scanHex_cut (formed : (scanHex cs).wellFormed = true)
    (cut : Cut (scanHex cs).rest rest') :
    scanHex ((scanHex cs).taken ++ rest') = ⟨(scanHex cs).taken, rest', true⟩ := by
  have digits : ∀ d ∈ (scanHex cs).taken, isHexPart d = true := fun d mem =>
    List.mem_takeWhile_imp mem
  have filled : (scanHex cs).taken ≠ [] := by
    cases cs with
    | nil => cases formed
    | cons d ds =>
      have part : isHexPart d = true := formed
      show (d :: ds).takeWhile isHexPart ≠ []
      simp [part]
  have stop : Token.startsWith isHexPart rest' = false := by
    refine cut.startsWith rfl ?_
    show Token.startsWith isHexPart (cs.dropWhile isHexPart) = false
    have first := List.head?_dropWhile_not isHexPart cs
    cases left : cs.dropWhile isHexPart with
    | nil => rfl
    | cons d ds =>
      show isHexPart d = false
      simpa [left] using first
  have again : Token.startsWith isHexPart ((scanHex cs).taken ++ rest') = true :=
    startsWith_taken (chars_scanHex cs) filled formed rest'
  have none : rest'.takeWhile isHexPart = [] ∧ rest'.dropWhile isHexPart = rest' := by
    cases rest' with
    | nil => exact ⟨rfl, rfl⟩
    | cons d ds =>
      change isHexPart d = false at stop
      simp [stop]
  show (⟨((scanHex cs).taken ++ rest').takeWhile isHexPart,
    ((scanHex cs).taken ++ rest').dropWhile isHexPart,
    Token.startsWith isHexPart ((scanHex cs).taken ++ rest')⟩ : Scan) = _
  rw [List.takeWhile_append_of_pos digits, List.dropWhile_append_of_pos digits, again, none.1,
    none.2, List.append_nil]

/-- A number that absorbed no word absorbs none in front of what is cut short. -/
theorem absorbWord_cut {s : Scan} (formed : s.absorbWord.wellFormed = true)
    (cut : Cut s.absorbWord.rest rest') (taken : List Char) :
    (⟨taken, rest', true⟩ : Scan).absorbWord = ⟨taken, rest', true⟩ := by
  have plain := absorbWord_of_wellFormed formed
  have none : Token.startsWith isIdentStart s.rest = false := by
    rw [plain] at formed
    by_contra word
    have absorbs : s.absorbWord.wellFormed = false := by
      rw [Scan.absorbWord, formed, Bool.eq_true_of_not_eq_false word]
      rfl
    rw [plain, formed] at absorbs
    cases absorbs
  rw [plain] at cut
  rw [Scan.absorbWord, cut.startsWith (by decide) none]
  rfl

/-- What a number takes, it takes again. -/
theorem exists_scanNumber_cut (start : startsNumber c cs = true)
    (formed : (scanNumber c cs).wellFormed = true) (cut : Cut (scanNumber c cs).rest rest') :
    ∃ ds, (scanNumber c cs).taken = c :: ds ∧ startsNumber c (ds ++ rest') = true ∧
      scanNumber c (ds ++ rest') = ⟨c :: ds, rest', true⟩ := by
  by_cases mark : HasMark c cs
  · obtain ⟨rfl, m, ds, rfl | rfl, rfl⟩ := mark
    all_goals
      unfold scanNumber at formed cut
      have alone := absorbWord_cut formed cut
      have plain := absorbWord_of_wellFormed formed
      rw [plain] at formed cut
      unfold scanNumber
      rw [plain]
      refine ⟨_, rfl, rfl, ?_⟩
      simp only [Scan.cons, List.cons_append, scanHex_cut formed cut, alone]
  · rw [scanNumber_of_not_hasMark mark] at formed cut ⊢
    have alone := absorbWord_cut formed cut
    have plain := absorbWord_of_wellFormed formed
    rw [plain] at formed cut ⊢
    refine ⟨_, rfl, ?_, ?_⟩
    · simp only [startsNumber, Bool.or_eq_true, Bool.and_eq_true] at start ⊢
      exact start.imp id fun fraction => ⟨fraction.1, startsWith_scanDecimal fraction.2 rest'⟩
    · have other : ¬HasMark c ((scanDecimal (c = '.') false cs).taken ++ rest') := by
        rintro ⟨rfl, m, ds, letter, front⟩
        have chars := chars_scanDecimal ('0' = '.') false cs
        have none : Token.startsWith (fun d => d = 'x' || d = 'X') cs = false := by
          cases cs with
          | nil => rfl
          | cons d ds =>
            by_contra found
            have letter : d = 'x' ∨ d = 'X' := by
              simpa [Token.startsWith, -not_or, or_iff_not_imp_left] using found
            exact mark ⟨rfl, d, ds, letter, rfl⟩
        rw [← chars] at none
        have later := cut.startsWith_append rfl _ none
        rw [front] at later
        rcases letter with rfl | rfl <;> cases later
      rw [scanNumber_of_not_hasMark other]
      have again := scanDecimal_cut formed cut
      rw [Scan.cons, again]
      exact alone _

theorem startsNumber_cut (taken : List Char) (none : startsNumber c (taken ++ rest) = false)
    (cut : Cut rest rest') : startsNumber c (taken ++ rest') = false := by
  simp only [startsNumber, Bool.or_eq_false_iff, Bool.and_eq_false_imp] at none ⊢
  exact none.imp id fun fraction dot => cut.startsWith_append rfl taken (fraction dot)

/-- Of what follows an operator, only a character that completes a longer one matters. -/
theorem exists_scanOperator_cut {s : Scan} (h : scanOperator? c cs = some s)
    (cut : Cut s.rest rest') :
    ∃ ds, s.taken = c :: ds ∧ cs = ds ++ s.rest ∧
      scanOperator? c (ds ++ rest') = some ⟨c :: ds, rest', true⟩ := by
  have single (known : c ∈ singleOperators) (longer : ∀ d ∈ cs.head?, (c, d) ∉ pairOperators)
      (cut : Cut cs rest') : scanOperator? c rest' = some ⟨[c], rest', true⟩ := by
    rcases cut.cases with rfl | ⟨more, rfl⟩ | ⟨d, kept, off, rfl, rfl⟩
    · exact if_pos known
    · have apart : (c, ' ') ∉ pairOperators := by simp [pairOperators]
      exact (if_neg apart).trans (if_pos known)
    · exact (if_neg (longer d rfl)).trans (if_pos known)
  unfold scanOperator? at h
  split at h
  · next d ds =>
    split at h
    · next pair =>
      cases h
      exact ⟨[d], rfl, rfl, if_pos pair⟩
    · next apart =>
      split at h
      · next known =>
        cases h
        refine ⟨[], rfl, rfl, single known (fun e mem => ?_) cut⟩
        cases mem
        exact apart
      · cases h
  · split at h
    · next known =>
      cases h
      exact ⟨[], rfl, rfl, single known (fun _ mem => by cases mem) cut⟩
    · cases h

/-- A token ends at the same place when what follows it is cut short. -/
theorem scan_cut {pos : Nat} {s : Scan} (h : scan pos c cs = .ok (kind, s))
    (cut : Cut s.rest rest') (pos' : Nat) :
    ∃ ds, s.taken = c :: ds ∧ scan pos' c (ds ++ rest') = .ok (kind, ⟨c :: ds, rest', true⟩) := by
  rcases Bool.eq_false_or_eq_true (startsNumber c cs) with number | other
  · rw [scan_number pos number] at h
    split at h
    · next formed =>
      cases h
      obtain ⟨ds, taken, start, again⟩ := exists_scanNumber_cut number formed cut
      refine ⟨ds, taken, ?_⟩
      rw [scan_number pos' start, again]
      rfl
    · cases h
  rcases Bool.eq_false_or_eq_true (isIdentStart c) with name | plain
  · rw [scan_identifier pos name] at h
    cases h
    refine ⟨_, rfl, ?_⟩
    rw [scan_identifier pos' name, scanIdent_cut cut]
    rfl
  rw [scan_mark pos other plain] at h
  split at h
  · next mark =>
    cases h
    refine ⟨[], rfl, ?_⟩
    rw [scan_mark pos' (startsNumber_cut [] other cut) plain, mark]
    rfl
  · next mark =>
    split at h
    · next s operator =>
      cases h
      obtain ⟨ds, taken, rfl, again⟩ := exists_scanOperator_cut operator cut
      refine ⟨ds, taken, ?_⟩
      rw [scan_mark pos' (startsNumber_cut ds other cut) plain, mark, again]
    · cases h

theorem isWhole_of_scan {pos : Nat} {s : Scan} (h : scan pos c cs = .ok (kind, s)) :
    isWhole kind (String.ofList s.taken) = true := by
  obtain ⟨ds, taken, again⟩ := scan_cut h (.nil s.rest) 0
  rw [List.append_nil] at again
  unfold isWhole
  simp [taken, again]

/-- The tokens of a text are tokens on their own. -/
theorem isWhole_of_mem_ofChars {pos : Nat} {ts : List Token} (h : ofChars pos cs = .ok ts)
    {t : Token} (mem : t ∈ ts) : isWhole t.kind t.lexeme = true := by
  fun_induction ofChars pos cs generalizing ts with
  | case1 =>
    cases h
    cases mem
  | case2 pos c cs space ih => exact ih h mem
  | case3 => cases h
  | case4 pos c cs space kind s found shorter ih =>
    cases later : ofChars (pos + byteLength s.taken) s.rest with
    | error => rw [later] at h; cases h
    | ok us =>
      rw [later] at h
      cases h
      rcases List.mem_cons.1 mem with rfl | mem
      · exact isWhole_of_scan found
      · exact ih later mem

theorem isWhole_of_mem_ofText {text : String} {ts : List Token} (h : ofText text = .ok ts)
    {t : Token} (mem : t ∈ ts) (_ : t.kind = .identifier ∨ t.kind = .number) :
    isWhole t.kind t.lexeme = true := isWhole_of_mem_ofChars h mem

/-- In front of whatever `F` allows, the characters split into the words. -/
def Splits (F : List Char → Prop) (cs : List Char) (ws : List Word) : Prop :=
  ∀ rest vs, F rest → Lexes rest vs → Lexes (cs ++ rest) (ws ++ vs)

variable {F G : List Char → Prop} {ds : List Char} {vs ws : List Word}

theorem Splits.mono (h : Splits F cs ws) (fits : ∀ rest, G rest → F rest) : Splits G cs ws :=
  fun rest vs follows more => h rest vs (fits rest follows) more

theorem Splits.append (h : Splits F cs vs) (h' : Splits G ds ws)
    (fits : ∀ rest, G rest → F (ds ++ rest)) : Splits G (cs ++ ds) (vs ++ ws) := by
  intro rest us follows more
  rw [List.append_assoc, List.append_assoc]
  exact h _ _ (fits rest follows) (h' rest us follows more)

theorem Splits.nil : Splits F [] [] := fun _ _ _ more => more

theorem Splits.name {text : String} (word : isWhole .identifier text = true) :
    Splits Breaks text.toList [⟨.identifier, text⟩] :=
  fun _ _ breaks more => Lexes.name word breaks more

theorem Splits.number {text : String} (word : isWhole .number text = true) :
    Splits (if takesPoint text.toList then Breaks else EndsWord) text.toList [⟨.number, text⟩] := by
  intro rest vs follows more
  by_cases point : takesPoint text.toList = true
  · rw [if_pos point] at follows
    exact Lexes.number word follows.endsWord (fun dot => absurd dot follows.noDot) more
  · rw [if_neg point] at follows
    exact Lexes.number word follows (fun _ => Bool.eq_false_iff.2 point) more

/-- A bracket or a comma. -/
theorem Splits.mark (valid : punctuation? c = some kind ∧ c ≠ '.') :
    Splits (fun _ => True) [c] [⟨kind, String.ofList [c]⟩] :=
  fun _ _ _ more => Lexes.punctuation valid.1 (fun dot => absurd dot valid.2) more

theorem Splits.comma : Splits (fun _ => True) [',', ' '] [⟨.comma, ","⟩] :=
  fun _ _ _ more => Lexes.comma more

theorem Splits.operator (o : Operator) :
    Splits (fun _ => True) (' ' :: (o.symbol.toList ++ [' '])) [⟨.operator, o.symbol⟩] := by
  intro rest vs _ more
  simpa using Lexes.between o more

theorem Splits.sign (valid : c = '!' ∨ c = '-') :
    Splits (fun rest => rest.head? ≠ some '=') [c] [⟨.operator, String.ofList [c]⟩] :=
  fun _ _ other more => Lexes.sign valid other more

theorem Splits.path {text : String} (word : isWhole .identifier text = true) :
    Splits Breaks ('.' :: text.toList) [⟨.dot, "."⟩, ⟨.identifier, text⟩] :=
  fun _ _ breaks more => Lexes.path word breaks more

theorem breaks_cons (part : isIdentPart c = false) (dot : c ≠ '.') (cs : List Char) :
    Breaks (c :: cs) := by
  rintro d ⟨⟩
  exact ⟨part, dot⟩

theorem breaks_mark (valid : punctuation? c = some kind ∧ c ≠ '.') (cs : List Char) :
    Breaks (c :: cs) := breaks_cons (isIdentPart_of_punctuation? valid.1) valid.2 cs

theorem breaks_nil : Breaks [] := fun _ mem => by cases mem

/-- Something in brackets behind something else. -/
theorem Splits.brackets {l r : Char} {kind' : TokenKind}
    (opens : punctuation? l = some kind ∧ l ≠ '.') (closes : punctuation? r = some kind' ∧ r ≠ '.')
    (front : Splits Breaks cs vs) (inside : Splits Breaks ds ws) :
    Splits (fun _ => True) (cs ++ ([l] ++ (ds ++ [r])))
      (vs ++ ([⟨kind, String.ofList [l]⟩] ++ (ws ++ [⟨kind', String.ofList [r]⟩]))) := by
  have back := inside.append (Splits.mark closes) fun rest _ => breaks_mark closes rest
  have open_ := (Splits.mark opens).append back fun _ _ => trivial
  exact front.append open_ fun rest _ => breaks_mark opens _

/-- No word starts with `=` but the comparison `==`. -/
theorem Lexes.head_equals {w : Word} (h : Lexes ('=' :: cs) (w :: ws)) : w = ⟨.operator, "=="⟩ := by
  obtain ⟨ts, read, words⟩ := h 0
  rw [ofChars, if_neg (by decide)] at read
  split at read
  · cases read
  · next kind s found =>
    have equals : kind = .operator ∧ s.taken = ['=', '='] := by
      rw [scan_mark 0 (by simp [startsNumber]) (by decide)] at found
      cases cs with
      | nil => cases found
      | cons d ds =>
        by_cases same : d = '='
        · subst same
          cases found
          exact ⟨rfl, rfl⟩
        · simp [punctuation?, scanOperator?, pairOperators, singleOperators, same] at found
    cases later : ofChars (0 + byteLength s.taken) s.rest with
    | error => rw [later] at read; cases read
    | ok us =>
      rw [later] at read
      cases read
      rw [List.map_cons, List.cons.injEq] at words
      rw [← words.1, Token.word, equals.1, equals.2]

end PredicateStrength.Token
