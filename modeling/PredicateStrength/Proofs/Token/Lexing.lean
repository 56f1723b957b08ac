import Mathlib
import PredicateStrength.Proofs.Expr.Grammar
import PredicateStrength.Proofs.Numeral

/-!
# Splitting written words

Text that was put together from words splits into these words again, as long as no name or number
runs on into what follows it.

Main statement: a word that is one token as a whole stays that token in front of any text that
breaks it off (`Lexes.whole`). Words of the other kinds are read off one by one.
-/
namespace PredicateStrength.Token

/-- The text is one token of the kind. -/
def isWhole (kind : TokenKind) (text : String) : Bool :=
  match text.toList with
  | [] => false
  | c :: cs =>
    match scan 0 c cs with
    | .ok (k, s) => k = kind && s.rest.isEmpty
    | .error _ => false

/-- Neither a name nor a number goes on with these characters. -/
def Breaks (rest : List Char) : Prop := ∀ c ∈ rest.head?, isIdentPart c = false ∧ c ≠ '.'

/-- No word goes on with these characters, but there may be a dot. -/
def EndsWord (rest : List Char) : Prop := ∀ c ∈ rest.head?, isIdentPart c = false

/-- A dot behind these characters of a number would be its decimal point. -/
def takesPoint (cs : List Char) : Bool := cs.all fun c => c.isDigit || c = '_'

/-- The characters split into the words, wherever they stand. -/
def Lexes (cs : List Char) (ws : List Word) : Prop :=
  ∀ pos, ∃ ts, ofChars pos cs = .ok ts ∧ ts.map Token.word = ws

variable {c : Char} {cs rest : List Char} {kind : TokenKind} {ws : List Word}

theorem isIdentPart_of_isIdentStart (h : isIdentStart c = true) : isIdentPart c = true := by
  simp only [isIdentStart, isIdentPart, Char.isAlphanum, Bool.or_eq_true] at h ⊢
  tauto

theorem isIdentPart_of_punctuation? (h : punctuation? c = some kind) : isIdentPart c = false := by
  unfold punctuation? at h
  split at h <;> first | decide | cases h

theorem isIdentPart_of_isDigit (h : c.isDigit = true) : isIdentPart c = true := by
  simp [isIdentPart, Char.isAlphanum, h]

theorem isIdentPart_of_isHexDigit (h : isHexDigit c = true) : isIdentPart c = true := by
  simp only [isHexDigit, isIdentPart, Char.isAlphanum, Char.isAlpha, Char.isLower, Char.isUpper,
    Char.le_def, Bool.or_eq_true, Bool.and_eq_true, decide_eq_true_eq, ge_iff_le] at h ⊢
  grind

theorem Breaks.endsWord (h : Breaks rest) : EndsWord rest := fun c mem => (h c mem).1

theorem Breaks.noDot (h : Breaks rest) : rest.head? ≠ some '.' := fun dot => (h '.' dot).2 rfl

theorem EndsWord.startsWith (h : EndsWord rest) {p : Char → Bool}
    (part : ∀ c, p c = true → isIdentPart c = true) : startsWith p rest = false := by
  cases rest with
  | nil => rfl
  | cons d ds =>
    have other := h d rfl
    rw [Token.startsWith, Bool.eq_false_iff]
    intro found
    rw [part d found] at other
    cases other

theorem startsWith_append {p : Char → Bool} (h : startsWith p cs = true) :
    startsWith p (cs ++ rest) = true := by
  cases cs with
  | nil => cases h
  | cons d ds => exact h

theorem EndsWord.head (h : EndsWord rest) {d : Char} (part : isIdentPart d = true)
    (ds : List Char) :
    rest ≠ d :: ds := by
  rintro rfl
  have other := h d rfl
  rw [part] at other
  cases other

/-- A name goes on with whatever goes on behind it. -/
theorem scanIdent_append (whole : (scanIdent cs).rest = []) :
    scanIdent (cs ++ rest) = ⟨cs ++ (scanIdent rest).taken, (scanIdent rest).rest,
      (scanIdent rest).wellFormed⟩ := by
  fun_induction scanIdent cs with
  | case1 => rfl
  | case2 c cs part ih =>
    have goes : (isIdentPart c || c = '.' && Token.startsWith isIdentStart (cs ++ rest)) = true := by
      simp only [Bool.or_eq_true, Bool.and_eq_true] at part ⊢
      exact part.imp id fun dotted => ⟨dotted.1, startsWith_append dotted.2⟩
    rw [List.cons_append, scanIdent, if_pos goes, ih whole]
    rfl
  | case3 c cs => cases whole

theorem scanIdent_of_breaks (h : Breaks rest) : scanIdent rest = .stop rest := by
  cases rest with
  | nil => rfl
  | cons d ds =>
    obtain ⟨part, dot⟩ := h d rfl
    simp [scanIdent, part, dot]

/-- A dot ends a number that has had its point or its exponent. -/
theorem scanDecimal_of_endsWord {point exponent : Bool} (h : EndsWord rest)
    (dot : rest.head? = some '.' → point = true ∨ exponent = true) :
    scanDecimal point exponent rest = .stop rest := by
  cases rest with
  | nil => rfl
  | cons d ds =>
    have part := h d rfl
    have point : (decide (d = '.') && !point && !exponent) = false := by
      by_cases same : d = '.'
      · rcases dot (congrArg some same) with rfl | rfl <;> simp
      · simp [same]
    have digit : d.isDigit = false := by
      by_contra found
      rw [isIdentPart_of_isDigit (by simpa using found)] at part
      cases part
    have others : d ≠ '_' ∧ d ≠ 'e' ∧ d ≠ 'E' := by
      refine ⟨?_, ?_, ?_⟩ <;> rintro rfl <;> revert part <;> decide
    rw [scanDecimal.eq_def]
    simp only [digit, point]
    simp [others]

/-- The digits, point and exponent of a number do not depend on what breaks it off. -/
theorem scanDecimal_append {point exponent : Bool}
    (whole : (scanDecimal point exponent cs).rest = [])
    (formed : (scanDecimal point exponent cs).wellFormed = true) (h : EndsWord rest)
    (dotted : rest.head? = some '.' → point = true ∨ exponent = true ∨ takesPoint cs = false) :
    scanDecimal point exponent (cs ++ rest) = ⟨cs, rest, true⟩ := by
  fun_induction scanDecimal point exponent cs with
  | case1 point exponent =>
    exact scanDecimal_of_endsWord h fun dot => (dotted dot).imp id fun more =>
      more.resolve_right (by decide)
  | case2 point exponent c cs digit ih =>
    have later : takesPoint (c :: cs) = takesPoint cs := by
      rw [takesPoint, List.all_cons, digit, Bool.true_and]
      rfl
    rw [later] at dotted
    rw [List.cons_append, scanDecimal.eq_def]
    simp only [digit, if_true, ih whole formed dotted]
    rfl
  | case3 point exponent c cs digit dot fraction ih =>
    rw [List.cons_append, scanDecimal.eq_def]
    simp only [digit, dot, startsWith_append fraction, if_true, ih whole formed fun _ => .inl rfl]
    rfl
  | case4 => cases formed
  | case5 point exponent c cs digit dot mark ih =>
    rw [List.cons_append, scanDecimal.eq_def]
    simp only [digit, dot, mark, if_true]
    cases cs with
    | nil => cases formed
    | cons d ds =>
      obtain ⟨afterSign, unsigned⟩ := ih
      simp only [Scan.cons] at whole formed
      by_cases sign : (decide (d = '+') || decide (d = '-')) = true
      · by_cases started : Token.startsWith Char.isDigit ds = true
        · simp only [sign, started, if_true] at whole formed
          simp only [List.cons_append, sign, startsWith_append started, if_true,
            afterSign whole formed fun _ => .inr (.inl rfl)]
          rfl
        · simp [sign, started, Scan.broken] at formed
      · by_cases started : d.isDigit = true
        · simp only [sign, started, if_true] at whole formed
          have more := unsigned whole formed fun _ => .inr (.inl rfl)
          rw [List.cons_append] at more
          simp only [List.cons_append, sign, started, if_true, more]
          rfl
        · simp [sign, started, Scan.broken] at formed
  | case6 => cases whole

/-- A digit of a hexadecimal number or a separator of digits. -/
def isHexPart (c : Char) : Bool := isHexDigit c || c = '_'

theorem scanHex_append (whole : (scanHex cs).rest = []) (formed : (scanHex cs).wellFormed = true)
    (h : EndsWord rest) : scanHex (cs ++ rest) = ⟨cs, rest, true⟩ := by
  have digits : ∀ d ∈ cs, isHexPart d = true := by
    simpa [scanHex, isHexPart, List.dropWhile_eq_nil_iff] using whole
  have stop : Token.startsWith isHexPart rest = false := by
    refine h.startsWith fun d part => ?_
    rcases Bool.or_eq_true _ _ ▸ part with hex | separator
    · exact isIdentPart_of_isHexDigit hex
    · obtain rfl := of_decide_eq_true separator
      rfl
  have none : rest.takeWhile isHexPart = [] ∧ rest.dropWhile isHexPart = rest := by
    cases rest with
    | nil => exact ⟨rfl, rfl⟩
    | cons d ds =>
      change isHexPart d = false at stop
      simp [stop]
  change (⟨(cs ++ rest).takeWhile isHexPart, (cs ++ rest).dropWhile isHexPart,
    Token.startsWith isHexPart (cs ++ rest)⟩ : Scan) = _
  rw [List.takeWhile_append_of_pos digits, List.dropWhile_append_of_pos digits, none.1, none.2,
    List.append_nil, show Token.startsWith isHexPart (cs ++ rest) = true from
      startsWith_append formed]

theorem absorbWord_of_endsWord {s : Scan} (h : EndsWord s.rest) : s.absorbWord = s := by
  rw [Scan.absorbWord, h.startsWith fun _ => isIdentPart_of_isIdentStart, Bool.and_false,
    if_neg Bool.false_ne_true]

/-- A scan that comes out well formed has absorbed no word. -/
theorem absorbWord_of_wellFormed {s : Scan} (formed : s.absorbWord.wellFormed = true) :
    s.absorbWord = s := by
  unfold Scan.absorbWord at formed ⊢
  split at formed
  · cases formed
  · next other => rw [if_neg other]

/-- The number is written with the mark of hexadecimal numbers. -/
def HasMark (c : Char) (cs : List Char) : Prop := c = '0' ∧ ∃ m ds, (m = 'x' ∨ m = 'X') ∧ cs = m :: ds

theorem scanNumber_of_not_hasMark (h : ¬HasMark c cs) :
    scanNumber c cs = (Scan.cons c (scanDecimal (c = '.') false cs)).absorbWord := by
  unfold scanNumber
  split
  · exact absurd ⟨rfl, _, _, .inl rfl, rfl⟩ h
  · exact absurd ⟨rfl, _, _, .inr rfl, rfl⟩ h
  · rfl

/-- A number does not depend on what follows it. -/
theorem scanNumber_append (whole : (scanNumber c cs).rest = [])
    (formed : (scanNumber c cs).wellFormed = true) (h : EndsWord rest)
    (dotted : rest.head? = some '.' → c = '.' ∨ takesPoint cs = false) :
    scanNumber c (cs ++ rest) = ⟨c :: cs, rest, true⟩ := by
  by_cases mark : HasMark c cs
  · have plain := absorbWord_of_wellFormed formed
    obtain ⟨rfl, m, ds, rfl | rfl, rfl⟩ := mark
    all_goals
      unfold scanNumber at formed whole
      rw [plain] at formed whole
      have hex := scanHex_append whole formed h
      simp only [scanNumber, List.cons_append, hex]
      exact absorbWord_of_endsWord h
  · rw [scanNumber_of_not_hasMark mark] at formed whole
    have plain := absorbWord_of_wellFormed formed
    rw [plain] at formed whole
    have other : ¬HasMark c (cs ++ rest) := by
      rintro ⟨rfl, m, ds, letter, front⟩
      cases cs with
      | nil => exact h.head (by rcases letter with rfl | rfl <;> decide) ds front
      | cons d ds' =>
        simp only [List.cons_append, List.cons.injEq] at front
        exact mark ⟨rfl, d, ds', front.1 ▸ letter, rfl⟩
    have point : rest.head? = some '.' →
        decide (c = '.') = true ∨ false = true ∨ takesPoint cs = false := fun dot =>
      (dotted dot).imp decide_eq_true .inr
    rw [scanNumber_of_not_hasMark other, scanDecimal_append whole formed h point]
    exact absorbWord_of_endsWord h

theorem isSpace_eq_false {pos : Nat} {k : TokenKind} {s : Scan}
    (h : scan pos c cs = .ok (k, s)) : isSpace c = false := by
  by_contra space
  have cases : c = ' ' ∨ c = '\t' ∨ c = '\n' ∨ c = '\x0c' ∨ c = '\r' := by
    simpa only [isSpace, Bool.not_eq_false, Bool.or_eq_true, decide_eq_true_eq, or_assoc]
      using space
  rcases cases with rfl | rfl | rfl | rfl | rfl <;> cases cs <;>
    simp [scan, isIdentStart, punctuation?, scanOperator?, pairOperators, singleOperators] at h

theorem ofChars_of_scan {pos : Nat} {s : Scan} {ts : List Token}
    (found : scan pos c cs = .ok (kind, s))
    (later : ofChars (pos + byteLength s.taken) s.rest = .ok ts) :
    ofChars pos (c :: cs) = .ok (⟨String.ofList s.taken, kind, pos⟩ :: ts) := by
  rw [ofChars, if_neg (by simp [isSpace_eq_false found])]
  split
  · next failed =>
    rw [found] at failed
    cases failed
  · next k s' again =>
    rw [found] at again
    cases again
    rw [later]
    rfl

theorem Lexes.nil : Lexes [] [] := fun _ => ⟨[], by rw [ofChars], rfl⟩

theorem Lexes.space (h : isSpace c = true) (more : Lexes cs ws) : Lexes (c :: cs) ws := by
  intro pos
  rw [ofChars, if_pos h]
  exact more _

theorem Lexes.token {taken : List Char}
    (h : ∀ pos, scan pos c cs = .ok (kind, ⟨taken, rest, true⟩)) (more : Lexes rest ws) :
    Lexes (c :: cs) (⟨kind, String.ofList taken⟩ :: ws) := by
  intro pos
  obtain ⟨ts, tail, words⟩ := more (pos + byteLength taken)
  refine ⟨⟨String.ofList taken, kind, pos⟩ :: ts, ofChars_of_scan (h pos) tail, ?_⟩
  rw [List.map_cons, words]
  rfl

/-- The start of a number. -/
def startsNumber (c : Char) (cs : List Char) : Bool :=
  c.isDigit || c = '.' && Token.startsWith Char.isDigit cs

theorem startsNumber_append (h : startsNumber c cs = true) :
    startsNumber c (cs ++ rest) = true := by
  simp only [startsNumber, Bool.or_eq_true, Bool.and_eq_true] at h ⊢
  exact h.imp id fun fraction => ⟨fraction.1, startsWith_append fraction.2⟩

theorem startsNumber_of_isIdentStart (h : isIdentStart c = true) (cs : List Char) :
    startsNumber c cs = false := by
  by_contra number
  simp only [startsNumber, Bool.not_eq_false, Bool.or_eq_true, Bool.and_eq_true,
    decide_eq_true_eq] at number
  rcases number with digit | ⟨rfl, -⟩
  · simp only [isIdentStart, Char.isAlpha, Char.isUpper, Char.isLower, Char.isDigit,
      Bool.or_eq_true, Bool.and_eq_true, decide_eq_true_eq, ge_iff_le] at h digit
    rcases h with ((upper | lower) | rfl) | rfl
    · grind
    · grind
    · revert digit; decide
    · revert digit; decide
  · revert h; decide

theorem scan_number (pos : Nat) (start : startsNumber c cs = true) :
    scan pos c cs = if (scanNumber c cs).wellFormed then .ok (.number, scanNumber c cs)
      else .error (.badNumber (String.ofList (scanNumber c cs).taken) pos) := by
  unfold scan
  exact if_pos start

theorem scan_identifier (pos : Nat) (start : isIdentStart c = true) :
    scan pos c cs = .ok (.identifier, .cons c (scanIdent cs)) := by
  have other : (c.isDigit || c = '.' && Token.startsWith Char.isDigit cs) = false :=
    startsNumber_of_isIdentStart start cs
  unfold scan
  rw [other, if_neg Bool.false_ne_true, if_pos start]

/-- Digits in front are taken as they are. -/
theorem scanDecimal_digits (digits : ∀ d ∈ cs, d.isDigit = true) (point exponent : Bool) :
    scanDecimal point exponent (cs ++ rest) =
      ⟨cs ++ (scanDecimal point exponent rest).taken, (scanDecimal point exponent rest).rest,
        (scanDecimal point exponent rest).wellFormed⟩ := by
  induction cs with
  | nil => rfl
  | cons d ds ih =>
    obtain ⟨here, digits⟩ := List.forall_mem_cons.1 digits
    rw [List.cons_append, scanDecimal.eq_def]
    simp only [here, Bool.true_or, if_true, ih digits]
    rfl

/-- A number that starts with a digit and has no mark of base sixteen is decimal. -/
theorem isWhole_number (digit : c.isDigit = true) (plain : 'x' ∉ cs ∧ 'X' ∉ cs)
    (h : scanDecimal false false cs = ⟨cs, [], true⟩) {text : String}
    (chars : text.toList = c :: cs) :
    isWhole .number text = true := by
  have start : startsNumber c cs = true := by simp [startsNumber, digit]
  have noMark : ¬HasMark c cs := by
    rintro ⟨-, m, ds, rfl | rfl, rfl⟩
    · exact plain.1 List.mem_cons_self
    · exact plain.2 List.mem_cons_self
  have point : decide (c = '.') = false :=
    decide_eq_false (Numeral.ne_of_isDigit digit (by decide))
  have number : scanNumber c cs = ⟨c :: cs, [], true⟩ := by
    rw [scanNumber_of_not_hasMark noMark, point, h]
    exact absorbWord_of_endsWord fun _ mem => by cases mem
  unfold isWhole
  simp [chars, scan_number 0 start, number]

theorem isWhole_of_isDigits {text : String} (h : Numeral.isDigits text = true) :
    isWhole .number text = true := by
  obtain ⟨filled, digits⟩ := Numeral.isDigits_iff.1 h
  obtain ⟨c, cs, chars⟩ := List.exists_cons_of_ne_nil filled
  rw [chars] at digits
  obtain ⟨digit, digits⟩ := List.forall_mem_cons.1 digits
  refine isWhole_number digit ⟨fun mem => ?_, fun mem => ?_⟩ ?_ chars
  · exact absurd (digits _ mem) (by decide)
  · exact absurd (digits _ mem) (by decide)
  · simpa [scanDecimal, Scan.stop] using @scanDecimal_digits cs [] digits false false

theorem isWhole_exponent {text power : String} (h : Numeral.isDigits text = true)
    (exponent : Numeral.isDigits power = true) : isWhole .number (text ++ "e" ++ power) = true := by
  obtain ⟨filled, digits⟩ := Numeral.isDigits_iff.1 h
  obtain ⟨filled', digits'⟩ := Numeral.isDigits_iff.1 exponent
  obtain ⟨c, cs, chars⟩ := List.exists_cons_of_ne_nil filled
  obtain ⟨p, ps, chars'⟩ := List.exists_cons_of_ne_nil filled'
  rw [chars] at digits
  obtain ⟨digit, digits⟩ := List.forall_mem_cons.1 digits
  have tail : scanDecimal false false ('e' :: p :: ps) = ⟨'e' :: p :: ps, [], true⟩ := by
    have more := @scanDecimal_digits (p :: ps) [] (chars' ▸ digits') false true
    rw [List.append_nil] at more
    have first : p.isDigit = true := digits' p (by simp [chars'])
    have sign : (decide (p = '+') || decide (p = '-')) = false := by
      simp [Numeral.ne_of_isDigit first (d := '+') (by decide),
        Numeral.ne_of_isDigit first (d := '-') (by decide)]
    rw [scanDecimal.eq_def]
    simp only [sign, first, more]
    simp [scanDecimal, Scan.stop, Scan.cons]
  have known : ∀ d ∈ cs ++ 'e' :: p :: ps, d.isDigit = true ∨ d = 'e' := by
    intro d mem
    rcases List.mem_append.1 mem with early | late
    · exact .inl (digits d early)
    · exact (List.mem_cons.1 late).elim .inr fun last => .inl (digits' d (chars' ▸ last))
  have whole : scanDecimal false false (cs ++ 'e' :: p :: ps) = ⟨cs ++ 'e' :: p :: ps, [], true⟩ := by
    rw [scanDecimal_digits digits, tail]
  refine isWhole_number digit ⟨fun mem => ?_, fun mem => ?_⟩ whole (by simp [chars, chars'])
  · exact absurd (known 'x' mem) (by decide)
  · exact absurd (known 'X' mem) (by decide)

/-- Only names and numbers are longer than two characters. -/
theorem scan_other {pos : Nat} {s : Scan} (h : scan pos c cs = .ok (kind, s))
    (long : kind = .identifier ∨ kind = .number) :
    startsNumber c cs = true ∨ isIdentStart c = true := by
  by_contra other
  rw [not_or] at other
  unfold scan at h
  rw [if_neg (show ¬(c.isDigit || c = '.' && Token.startsWith Char.isDigit cs) = true from other.1),
    if_neg other.2] at h
  split at h
  · next k mark =>
    cases h
    unfold punctuation? at mark
    rcases long with rfl | rfl <;> split at mark <;> cases mark
  · split at h
    · cases h
      rcases long with long | long <;> cases long
    · cases h

/-- A long token is a name or a number that the whole text belongs to. -/
theorem isWhole_cases {text : String} (word : isWhole kind text = true)
    (long : kind = .identifier ∨ kind = .number) :
    ∃ c cs, text.toList = c :: cs ∧
      (kind = .identifier ∧ isIdentStart c = true ∧ (scanIdent cs).rest = [] ∨
        kind = .number ∧ startsNumber c cs = true ∧ (scanNumber c cs).rest = [] ∧
          (scanNumber c cs).wellFormed = true) := by
  unfold isWhole at word
  split at word
  · cases word
  · next c cs chars =>
    refine ⟨c, cs, chars, ?_⟩
    split at word
    · next k s scanned =>
      obtain ⟨same, empty⟩ := Bool.and_eq_true _ _ ▸ word
      obtain rfl := of_decide_eq_true same
      have whole : s.rest = [] := List.isEmpty_iff.1 empty
      rcases Bool.eq_false_or_eq_true (startsNumber c cs) with number | other
      · rw [scan_number 0 number] at scanned
        split at scanned
        · next formed =>
          cases scanned
          exact .inr ⟨rfl, number, whole, formed⟩
        · cases scanned
      · have name : isIdentStart c = true :=
          (scan_other scanned long).resolve_left (by simp [other])
        rw [scan_identifier 0 name] at scanned
        cases scanned
        exact .inl ⟨rfl, name, whole⟩
    · cases word

theorem isWhole_identifier {text : String} (chars : text.toList = c :: cs)
    (start : isIdentStart c = true) (whole : (scanIdent cs).rest = []) :
    isWhole .identifier text = true := by
  unfold isWhole
  simp [chars, scan_identifier 0 start, Scan.cons, whole]

/-- Two names with a dot between them are one name. -/
theorem isWhole_dotted {first second : String} (h : isWhole .identifier first = true)
    (h' : isWhole .identifier second = true) :
    isWhole .identifier (first ++ "." ++ second) = true := by
  obtain ⟨c, cs, chars, ⟨-, start, whole⟩ | ⟨kind, -⟩⟩ := isWhole_cases h (.inl rfl)
  · obtain ⟨d, ds, chars', ⟨-, start', whole'⟩ | ⟨kind, -⟩⟩ := isWhole_cases h' (.inl rfl)
    · have joined : (first ++ "." ++ second).toList = c :: (cs ++ '.' :: d :: ds) := by
        simp [chars, chars']
      refine isWhole_identifier joined start ?_
      rw [scanIdent_append whole]
      simpa [scanIdent, Token.startsWith, start', isIdentPart_of_isIdentStart start', Scan.cons]
        using whole'
    · cases kind
  · cases kind

/-- A number is split off in front of a dot if it cannot take the dot. -/
theorem Lexes.number {text : String} (word : isWhole .number text = true) (ends : EndsWord rest)
    (dotted : rest.head? = some '.' → takesPoint text.toList = false) (more : Lexes rest ws) :
    Lexes (text.toList ++ rest) (⟨.number, text⟩ :: ws) := by
  obtain ⟨c, cs, chars, ⟨kind, -⟩ | ⟨-, number, whole, formed⟩⟩ := isWhole_cases word (.inr rfl)
  · cases kind
  · have same : String.ofList (c :: cs) = text := by
      rw [← chars, String.ofList_toList]
    have point : rest.head? = some '.' → c = '.' ∨ takesPoint cs = false := by
      intro dot
      have others := dotted dot
      rw [chars, takesPoint, List.all_cons, Bool.and_eq_false_iff, Bool.or_eq_false_iff] at others
      refine others.imp (fun other => ?_) id
      simp only [startsNumber, other.1, Bool.false_or, Bool.and_eq_true, decide_eq_true_eq] at number
      exact number.1
    rw [chars, List.cons_append, ← same]
    refine Lexes.token (fun pos => ?_) more
    rw [scan_number pos (startsNumber_append number), scanNumber_append whole formed ends point,
      if_pos rfl]

theorem Lexes.name {text : String} (word : isWhole .identifier text = true) (breaks : Breaks rest)
    (more : Lexes rest ws) : Lexes (text.toList ++ rest) (⟨.identifier, text⟩ :: ws) := by
  obtain ⟨c, cs, chars, ⟨-, name, whole⟩ | ⟨kind, -⟩⟩ := isWhole_cases word (.inl rfl)
  · have same : String.ofList (c :: cs) = text := by
      rw [← chars, String.ofList_toList]
    rw [chars, List.cons_append, ← same]
    refine Lexes.token (fun pos => ?_) more
    rw [scan_identifier pos name, scanIdent_append whole, scanIdent_of_breaks breaks]
    simp [Scan.stop, Scan.cons]
  · cases kind

theorem Lexes.whole {text : String} (word : isWhole kind text = true)
    (long : kind = .identifier ∨ kind = .number) (breaks : Breaks rest) (more : Lexes rest ws) :
    Lexes (text.toList ++ rest) (⟨kind, text⟩ :: ws) := by
  rcases long with rfl | rfl
  · exact Lexes.name word breaks more
  · exact Lexes.number word breaks.endsWord (fun dot => absurd dot breaks.noDot) more

/-- A character that some number has. -/
def isNumberPart (c : Char) : Bool := isHexDigit c || c ∈ ['_', '.', '+', '-', 'x', 'X']

theorem isNumberPart_of_isDigit (h : c.isDigit = true) : isNumberPart c = true := by
  simp [isNumberPart, isHexDigit, h]

theorem isNumberPart_of_mem_scanDecimal {point exponent : Bool} {d : Char}
    (h : d ∈ (scanDecimal point exponent cs).taken) : isNumberPart d = true := by
  fun_induction scanDecimal point exponent cs with
  | case1 => cases h
  | case2 point exponent c cs digit ih =>
    rcases List.mem_cons.1 h with rfl | later
    · rcases Bool.or_eq_true _ _ ▸ digit with digit | separator
      · exact isNumberPart_of_isDigit digit
      · obtain rfl := of_decide_eq_true separator
        decide
    · exact ih later
  | case3 point exponent c cs digit dot fraction ih =>
    rcases List.mem_cons.1 h with rfl | later
    · obtain rfl : d = '.' := by simp_all
      decide
    · exact ih later
  | case4 => cases h
  | case5 point exponent c cs digit dot mark ih =>
    rcases List.mem_cons.1 h with rfl | later
    · have letter : d = 'e' ∨ d = 'E' := by simp_all
      rcases letter with rfl | rfl <;> decide
    · cases cs with
      | nil => cases later
      | cons e es =>
        obtain ⟨afterSign, unsigned⟩ := ih
        simp only at later
        split at later
        · next sign =>
          rcases List.mem_cons.1 later with rfl | later
          · have sign : d = '+' ∨ d = '-' := by simpa using sign
            rcases sign with rfl | rfl <;> decide
          · split at later
            · exact afterSign later
            · cases later
        · split at later
          · exact unsigned later
          · cases later
  | case6 => cases h

theorem isNumberPart_of_mem_scanNumber (formed : (scanNumber c cs).wellFormed = true)
    (start : startsNumber c cs = true) {d : Char} (h : d ∈ (scanNumber c cs).taken) :
    isNumberPart d = true := by
  have first : isNumberPart c = true := by
    rcases Bool.or_eq_true _ _ ▸ start with digit | fraction
    · exact isNumberPart_of_isDigit digit
    · obtain rfl := of_decide_eq_true (Bool.and_eq_true _ _ ▸ fraction).1
      decide
  by_cases mark : HasMark c cs
  · have plain := absorbWord_of_wellFormed formed
    obtain ⟨rfl, m, ds, rfl | rfl, rfl⟩ := mark
    all_goals
      unfold scanNumber at h
      rw [plain] at h
      rcases List.mem_cons.1 h with rfl | later
      · exact first
      rcases List.mem_cons.1 later with rfl | later
      · decide
      have hex := List.mem_takeWhile_imp later
      rcases Bool.or_eq_true _ _ ▸ hex with hex | separator
      · simp [isNumberPart, hex]
      · obtain rfl := of_decide_eq_true separator
        decide
  · rw [scanNumber_of_not_hasMark mark] at formed h
    rw [absorbWord_of_wellFormed formed] at h
    rcases List.mem_cons.1 h with rfl | later
    · exact first
    · exact isNumberPart_of_mem_scanDecimal later

theorem joined_of_mem_scanIdent {d : Char} (h : d ∈ (scanIdent cs).taken) :
    isIdentPart d = true ∨ d = '.' := by
  fun_induction scanIdent cs with
  | case1 => cases h
  | case2 c cs part ih =>
    rcases List.mem_cons.1 h with rfl | later
    · simp only [Bool.or_eq_true, Bool.and_eq_true, decide_eq_true_eq] at part
      exact part.imp id And.left
    · exact ih later
  | case3 => cases h

theorem taken_of_rest {s : Scan} {all : List Char} (chars : s.chars = all) (whole : s.rest = []) :
    s.taken = all := by
  rwa [Scan.chars, whole, List.append_nil] at chars

/-- A name starts like one and consists of word characters and dots. -/
theorem chars_identifier {text : String} (word : isWhole .identifier text = true) :
    ∃ c cs, text.toList = c :: cs ∧ isIdentStart c = true ∧
      ∀ d ∈ c :: cs, isIdentPart d = true ∨ d = '.' := by
  obtain ⟨c, cs, chars, ⟨-, name, whole⟩ | ⟨kind, -⟩⟩ := isWhole_cases word (.inl rfl)
  · have taken := taken_of_rest (chars_scanIdent cs) whole
    refine ⟨c, cs, chars, name, List.forall_mem_cons.2 ⟨?_, fun d mem => ?_⟩⟩
    · exact .inl (isIdentPart_of_isIdentStart name)
    · exact joined_of_mem_scanIdent (taken ▸ mem)
  · cases kind

/-- A number starts like one and has only characters of numbers. -/
theorem chars_number {text : String} (word : isWhole .number text = true) :
    ∃ c cs, text.toList = c :: cs ∧ startsNumber c cs = true ∧
      ∀ d ∈ c :: cs, isNumberPart d = true := by
  obtain ⟨c, cs, chars, ⟨kind, -⟩ | ⟨-, number, whole, formed⟩⟩ := isWhole_cases word (.inr rfl)
  · cases kind
  · have taken := taken_of_rest (chars_scanNumber c cs) whole
    exact ⟨c, cs, chars, number, fun d mem =>
      isNumberPart_of_mem_scanNumber formed number (taken ▸ mem)⟩

theorem scan_mark (pos : Nat) (start : startsNumber c cs = false) (name : isIdentStart c = false) :
    scan pos c cs =
      match punctuation? c with
      | some kind => .ok (kind, .cons c (.stop cs))
      | none =>
        match scanOperator? c cs with
        | some s => .ok (.operator, s)
        | none => .error (.unexpectedChar c pos) := by
  have number : ¬(c.isDigit || c = '.' && Token.startsWith Char.isDigit cs) = true :=
    Bool.eq_false_iff.1 start
  have ident : ¬isIdentStart c = true := Bool.eq_false_iff.1 name
  exact (if_neg number).trans (if_neg ident)

/-- A bracket or a comma is a token of its own in front of any text, and a dot in front of a
text that does not start with a digit. -/
theorem Lexes.punctuation (mark : punctuation? c = some kind)
    (field : c = '.' → Token.startsWith Char.isDigit rest = false) (more : Lexes rest ws) :
    Lexes (c :: rest) (⟨kind, String.ofList [c]⟩ :: ws) := by
  refine Lexes.token (fun pos => ?_) more
  have other : c.isDigit = false ∧ isIdentStart c = false := by
    unfold punctuation? at mark
    split at mark <;> first | decide | cases mark
  have start : startsNumber c rest = false := by
    rw [startsNumber, other.1, Bool.false_or, Bool.and_eq_false_imp]
    exact fun dot => field (of_decide_eq_true dot)
  rw [scan_mark pos start other.2, mark]
  rfl

/-- A comma and the space behind it. -/
theorem Lexes.comma (more : Lexes rest ws) : Lexes (',' :: ' ' :: rest) (⟨.comma, ","⟩ :: ws) :=
  Lexes.punctuation (c := ',') rfl (fun dot => absurd dot (by decide))
    (Lexes.space (c := ' ') rfl more)

/-- A dot with a name behind it. -/
theorem Lexes.path {text : String} (word : isWhole .identifier text = true) (breaks : Breaks rest)
    (more : Lexes rest ws) :
    Lexes ('.' :: (text.toList ++ rest)) (⟨.dot, "."⟩ :: ⟨.identifier, text⟩ :: ws) := by
  obtain ⟨c, cs, chars, start, -⟩ := chars_identifier word
  have letter : c.isDigit = false :=
    (Bool.or_eq_false_iff.1 (startsNumber_of_isIdentStart start cs)).1
  refine Lexes.punctuation (c := '.') rfl (fun _ => ?_) (Lexes.name word breaks more)
  rw [chars]
  exact letter

/-- An operator in front of a space is a token of its own. -/
theorem Lexes.operator (o : Operator) (more : Lexes (' ' :: rest) ws) :
    Lexes (o.symbol.toList ++ ' ' :: rest) (⟨.operator, o.symbol⟩ :: ws) := by
  cases o <;> exact Lexes.token (fun pos => by simp [scan]; rfl) more

/-- An operator with a space on either side. -/
theorem Lexes.between (o : Operator) (more : Lexes rest ws) :
    Lexes (' ' :: (o.symbol.toList ++ ' ' :: rest)) (⟨.operator, o.symbol⟩ :: ws) :=
  Lexes.space (c := ' ') rfl (Lexes.operator o (Lexes.space (c := ' ') rfl more))

theorem Lexes.sign {sign : Char} (kind : sign = '!' ∨ sign = '-') (other : rest.head? ≠ some '=')
    (more : Lexes rest ws) :
    Lexes (sign :: rest) (⟨.operator, String.ofList [sign]⟩ :: ws) := by
  refine Lexes.token (fun pos => ?_) more
  have single : scanOperator? sign rest = some (.cons sign (.stop rest)) := by
    cases rest with
    | nil => rcases kind with rfl | rfl <;> rfl
    | cons d ds =>
      have unequal : d ≠ '=' := fun same => other (congrArg some same)
      rcases kind with rfl | rfl <;>
        simp [scanOperator?, pairOperators, singleOperators, unequal]
  have start : startsNumber sign rest = false := by
    rcases kind with rfl | rfl <;> rfl
  rw [scan_mark pos start (by rcases kind with rfl | rfl <;> rfl)]
  rcases kind with rfl | rfl <;> simp only [single] <;> rfl

end PredicateStrength.Token

namespace PredicateStrength

/-- A text is read as the tree that its words form. -/
theorem Expr.ofText_of_lexes {text : String} {ws : List Word} {e : Expr}
    (h : Token.Lexes text.toList ws) (derives : Parser.Derives Parser.maxNesting 1 ws e) :
    Expr.ofText text = .ok e := by
  obtain ⟨ts, lexed, words⟩ := h 0
  rw [← words] at derives
  have tokens : Token.ofText text = .ok ts := lexed
  simp only [Expr.ofText, tokens, Except.mapError, bind, Except.bind,
    Expr.ofTokens_of_derives derives]

end PredicateStrength
