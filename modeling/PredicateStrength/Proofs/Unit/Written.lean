import Mathlib
import PredicateStrength.Proofs.Expr.Text
import PredicateStrength.Proofs.Unit.Piece

/-!
# Written trees

The text of a tree is put together from the texts of its operands. Each way of doing so is one
lemma here: it puts the pieces next to each other and derives the tree that is read from their
words.

A numeral with one of the longer units reads as a product. It stands for one operand in the text,
but binds only as tightly as a product does, so it is kept apart from the other operands
(`Factored`). A member path is one word, so it is kept apart from the tree in front of it
(`Pathed`).
-/
namespace PredicateStrength

open Token
open PredicateStrength.Parser (Derives DerivesAll groupsLeft members name)

/-- The pieces make up the text, and the table turns them into words of the tree. -/
structure Layout (n k : Nat) (text : String) (e : Expr) (ps : List Piece) : Prop where
  separated : Separated ps
  chars : text.toList = charsOf (fun _ => false) ps
  derives : Derives n k (wordsOf ps) e

/-- The text reads, behind the table, as the tree; it binds at least as tightly as `k`. -/
def Written (n k : Nat) (text : String) (e : Expr) : Prop := ∃ ps, Layout n k text e ps

/-- The text ends with a bracket. -/
def Closed (n : Nat) (text : String) (e : Expr) : Prop :=
  ∃ ps, Layout n 12 text e ps ∧ ∀ p ∈ ps.getLast?, p.isLong = false

/-- The text ends with a factor that the table has written. -/
def Factored (n : Nat) (text : String) (e : Expr) (factor : String) : Prop :=
  ∃ ps ws, Separated ps ∧ text.toList = charsOf (fun _ => false) ps ∧
    wordsOf ps = ws ++ [⟨.operator, "*"⟩, ⟨.number, factor⟩] ∧ Derives n 10 ws e

/-- The text ends with a member path. -/
def Pathed (n : Nat) (text : String) (e : Expr) : Prop :=
  ∃ base path start, Closed n start base ∧ isWhole .identifier path = true ∧
    text = start ++ "." ++ path ∧ e = members base path

variable {n k m : Nat} {text text₁ text₂ : String} {e a b : Expr}

theorem charsOf_append (expanded : UnitSuffix → Bool) (ps qs : List Piece) :
    charsOf expanded (ps ++ qs) = charsOf expanded ps ++ charsOf expanded qs :=
  List.flatMap_append

theorem wordsOf_append (ps qs : List Piece) : wordsOf (ps ++ qs) = wordsOf ps ++ wordsOf qs :=
  List.flatMap_append

theorem wordsOf_cons (p : Piece) (ps : List Piece) : wordsOf (p :: ps) = p.words ++ wordsOf ps :=
  List.flatMap_cons

/-- A short piece may stand between any others. -/
theorem Separated.append_cons {ps qs : List Piece} {p : Piece} (front : Separated ps)
    (short : p.isLong = false) (back : Separated qs) : Separated (ps ++ p :: qs) := by
  refine List.isChain_append.2 ⟨front, List.isChain_cons.2 ⟨fun q _ => ?_, back⟩, ?_⟩
  · rw [short, Bool.false_and]
  · rintro q - r ⟨⟩
    rw [short, Bool.and_false]

theorem Separated.cons {ps : List Piece} {p : Piece} (short : p.isLong = false)
    (back : Separated ps) : Separated (p :: ps) :=
  have front : Separated [] := List.isChain_nil
  front.append_cons short back

theorem Written.of_le (h : Written n k text e) (positive : 0 < m) (le : m ≤ k)
    (bounded : k ≤ 12) : Written n m text e := by
  obtain ⟨ps, layout⟩ := h
  exact ⟨ps, layout.separated, layout.chars, layout.derives.of_le positive le bounded⟩

theorem Closed.written (h : Closed n text e) : Written n 12 text e := by
  obtain ⟨ps, layout, -⟩ := h
  exact ⟨ps, layout⟩

theorem Layout.single {p : Piece} (chars : text.toList = p.chars fun _ => false)
    (derives : Derives n k p.words e) : Layout n k text e [p] where
  separated := List.isChain_singleton p
  chars := by simpa [charsOf] using chars
  derives := by simpa [wordsOf] using derives

theorem written_name {lexeme : String} (valid : isPlainName lexeme = true) :
    Written n 12 lexeme (name lexeme) :=
  ⟨[.name lexeme valid], Layout.single rfl (.name lexeme)⟩

theorem written_number {lexeme : String} (valid : isWhole .number lexeme = true) :
    Written n 12 lexeme (.num lexeme) :=
  ⟨[.number lexeme valid], Layout.single rfl (.num lexeme)⟩

variable {digits factor : String} {u : UnitSuffix}

theorem toList_quantity (valid : Numeral.isDigits digits = true) :
    (digits ++ " " ++ u.word).toList = (Piece.quantity digits u valid).chars fun _ => false := by
  simp [Piece.chars]

theorem written_quantity (valid : Numeral.isDigits digits = true) (single : u.factor? = none) :
    Written n 12 (digits ++ " " ++ u.word) (.num (digits ++ u.replacement)) := by
  refine ⟨[.quantity digits u valid], Layout.single (toList_quantity valid) ?_⟩
  rw [Piece.words, single]
  exact .num _

theorem factored_quantity (valid : Numeral.isDigits digits = true)
    (product : u.factor? = some factor) :
    Factored n (digits ++ " " ++ u.word) (.num digits) factor := by
  refine ⟨[.quantity digits u valid], [⟨.number, digits⟩], List.isChain_singleton _, ?_, ?_, ?_⟩
  · simpa [charsOf] using toList_quantity valid
  · simp [wordsOf, Piece.words, product]
  · exact (Derives.num digits).of_le (by decide) (by decide) (by decide)

theorem Factored.written (h : Factored n text e factor) :
    Written n 9 text (.binary .mul e (.num factor)) := by
  obtain ⟨ps, ws, separated, chars, words, derives⟩ := h
  refine ⟨ps, separated, chars, ?_⟩
  rw [words]
  exact Derives.left (o := .mul) rfl ⟨rfl, rfl⟩ (derives.of_le (by decide) (by decide)
    (by decide)) ((Derives.num factor).of_le (by decide) (by decide) (by decide))

theorem toList_operator (o : Operator) {ps qs : List Piece}
    (first : text₁.toList = charsOf (fun _ => false) ps)
    (second : text₂.toList = charsOf (fun _ => false) qs) :
    (text₁ ++ (" " ++ o.symbol ++ " ") ++ text₂).toList =
      charsOf (fun _ => false) (ps ++ .operator o :: qs) := by
  rw [charsOf_append, charsOf_cons, ← first, ← second]
  simp [Piece.chars]

theorem wordsOf_operator (o : Operator) (ps qs : List Piece) :
    wordsOf (ps ++ .operator o :: qs) = wordsOf ps ++ ⟨.operator, o.symbol⟩ :: wordsOf qs := by
  simp [wordsOf, Piece.words]

/-- A factor behind a product, quotient or remainder multiplies all of it. -/
theorem Factored.behind {o : Operator} (strength : o.precedence = 9)
    (h : Factored n text₂ b factor) (first : Written n 9 text₁ a) :
    Written n 9 (text₁ ++ (" " ++ o.symbol ++ " ") ++ text₂)
      (.binary .mul (.binary o a b) (.num factor)) := by
  have left : groupsLeft o = true := by
    revert strength
    cases o <;> decide
  obtain ⟨ps, layout⟩ := first
  obtain ⟨qs, ws, separated, chars, words, derives⟩ := h
  refine ⟨ps ++ .operator o :: qs, layout.separated.append_cons rfl separated,
    toList_operator o layout.chars chars, ?_⟩
  rw [wordsOf_operator, words, ← List.cons_append, ← List.append_assoc]
  refine Derives.left (o := .mul) rfl ⟨rfl, rfl⟩ ?_
    ((Derives.num factor).of_le (by decide) (by decide) (by decide))
  have front : Derives n o.precedence (wordsOf ps) a := by
    rw [strength]
    exact layout.derives
  have number : Derives n (o.precedence + 1) ws b := by
    rw [strength]
    exact derives
  have joined := Derives.left left (w := ⟨.operator, o.symbol⟩) ⟨rfl, rfl⟩ front number
  rw [strength] at joined
  exact joined

theorem Written.left {o : Operator} (left : groupsLeft o = true)
    (first : Written n o.precedence text₁ a) (second : Written n (o.precedence + 1) text₂ b) :
    Written n o.precedence (text₁ ++ (" " ++ o.symbol ++ " ") ++ text₂) (.binary o a b) := by
  obtain ⟨ps, front⟩ := first
  obtain ⟨qs, back⟩ := second
  refine ⟨ps ++ .operator o :: qs, front.separated.append_cons rfl back.separated,
    toList_operator o front.chars back.chars, ?_⟩
  rw [wordsOf_operator]
  exact .left left ⟨rfl, rfl⟩ front.derives back.derives

theorem Written.relation {o : Operator} (relational : o.isRelational = true)
    (first : Written n 5 text₁ a) (second : Written n 5 text₂ b) :
    Written n 4 (text₁ ++ (" " ++ o.symbol ++ " ") ++ text₂) (.binary o a b) := by
  obtain ⟨ps, front⟩ := first
  obtain ⟨qs, back⟩ := second
  refine ⟨ps ++ .operator o :: qs, front.separated.append_cons rfl back.separated,
    toList_operator o front.chars back.chars, ?_⟩
  rw [wordsOf_operator]
  exact .relation relational ⟨rfl, rfl⟩ front.derives back.derives

theorem Written.pow (base : Written (n + 1) 12 text₁ a) (exponent : Written n 10 text₂ b) :
    Written (n + 1) 11 (text₁ ++ (" " ++ Operator.pow.symbol ++ " ") ++ text₂)
      (.binary .pow a b) := by
  obtain ⟨ps, front⟩ := base
  obtain ⟨qs, back⟩ := exponent
  refine ⟨ps ++ .operator .pow :: qs, front.separated.append_cons rfl back.separated,
    toList_operator .pow front.chars back.chars, ?_⟩
  rw [wordsOf_operator]
  exact .pow ⟨rfl, rfl⟩ front.derives back.derives

/-- Operands of one operator group to the left. -/
theorem Written.chain {o : Operator} (left : groupsLeft o = true) {texts : List String}
    {trees : List Expr} (operands : List.Forall₂ (Written n (o.precedence + 1)) texts trees)
    (first : Written n o.precedence text a) :
    Written n o.precedence (String.intercalate (" " ++ o.symbol ++ " ") (text :: texts))
      (trees.foldl (.binary o) a) := by
  induction operands generalizing text a with
  | nil => simpa using first
  | @cons t b ts bs operand _ ih =>
    have more := ih (Written.left left first operand)
    rwa [String.intercalate_cons_append, ← String.intercalate_cons_cons] at more

theorem written_sign {ps : List Piece} {mark : Char} (valid : mark = '!' ∨ mark = '-')
    (separated : Separated ps) (chars : text.toList = charsOf (fun _ => false) ps)
    (derives : Derives m k (⟨.operator, String.ofList [mark]⟩ :: wordsOf ps) e) :
    Written m k (String.ofList [mark] ++ text) e := by
  refine ⟨.sign mark valid :: ps, .cons rfl separated, ?_, derives⟩
  rw [charsOf_cons, ← chars, String.toList_append, String.toList_ofList]
  rfl

theorem Written.not (h : Written n 3 text e) : Written (n + 1) 3 ("!" ++ text) (.not e) := by
  obtain ⟨ps, layout⟩ := h
  exact written_sign (.inl rfl) layout.separated layout.chars (.not layout.derives)

theorem Written.neg (h : Written n 10 text e) : Written (n + 1) 10 ("-" ++ text) (.neg e) := by
  obtain ⟨ps, layout⟩ := h
  exact written_sign (.inr rfl) layout.separated layout.chars (.neg layout.derives)

theorem Factored.neg (h : Factored n text e factor) :
    Factored (n + 1) ("-" ++ text) (.neg e) factor := by
  obtain ⟨ps, ws, separated, chars, words, derives⟩ := h
  refine ⟨.sign '-' (.inr rfl) :: ps, ⟨.operator, "-"⟩ :: ws, .cons rfl separated, ?_, ?_,
    .neg derives⟩
  · rw [charsOf_cons, ← chars, String.toList_append]
    rfl
  · simp only [wordsOf, List.flatMap_cons] at words ⊢
    rw [words]
    rfl

def openParen : Piece := .bracket '(' .lparen ⟨rfl, by decide⟩

def closeParen : Piece := .bracket ')' .rparen ⟨rfl, by decide⟩

def openBracket : Piece := .bracket '[' .lbracket ⟨rfl, by decide⟩

def closeBracket : Piece := .bracket ']' .rbracket ⟨rfl, by decide⟩

/-- Something in brackets behind some pieces. -/
theorem closed_of_brackets {front inside : List Piece} {l r : Piece}
    (opens : l.isLong = false) (closes : r.isLong = false) (before : Separated front)
    (between : Separated inside)
    (chars : text.toList = charsOf (fun _ => false) front ++ (l.chars (fun _ => false) ++
      (charsOf (fun _ => false) inside ++ r.chars fun _ => false)))
    (derives : Derives n 12 (wordsOf front ++ (l.words ++ (wordsOf inside ++ r.words))) e) :
    Closed n text e := by
  have back : Separated (inside ++ [r]) := between.append_cons closes List.isChain_nil
  refine ⟨front ++ l :: (inside ++ [r]), ⟨before.append_cons opens back, ?_, ?_⟩, fun p last => ?_⟩
  · rw [chars, charsOf_append, charsOf_cons, charsOf_append, charsOf_cons]
    simp [charsOf]
  · rw [wordsOf_append, wordsOf_cons, wordsOf_append, wordsOf_cons]
    simpa [wordsOf] using derives
  · rw [← List.cons_append, ← List.append_assoc, List.getLast?_concat] at last
    exact Option.some.inj last ▸ closes

theorem Written.paren (h : Written n 1 text e) : Closed (n + 1) ("(" ++ text ++ ")") e := by
  obtain ⟨ps, layout⟩ := h
  refine @closed_of_brackets _ _ _ [] ps openParen closeParen rfl rfl List.isChain_nil
    layout.separated ?_ (.paren rfl rfl layout.derives)
  rw [← layout.chars]
  simp [charsOf, openParen, closeParen, Piece.chars]

theorem Written.apply (h : Written n 12 text e) : Closed n (text ++ "(" ++ ")") (.call e []) := by
  obtain ⟨ps, layout⟩ := h
  refine @closed_of_brackets _ _ _ ps [] openParen closeParen rfl rfl layout.separated
    List.isChain_nil ?_ (.apply rfl rfl layout.derives)
  rw [← layout.chars]
  simp [charsOf, openParen, closeParen, Piece.chars]

theorem Written.index (base : Written (n + 1) 12 text₁ a) (key : Written n 1 text₂ b) :
    Closed (n + 1) (text₁ ++ "[" ++ text₂ ++ "]") (.index a b) := by
  obtain ⟨ps, front⟩ := base
  obtain ⟨qs, inside⟩ := key
  refine @closed_of_brackets _ _ _ ps qs openBracket closeBracket rfl rfl front.separated
    inside.separated ?_ (.index rfl rfl front.derives inside.derives)
  rw [← front.chars, ← inside.chars]
  simp [openBracket, closeBracket, Piece.chars]

/-- Arguments with commas between them. -/
theorem exists_pieces_of_arguments {texts : List String} {trees : List Expr}
    (h : List.Forall₂ (Written n 1) texts trees) (filled : trees ≠ []) :
    ∃ ps, Separated ps ∧
      (String.intercalate ", " texts).toList = charsOf (fun _ => false) ps ∧
      DerivesAll n (wordsOf ps) trees := by
  induction h with
  | nil => exact absurd rfl filled
  | @cons t e ts es first more ih =>
    obtain ⟨ps, layout⟩ := first
    cases more with
    | nil => exact ⟨ps, layout.separated, by simpa using layout.chars, .one layout.derives⟩
    | @cons t' e' ts' es' second later =>
      obtain ⟨qs, separated, chars, derives⟩ := ih (by simp)
      refine ⟨ps ++ .comma :: qs, layout.separated.append_cons rfl separated, ?_, ?_⟩
      · rw [charsOf_append, charsOf_cons, ← layout.chars, ← chars]
        simp [Piece.chars]
      · rw [wordsOf_append, wordsOf_cons]
        exact .more rfl layout.derives derives

theorem Written.call {texts : List String} {trees : List Expr}
    (callee : Written (n + 1) 12 text e) (args : List.Forall₂ (Written n 1) texts trees)
    (filled : trees ≠ []) :
    Closed (n + 1) (text ++ "(" ++ String.intercalate ", " texts ++ ")") (.call e trees) := by
  obtain ⟨ps, front⟩ := callee
  obtain ⟨qs, separated, chars, derives⟩ := exists_pieces_of_arguments args filled
  refine @closed_of_brackets _ _ _ ps qs openParen closeParen rfl rfl front.separated separated
    ?_ (.call rfl rfl front.derives derives)
  rw [← front.chars, ← chars]
  simp [openParen, closeParen, Piece.chars]

variable {field : String}

theorem Closed.pathed (h : Closed n text e) (part : isField field = true) :
    Pathed n (text ++ "." ++ field) (.member e field) :=
  ⟨e, field, text, h, isWhole_of_isField part, rfl, (members_field part e).symm⟩

theorem Pathed.pathed (h : Pathed n text e) (part : isField field = true) :
    Pathed n (text ++ "." ++ field) (.member e field) := by
  obtain ⟨base, path, start, closed, valid, rfl, rfl⟩ := h
  refine ⟨base, path ++ "." ++ field, start, closed,
    isWhole_dotted valid (isWhole_of_isField part), ?_, ?_⟩
  · simp only [String.append_assoc]
  · rw [members_append, members_field part]

theorem Pathed.written (h : Pathed n text e) : Written n 12 text e := by
  obtain ⟨base, path, start, ⟨ps, layout, last⟩, valid, rfl, rfl⟩ := h
  refine ⟨ps ++ [.field path valid], ?_, ?_, ?_⟩
  · refine List.isChain_append.2 ⟨layout.separated, List.isChain_singleton _, fun p mem q => ?_⟩
    rintro ⟨⟩
    rw [last p mem, Bool.false_and]
  · rw [charsOf_append, ← layout.chars]
    simp [charsOf, Piece.chars]
  · rw [wordsOf_append, wordsOf_cons]
    exact .member rfl rfl layout.derives

end PredicateStrength
