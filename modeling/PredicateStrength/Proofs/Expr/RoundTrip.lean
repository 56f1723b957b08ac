import Mathlib
import PredicateStrength.Proofs.Expr.Nesting
import PredicateStrength.Proofs.Expr.Printing

/-!
# Printed trees are read back

The text of a tree that reading has returned is read as this tree again, with two exceptions. A
member of a bare name, a truth value or a plain numeral was read from a base in parentheses or in
front of a space; its text leaves both out, so that the dot joins a longer name
(`ofText_member_of_name`) or makes a broken number. And the parentheses that the text puts around a
sign behind a sign or behind `**` open a level that the tree was read without, which may be one too
many (`ofText_text_signs`).

Main statement: `ofText_text`; an instance of each exception is `ofText_text_ne`.
-/
namespace PredicateStrength.Expr

open Token
open PredicateStrength.Parser (Derives name)

variable {n k m : Nat} {text : String} {e : Expr} {ws : List Word}

theorem ofText_of_prints (h : Prints Breaks Parser.maxNesting 1 text e) : ofText text = .ok e := by
  obtain ⟨ws, splits, derives⟩ := h
  have lexes := splits [] [] breaks_nil Lexes.nil
  rw [List.append_nil, List.append_nil] at lexes
  exact ofText_of_lexes lexes derives

/-- A tree that was read is read again from its text, unless a dot joins a base to its member, or
the parentheses around signs open too many levels. -/
theorem ofText_text (h : ofText text = .ok e) (members : e.membersApart = true)
    (levels : e.signsApart = true ∨ e.nesting ≤ Parser.maxNesting) : ofText e.text = .ok e := by
  obtain ⟨ts, tokens, derives⟩ := exists_tokens_of_ofText h
  have whole : Whole (ts.map Token.word) := fun w mem long => by
    obtain ⟨t, found, rfl⟩ := List.mem_map.1 mem
    exact isWhole_of_mem_ofText tokens found long
  have shallow : e.nesting ≤ Parser.maxNesting := by
    rcases levels with apart | shallow
    · exact (fits_of_derives derives apart).nesting_le
    · exact shallow
  exact ofText_of_prints ((roundTrips_of_derives derives whole members).inside shallow)

/-- `-(a - b) * f(x).y[2] <= 2 ** 3 ** n` -/
def allowance : Expr :=
  .op .le
    [.op .mul [.neg (.op .sub [.ident "a", .ident "b"]),
      .index (.member (.call (.ident "f") [.ident "x"]) "y") (.num "2")],
    .op .pow [.num "2", .op .pow [.num "3", .ident "n"]]]

theorem ofText_text_allowance :
    ofText "(-((a) - b)) * (f(x).y)[2] <= 2 ** (3 ** n)" = .ok allowance ∧
      ofText allowance.text = .ok allowance := by
  have read : ofText "(-((a) - b)) * (f(x).y)[2] <= 2 ** (3 ** n)" = .ok allowance := by cbv
  exact ⟨read, ofText_text read (by decide) (.inl (by decide))⟩

/-- The parentheses around a bare name are not written, and the dot makes one name of it and its
member. -/
theorem ofText_member_of_name {name field : String} (word : isWhole .identifier name = true)
    (proper : name ≠ "true" ∧ name ≠ "false") (part : isField field = true) :
    ofText ("(" ++ name ++ ")" ++ "." ++ field) = .ok (.member (.ident name) field) ∧
      ofText (Expr.member (.ident name) field).text = .ok (.ident (name ++ "." ++ field)) := by
  have leaf : Parser.name name = .ident name := by
    rw [Parser.name, if_neg proper.1, if_neg proper.2]
  have base : ∀ n, Prints Breaks n 12 name (.ident name) := fun n =>
    ⟨_, Splits.name word, leaf ▸ .name name⟩
  have path : PrintsPath Parser.maxNesting ("(" ++ name ++ ")" ++ "." ++ field)
      (.member (.ident name) field) :=
    ⟨_, .ident name, field, ((base 127).of_le (by decide) (by decide) (by decide)).paren,
      isWhole_of_isField part, rfl, (members_field part _).symm⟩
  have joined : isWhole .identifier (name ++ "." ++ field) = true :=
    isWhole_dotted word (isWhole_of_isField part)
  refine ⟨ofText_of_prints (path.prints.of_le (by decide) (by decide) (by decide)), ?_⟩
  have dot : '.' ∈ (name ++ "." ++ field).toList := by simp
  have dotted : Parser.name (name ++ "." ++ field) = .ident (name ++ "." ++ field) := by
    rcases name_eq (name ++ "." ++ field) with ⟨b, same, -⟩ | leaf
    · rw [same] at dot
      cases b <;> exact absurd dot (by decide)
    · exact leaf
  have printed : Prints Breaks Parser.maxNesting 12 (name ++ "." ++ field)
      (.ident (name ++ "." ++ field)) := ⟨_, Splits.name joined, dotted ▸ .name _⟩
  exact ofText_of_prints (printed.of_le (by decide) (by decide) (by decide))

/-- A name with signs in front of it. -/
def signs : Nat → Expr
  | 0 => .ident "x"
  | m + 1 => .neg (signs m)

/-- The words of its text. -/
def signWords : Nat → List Word
  | 0 => [⟨.identifier, "x"⟩]
  | 1 => [⟨.operator, "-"⟩, ⟨.identifier, "x"⟩]
  | m + 2 => ⟨.operator, "-"⟩ :: ⟨.lparen, "("⟩ :: (signWords (m + 1) ++ [⟨.rparen, ")"⟩])

theorem prints_signs (n m : Nat) :
    Prints Breaks (n + m) 10 (String.ofList (List.replicate m '-') ++ "x") (signs m) := by
  induction m with
  | zero =>
    have leaf : Prints Breaks n 12 "x" (.ident "x") :=
      ⟨_, Splits.name (by cbv), .name "x"⟩
    exact leaf.of_le (by decide) (by decide) (by decide)
  | succ m ih =>
    have more := ih.signed (.inr rfl) .neg
    rwa [← String.append_assoc, ← String.ofList_append] at more

theorem splits_signs : ∀ m, Splits Breaks (signs m).text.toList (signWords m)
  | 0 => Splits.name (by cbv)
  | 1 => by
    have whole := (Splits.sign (.inr rfl)).append (splits_signs 0) fun rest _ => by
      show ('x' :: rest).head? ≠ some '='
      simp
    exact whole
  | m + 2 => by
    have inside := Splits.brackets (l := '(') (r := ')') ⟨rfl, by decide⟩ ⟨rfl, by decide⟩
      Splits.nil (splits_signs (m + 1))
    have whole := (Splits.sign (.inr rfl)).append inside fun rest _ => by
      show some '(' ≠ some '='
      simp
    have text : (signs (m + 2)).text = "-" ++ ("(" ++ (signs (m + 1)).text ++ ")") := rfl
    rw [text]
    simpa [signWords] using whole.mono fun _ _ => trivial

theorem nesting_signs_le : ∀ m, (signs m).nesting ≤ 2 * m - 1
  | 0 => le_refl 0
  | 1 => le_refl 1
  | m + 2 => by
    have inside := nesting_signs_le (m + 1)
    have nested : (signs (m + 2)).nesting = (signs (m + 1)).nesting + 1 + 1 := rfl
    omega

theorem roundTrips_signs (m : Nat) : RoundTrips (signs m) := by
  induction m with
  | zero => exact @roundTrips_name "x" (by cbv)
  | succ m ih => exact roundTrips_neg ih

/-- Each sign opens a level and each pair of parentheses one more. The derivation has no choice: a
sign can only be read as a sign, and a parenthesis only as one. -/
theorem levels_of_derives_signs (h : Derives n k ws e) : ∀ m, e = signs m →
    (ws = signWords m → 2 * m ≤ n + 1) ∧
      (ws = ⟨.lparen, "("⟩ :: (signWords m ++ [⟨.rparen, ")"⟩]) → 2 * m ≤ n) := by
  induction h using Derives.rec (motive_2 := fun _ _ _ _ => True) with
  | tighter _ _ _ ih => exact ih
  | left | relation | pow | num | apply | call | index =>
    intro m same
    cases m <;> cases same
  | not =>
    intro m same
    cases m <;> cases same
  | @neg n ws e _ ih =>
    intro m same
    cases m with
    | zero => cases same
    | succ m =>
      cases same
      refine ⟨fun words => ?_, fun words => by cases words⟩
      cases m with
      | zero => omega
      | succ m =>
        have inside := (ih (m + 1) rfl).2 (List.cons.inj words).2
        omega
  | name lexeme =>
    intro m same
    cases m with
    | zero => exact ⟨fun _ => Nat.zero_le _, fun _ => Nat.zero_le _⟩
    | succ m => rcases name_eq lexeme with ⟨b, -, leaf⟩ | leaf <;> rw [leaf] at same <;> cases same
  | @paren n l ws r e open_ _ _ ih =>
    intro m same
    refine ⟨fun words => ?_, fun words => (ih m same).1 ?_⟩
    · have front : ∀ w ∈ (signWords m).head?, w.kind ≠ .lparen := by
        match m with
        | 0 | 1 | m + 2 => simp [signWords]
      rw [← words] at front
      exact absurd open_ (front l rfl)
    · exact (List.append_inj' (List.cons.inj words).2 rfl).1
  | @member n ws d u base =>
    intro m same
    obtain ⟨e, field, member⟩ := exists_member base u.lexeme
    rw [member] at same
    cases m <;> cases same
  | one | more => trivial

/-- Up to 128 signs can be read, but more than 64 are not read back. -/
theorem ofText_text_signs (m : Nat) :
    (m ≤ 128 → ofText (String.ofList (List.replicate m '-') ++ "x") = .ok (signs m)) ∧
      (ofText (signs m).text = .ok (signs m) ↔ m ≤ 64) := by
  refine ⟨fun few => ?_, fun read => ?_, fun few => ?_⟩
  · have printed := prints_signs (128 - m) m
    rw [Nat.sub_add_cancel few] at printed
    exact ofText_of_prints (printed.of_le (by decide) (by decide) (by decide))
  · obtain ⟨ts, tokens, derives⟩ := exists_tokens_of_ofText read
    have lexes := splits_signs m [] [] breaks_nil Lexes.nil
    rw [List.append_nil, List.append_nil] at lexes
    obtain ⟨ts', lexed, words⟩ := lexes 0
    obtain rfl : ts = ts' := Except.ok.inj (tokens.symm.trans lexed)
    have levels := (levels_of_derives_signs derives m rfl).1 words
    rw [Parser.maxNesting] at levels
    omega
  · have shallow : (signs m).nesting ≤ Parser.maxNesting := by
      have bound := nesting_signs_le m
      rw [Parser.maxNesting]
      omega
    exact ofText_of_prints ((roundTrips_signs m).inside shallow)

theorem ofText_text_ne :
    (∃ e, ofText "(a).b" = .ok e ∧ e.signsApart = true ∧ ofText e.text ≠ .ok e) ∧
      ∃ e, ofText (String.ofList (List.replicate 65 '-') ++ "x") = .ok e ∧
        e.membersApart = true ∧ ofText e.text ≠ .ok e := by
  refine ⟨⟨.member (.ident "a") "b", ?_, rfl, ?_⟩, signs 65, ?_, by decide, ?_⟩
  · exact (@ofText_member_of_name "a" "b" (by cbv) (by decide) (by cbv)).1
  · rw [(@ofText_member_of_name "a" "b" (by cbv) (by decide) (by cbv)).2]
    simp
  · exact (ofText_text_signs 65).1 (by decide)
  · exact fun read => absurd ((ofText_text_signs 65).2.1 read) (by decide)

end PredicateStrength.Expr
