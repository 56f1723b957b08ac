import Mathlib
import PredicateStrength.Proofs.Expr.Reading
import PredicateStrength.Proofs.Expr.Text
import PredicateStrength.Proofs.Token.Splitting

/-!
# The text of a tree that was read

The tree is followed along the derivation that it was read with. What may stand behind the text of
a tree is part of the statement: a name and a plain numeral take in a dot, and a closing bracket ends
a text for good. A member path is one word, so it is kept apart from the tree in front of it.

Main statement: with enough levels left, the text is read as the tree that it was written from, if
the dots of its members stand behind something that does not take them in
(`roundTrips_of_derives`).
-/
namespace PredicateStrength

open Token
open PredicateStrength.Parser (Derives DerivesAll groupsLeft members name)

namespace Expr

/-- A dot behind the text of the tree would belong to its last token. -/
def takesDot : Expr → Bool
  | .ident _ | .bool _ => true
  | .num digits => takesPoint digits.toList
  | _ => false

mutual
/-- No member stands behind a name, a truth value or a plain numeral. -/
def membersApart : Expr → Bool
  | .ident _ | .num _ | .bool _ => true
  | .not e | .neg e => membersApart e
  | .op _ args => allMembersApart args
  | .call f args => membersApart f && allMembersApart args
  | .index base key => membersApart base && membersApart key
  | .member base _ => !base.takesDot && membersApart base

def allMembersApart : List Expr → Bool
  | [] => true
  | e :: es => membersApart e && allMembersApart es
end

theorem membersApart_members (base : Expr) (path : String) :
    (members base path).membersApart = (!base.takesDot && base.membersApart) :=
  members_induction (motive := fun e => e.membersApart = _) base path (fun _ => rfl)
    fun _ _ _ same => same

variable {o : Operator} {a b : Expr} {n k m : Nat}

/-- In front of whatever `F` allows, the text splits into words of the tree. -/
def Prints (F : List Char → Prop) (n k : Nat) (text : String) (e : Expr) : Prop :=
  ∃ ws, Splits F text.toList ws ∧ Derives n k ws e

section

variable {F G : List Char → Prop} {text s t : String} {e f : Expr}

theorem Prints.mono (h : Prints F n k text e) (fits : ∀ rest, G rest → F rest) :
    Prints G n k text e := by
  obtain ⟨ws, splits, derives⟩ := h
  exact ⟨ws, splits.mono fits, derives⟩

theorem Prints.of_le (h : Prints F n k text e) (positive : 0 < m) (le : m ≤ k) (bounded : k ≤ 12) :
    Prints F n m text e := by
  obtain ⟨ws, splits, derives⟩ := h
  exact ⟨ws, splits, derives.of_le positive le bounded⟩

theorem Prints.head (h : Prints Breaks n k text e) : ∃ c cs, text.toList = c :: cs ∧ c ≠ '=' := by
  obtain ⟨ws, splits, derives⟩ := h
  obtain ⟨w, tail, rfl, -, sign⟩ := derives.head
  have lexes := splits [] [] breaks_nil Lexes.nil
  rw [List.append_nil, List.append_nil] at lexes
  cases chars : text.toList with
  | nil =>
    obtain ⟨ts, read, words⟩ := lexes 0
    rw [chars, ofChars] at read
    cases read
    cases words
  | cons c cs =>
    refine ⟨c, cs, rfl, ?_⟩
    rintro rfl
    rw [chars] at lexes
    obtain rfl := lexes.head_equals
    rcases sign rfl with ⟨same, -⟩ | ⟨same, -⟩ <;> exact absurd same (by decide)

theorem Prints.between {i j l : Nat} (first : Prints Breaks n j s a)
    (second : Prints Breaks m k t b)
    (joined : ∀ {vs ws}, Derives n j vs a → Derives m k ws b →
      Derives i l (vs ++ ⟨.operator, o.symbol⟩ :: ws) (binary o a b)) :
    Prints Breaks i l (s ++ (" " ++ o.symbol ++ " ") ++ t) (binary o a b) := by
  obtain ⟨vs, front, left⟩ := first
  obtain ⟨ws, back, right⟩ := second
  have later := (Splits.operator o).append back fun _ _ => trivial
  have whole := front.append later fun _ _ => breaks_cons (by decide) (by decide) _
  exact ⟨_, by simpa using whole, joined left right⟩

theorem Prints.signed {c : Char} (valid : c = '!' ∨ c = '-') (h : Prints Breaks n k text e)
    (signed : ∀ {ws}, Derives n k ws e → Derives (n + 1) k (⟨.operator, String.ofList [c]⟩ :: ws) f) :
    Prints Breaks (n + 1) k (String.ofList [c] ++ text) f := by
  obtain ⟨d, ds, chars, other⟩ := h.head
  obtain ⟨ws, splits, derives⟩ := h
  have whole := (Splits.sign valid).append splits fun rest _ => by
    rw [chars]
    exact fun same => other (Option.some.inj same)
  exact ⟨_, by simpa using whole, signed derives⟩

theorem Prints.paren (h : Prints Breaks n 1 text e) :
    Prints EndsWord (n + 1) 12 ("(" ++ text ++ ")") e := by
  obtain ⟨ws, splits, derives⟩ := h
  have whole := Splits.brackets (l := '(') (r := ')') ⟨rfl, by decide⟩ ⟨rfl, by decide⟩ Splits.nil
    splits
  refine ⟨_, ?_, .paren (l := ⟨.lparen, "("⟩) (r := ⟨.rparen, ")"⟩) rfl rfl derives⟩
  simpa using whole.mono fun _ _ => trivial

theorem Prints.apply (h : Prints Breaks n 12 text e) :
    Prints EndsWord n 12 (text ++ "(" ++ ")") (.call e []) := by
  obtain ⟨ws, splits, derives⟩ := h
  have whole := splits.brackets (l := '(') (r := ')') ⟨rfl, by decide⟩ ⟨rfl, by decide⟩ Splits.nil
  refine ⟨_, ?_, .apply (l := ⟨.lparen, "("⟩) (r := ⟨.rparen, ")"⟩) rfl rfl derives⟩
  simpa using whole.mono fun _ _ => trivial

theorem Prints.index (base : Prints Breaks (n + 1) 12 s a) (key : Prints Breaks n 1 t b) :
    Prints EndsWord (n + 1) 12 (s ++ "[" ++ t ++ "]") (.index a b) := by
  obtain ⟨vs, front, left⟩ := base
  obtain ⟨ws, inside, right⟩ := key
  have whole := front.brackets (l := '[') (r := ']') ⟨rfl, by decide⟩ ⟨rfl, by decide⟩ inside
  refine ⟨_, ?_, .index (l := ⟨.lbracket, "["⟩) (r := ⟨.rbracket, "]"⟩) rfl rfl left right⟩
  simpa using whole.mono fun _ _ => trivial

/-- Call arguments with commas between them. -/
theorem exists_words_of_arguments {es : List Expr} (h : ∀ e ∈ es, Prints Breaks n 1 e.text e)
    (filled : es ≠ []) :
    ∃ ws, Splits Breaks (String.intercalate ", " (texts es)).toList ws ∧ DerivesAll n ws es := by
  induction es with
  | nil => exact absurd rfl filled
  | cons e es ih =>
    obtain ⟨⟨vs, first, derives⟩, h⟩ := List.forall_mem_cons.1 h
    cases es with
    | nil =>
      refine ⟨vs, ?_, .one derives⟩
      simpa [texts] using first
    | cons e' es =>
      obtain ⟨ws, more, later⟩ := ih h (List.cons_ne_nil _ _)
      have behind := Splits.comma.append more fun _ _ => trivial
      have whole := first.append behind fun _ _ => breaks_cons (by decide) (by decide) _
      refine ⟨_, ?_, .more (c := ⟨.comma, ","⟩) rfl derives later⟩
      rw [texts, texts, String.intercalate_cons_cons, ← texts]
      simpa using whole

theorem Prints.call {es : List Expr} (callee : Prints Breaks (n + 1) 12 s a)
    (args : ∀ e ∈ es, Prints Breaks n 1 e.text e) (filled : es ≠ []) :
    Prints EndsWord (n + 1) 12 (s ++ "(" ++ String.intercalate ", " (texts es) ++ ")")
      (.call a es) := by
  obtain ⟨vs, front, left⟩ := callee
  obtain ⟨ws, inside, right⟩ := exists_words_of_arguments args filled
  have whole := front.brackets (l := '(') (r := ')') ⟨rfl, by decide⟩ ⟨rfl, by decide⟩ inside
  refine ⟨_, ?_, .call (l := ⟨.lparen, "("⟩) (r := ⟨.rparen, ")"⟩) rfl rfl left right⟩
  simpa using whole.mono fun _ _ => trivial

/-- The text ends with a member path. -/
def PrintsPath (n : Nat) (text : String) (e : Expr) : Prop :=
  ∃ start base path, Prints EndsWord n 12 start base ∧ isWhole .identifier path = true ∧
    text = start ++ "." ++ path ∧ e = members base path

theorem PrintsPath.prints (h : PrintsPath n text e) : Prints Breaks n 12 text e := by
  obtain ⟨start, base, path, ⟨ws, splits, derives⟩, word, rfl, rfl⟩ := h
  have whole := splits.append (Splits.path word) fun _ _ => by
    rintro c ⟨⟩
    decide
  refine ⟨_, ?_, .member (d := ⟨.dot, "."⟩) (u := ⟨.identifier, path⟩) rfl rfl derives⟩
  simpa using whole

end

/-- What may stand behind the text of the tree. -/
def mayFollow : Expr → List Char → Prop
  | .num digits => if takesPoint digits.toList then Breaks else EndsWord
  | .call .. | .index .. => EndsWord
  | _ => Breaks

/-- With `n` levels left the text of the tree is read as this tree; a member path is one token of
it, so its base matters to a member behind it. -/
def Rereads (n : Nat) (e : Expr) : Prop :=
  match e with
  | .member .. => PrintsPath n e.text e
  | _ => Prints e.mayFollow n e.precedence e.text e

def RoundTrips (e : Expr) : Prop := ∀ n, e.nesting ≤ n → Rereads n e

section

variable {e : Expr} {ws : List Word}

theorem Rereads.prints (h : Rereads n e) : Prints Breaks n e.precedence e.text e := by
  cases e with
  | member => exact PrintsPath.prints h
  | num digits =>
    refine Prints.mono h fun rest breaks => ?_
    show (if takesPoint digits.toList then Breaks else EndsWord) rest
    split
    · exact breaks
    · exact breaks.endsWord
  | call | index => exact Prints.mono h fun _ => Breaks.endsWord
  | _ => exact h

/-- The whole text may stand between brackets or commas. -/
theorem RoundTrips.inside (h : RoundTrips e) (deep : e.nesting ≤ n) :
    Prints Breaks n 1 e.text e :=
  (h n deep).prints.of_le (by decide) (precedence_le e).1 (precedence_le e).2

theorem RoundTrips.paren (h : RoundTrips e) (deep : e.nesting + 1 ≤ n) :
    Prints EndsWord n 12 ("(" ++ e.text ++ ")") e := by
  obtain ⟨m, rfl⟩ := Nat.exists_eq_add_of_lt deep
  exact (h.inside (Nat.le_add_right e.nesting m)).paren

/-- An operand is read in its place, in parentheses or without. -/
theorem RoundTrips.enclosed {parent : Nat} {tight : Bool} (h : RoundTrips e)
    (place : k ≤ if tight then parent + 1 else parent) (positive : 0 < k) (bounded : k ≤ 12)
    (deep : enclosedNesting e parent tight e.nesting ≤ n) :
    Prints Breaks n k (enclose e parent tight e.text) e := by
  by_cases parens : e.needsParens parent tight = true
  · rw [enclosedNesting, if_pos parens] at deep
    rw [enclose, if_pos parens]
    exact ((h.paren deep).mono fun _ => Breaks.endsWord).of_le positive bounded (le_refl 12)
  · rw [enclosedNesting, if_neg parens] at deep
    rw [enclose, if_neg parens]
    refine (h n deep).prints.of_le positive ?_ (precedence_le e).2
    rw [needsParens_place] at parens
    simp only [needsParens, Bool.false_and, Bool.or_false, decide_eq_true_eq, not_lt] at parens
    exact le_trans place parens

/-- In front of a member. -/
theorem RoundTrips.base (h : RoundTrips e) (apart : e.takesDot = false)
    (deep : enclosedNesting e accessPrecedence false e.nesting ≤ n) :
    Prints EndsWord n 12 (enclose e accessPrecedence false e.text) e ∨
      PrintsPath n (enclose e accessPrecedence false e.text) e := by
  by_cases parens : e.needsParens accessPrecedence false = true
  · rw [enclosedNesting, if_pos parens] at deep
    rw [enclose, if_pos parens]
    exact .inl (h.paren deep)
  · rw [enclosedNesting, if_neg parens] at deep
    rw [enclose, if_neg parens]
    have back := h n deep
    cases e with
    | call | index => exact .inl back
    | num digits =>
      have plain : takesPoint digits.toList = false := apart
      have follows : mayFollow (.num digits) = EndsWord := if_neg (by simp [plain])
      have printed : Prints (mayFollow (.num digits)) n 12 digits (.num digits) := back
      rw [follows] at printed
      exact .inl printed
    | member => exact .inr back
    | ident | bool => cases apart
    | not | neg => exact absurd rfl parens
    | op o => exact absurd (needsParens_op o _) parens

theorem roundTrips_num {digits : String} (word : isWhole .number digits = true) :
    RoundTrips (.num digits) :=
  fun _ _ => ⟨_, Splits.number word, .num digits⟩

theorem roundTrips_name {lexeme : String} (word : isWhole .identifier lexeme = true) :
    RoundTrips (name lexeme) := by
  intro n _
  have printed : Prints Breaks n 12 lexeme (name lexeme) := ⟨_, Splits.name word, .name lexeme⟩
  rcases name_eq lexeme with ⟨b, same, leaf⟩ | leaf <;> rw [leaf] at printed ⊢
  · rw [same] at printed
    exact printed
  · exact printed

theorem roundTrips_not (h : RoundTrips e) : RoundTrips (.not e) := by
  intro n deep
  obtain ⟨m, rfl⟩ := Nat.exists_eq_add_of_lt deep
  have operand : Prints Breaks _ 3 (enclose e notPrecedence false e.text) e :=
    h.enclosed (le_refl 3) (by decide) (by decide) (Nat.le_add_right _ m)
  exact operand.signed (.inl rfl) .not

theorem roundTrips_neg (h : RoundTrips e) : RoundTrips (.neg e) := by
  intro n deep
  obtain ⟨m, rfl⟩ := Nat.exists_eq_add_of_lt deep
  have operand : Prints Breaks _ 10 (enclose e negPrecedence true e.text) e :=
    h.enclosed (by decide) (by decide) (by decide) (Nat.le_add_right _ m)
  exact operand.signed (.inr rfl) .neg

theorem roundTrips_left (left : groupsLeft o = true) (h : RoundTrips a) (h' : RoundTrips b) :
    RoundTrips (binary o a b) := by
  intro n deep
  obtain ⟨first, second⟩ := nesting_pair deep
  have places : isTightPlace o true = false ∧ isTightPlace o false = true := by
    revert left
    cases o <;> decide
  have lhs := h.enclosed (k := o.precedence) (by simp [places.1]) o.precedence_le.1
    (Nat.le_succ_of_le o.precedence_le.2) first
  have rhs := h'.enclosed (k := o.precedence + 1) (by simp [places.2]) (Nat.succ_pos _)
    (Nat.succ_le_succ o.precedence_le.2) (le_trans (Nat.le_add_right _ _) second)
  show Prints Breaks n o.precedence (Expr.text _) _
  rw [binary, text_pair]
  exact lhs.between rhs (.left left ⟨rfl, rfl⟩)

theorem roundTrips_relation (relational : o.isRelational = true) (h : RoundTrips a)
    (h' : RoundTrips b) : RoundTrips (binary o a b) := by
  intro n deep
  obtain ⟨first, second⟩ := nesting_pair deep
  have strength : o.precedence = 4 := by
    revert relational
    cases o <;> decide
  have places : ∀ isFirst, 5 ≤ if isTightPlace o isFirst then o.precedence + 1 else o.precedence := by
    revert relational
    cases o <;> decide
  have lhs := h.enclosed (places true) (by decide) (by decide) first
  have rhs := h'.enclosed (places false) (by decide) (by decide)
    (le_trans (Nat.le_add_right _ _) second)
  have printed := lhs.between rhs (.relation relational ⟨rfl, rfl⟩)
  show Prints Breaks n o.precedence (Expr.text _) _
  rw [binary, text_pair]
  exact printed.of_le o.precedence_le.1 (le_of_eq strength) (by decide)

theorem roundTrips_pow (h : RoundTrips a) (h' : RoundTrips b) : RoundTrips (binary .pow a b) := by
  intro n deep
  obtain ⟨first, second⟩ := nesting_pair deep
  obtain ⟨m, rfl⟩ := Nat.exists_eq_add_of_le' (le_trans (Nat.le_add_left 1 _) second)
  have base := h.enclosed (k := 12) (by decide) (by decide) (by decide) first
  have exponent := h'.enclosed (k := 10) (by decide) (by decide) (by decide)
    (Nat.le_of_succ_le_succ second)
  show Prints Breaks (m + 1) 11 (Expr.text _) _
  rw [binary, text_pair]
  exact base.between exponent (.pow ⟨rfl, rfl⟩)

theorem roundTrips_index (h : RoundTrips a) (h' : RoundTrips b) : RoundTrips (.index a b) := by
  intro n deep
  rw [nesting, max_le_iff] at deep
  obtain ⟨m, rfl⟩ := Nat.exists_eq_add_of_lt deep.2
  have base := h.enclosed (k := 12) (by decide) (by decide) (by decide) deep.1
  exact base.index (h'.inside (Nat.le_add_right _ m))

theorem nesting_le_of_mem {es : List Expr} (deep : argumentsNesting es ≤ m + 1) :
    ∀ e ∈ es, e.nesting ≤ m := by
  induction es with
  | nil => exact fun _ mem => by cases mem
  | cons e es ih =>
    rw [argumentsNesting, max_le_iff] at deep
    exact List.forall_mem_cons.2 ⟨Nat.le_of_succ_le_succ deep.1, ih deep.2⟩

theorem roundTrips_call {es : List Expr} (h : RoundTrips a) (h' : ∀ e ∈ es, RoundTrips e) :
    RoundTrips (.call a es) := by
  intro n deep
  rw [nesting, max_le_iff] at deep
  have callee := h.enclosed (k := 12) (by decide) (by decide) (by decide) deep.1
  cases es with
  | nil =>
    show Prints EndsWord n 12 (_ ++ "(" ++ String.intercalate ", " [] ++ ")") _
    rw [String.intercalate_nil, String.append_empty]
    exact callee.apply
  | cons e es =>
    have positive : 1 ≤ n := le_trans (by simp [argumentsNesting]) deep.2
    obtain ⟨m, rfl⟩ := Nat.exists_eq_add_of_le' positive
    have args : ∀ e' ∈ e :: es, Prints Breaks m 1 e'.text e' := fun e' mem =>
      (h' e' mem).inside (nesting_le_of_mem deep.2 e' mem)
    exact callee.call args (List.cons_ne_nil e es)

theorem roundTrips_members {path : String} (h : RoundTrips e) (apart : e.takesDot = false)
    (word : isWhole .identifier path = true) : RoundTrips (members e path) := by
  intro n deep
  rw [nesting_members] at deep
  have printed : PrintsPath n (members e path).text (members e path) := by
    rw [text_members]
    rcases h.base apart deep with closed | ⟨start, base, first, closed, word', same, tree⟩
    · exact ⟨_, e, path, closed, word, rfl, rfl⟩
    · refine ⟨start, base, first ++ "." ++ path, closed, isWhole_dotted word' word, ?_, ?_⟩
      · rw [same]
        simp only [String.append_assoc]
      · rw [tree, members_append]
  obtain ⟨e', field, same⟩ := exists_member e path
  rw [same] at printed ⊢
  exact printed

/-- The names and numbers among the words are tokens on their own. -/
def Whole (ws : List Word) : Prop :=
  ∀ w ∈ ws, w.kind = .identifier ∨ w.kind = .number → isWhole w.kind w.lexeme = true

theorem whole_append {vs : List Word} : Whole (vs ++ ws) ↔ Whole vs ∧ Whole ws :=
  List.forall_mem_append

theorem Whole.tail {w : Word} (h : Whole (w :: ws)) : Whole ws := (List.forall_mem_cons.1 h).2

theorem membersApart_binary (h : (binary o a b).membersApart = true) :
    a.membersApart = true ∧ b.membersApart = true := by
  simpa [binary, membersApart, allMembersApart] using h

theorem roundTrips_of_derives (h : Derives n k ws e) :
    Whole ws → e.membersApart = true → RoundTrips e := by
  induction h using Derives.rec (motive_2 := fun _ ws es _ =>
    Whole ws → allMembersApart es = true → ∀ e ∈ es, RoundTrips e) with
  | tighter _ _ _ ih => exact ih
  | left left _ _ _ iha ihb =>
    intro whole apart
    obtain ⟨first, second⟩ := whole_append.1 whole
    obtain ⟨apart, apart'⟩ := membersApart_binary apart
    exact roundTrips_left left (iha first apart) (ihb second.tail apart')
  | relation relational _ _ _ iha ihb =>
    intro whole apart
    obtain ⟨first, second⟩ := whole_append.1 whole
    obtain ⟨apart, apart'⟩ := membersApart_binary apart
    exact roundTrips_relation relational (iha first apart) (ihb second.tail apart')
  | not _ ih => exact fun whole apart => roundTrips_not (ih whole.tail apart)
  | neg _ ih => exact fun whole apart => roundTrips_neg (ih whole.tail apart)
  | pow _ _ _ iha ihb =>
    intro whole apart
    obtain ⟨first, second⟩ := whole_append.1 whole
    obtain ⟨apart, apart'⟩ := membersApart_binary apart
    exact roundTrips_pow (iha first apart) (ihb second.tail apart')
  | num lexeme =>
    exact fun whole _ => roundTrips_num (whole _ List.mem_cons_self (.inr rfl))
  | name lexeme =>
    exact fun whole _ => roundTrips_name (whole _ List.mem_cons_self (.inl rfl))
  | paren _ _ _ ih => exact fun whole => ih (whole_append.1 whole.tail).1
  | apply _ _ _ ih =>
    intro whole apart
    rw [membersApart, Bool.and_eq_true] at apart
    exact roundTrips_call (ih (whole_append.1 whole).1 apart.1) fun _ mem => by cases mem
  | call _ _ _ _ ihf ihargs =>
    intro whole apart
    obtain ⟨first, second⟩ := whole_append.1 whole
    rw [membersApart, Bool.and_eq_true] at apart
    exact roundTrips_call (ihf first apart.1)
      (ihargs (whole_append.1 second.tail).1 apart.2)
  | index _ _ _ _ ihbase ihkey =>
    intro whole apart
    obtain ⟨first, second⟩ := whole_append.1 whole
    rw [membersApart, Bool.and_eq_true] at apart
    exact roundTrips_index (ihbase first apart.1) (ihkey (whole_append.1 second.tail).1 apart.2)
  | @member n ws d u base _ field _ ih =>
    intro whole apart
    obtain ⟨first, second⟩ := whole_append.1 whole
    rw [membersApart_members, Bool.and_eq_true, Bool.not_eq_true'] at apart
    have word : isWhole u.kind u.lexeme = true := second.tail u List.mem_cons_self (.inl field)
    exact roundTrips_members (ih first apart.2) apart.1 (field ▸ word)
  | one _ ih =>
    rename_i whole apart e' mem
    rw [allMembersApart, Bool.and_eq_true] at apart
    exact List.mem_singleton.1 mem ▸ ih whole apart.1
  | more _ _ _ ih ihs =>
    rename_i whole apart e' mem
    obtain ⟨first, second⟩ := whole_append.1 whole
    rw [allMembersApart, Bool.and_eq_true] at apart
    rcases List.mem_cons.1 mem with rfl | mem
    · exact ih first apart.1
    · exact ihs second.tail apart.2 e' mem

end

end Expr
end PredicateStrength
