import Mathlib
import PredicateStrength.Proofs.Expr.Reading
import PredicateStrength.Proofs.Expr.Renaming

/-!
# Renaming in texts

A text is renamed word by word: a name becomes its new name, and behind a dot each member of a path
becomes its new member. The renamed text is read as the renamed tree, and it cannot be read where
the text cannot be read.

Main statements: `Parser.Derives.renamed` and `Expr.ofText_renamed`.
-/
namespace PredicateStrength

open PredicateStrength.Parser (splitDots)

variable {R S : Renaming}

/-- The second word is the renamed first one. -/
structure Word.Renamed (R : Renaming) (behindDot : Bool) (w w' : Word) : Prop where
  kind : w'.kind = w.kind
  name : w.kind = .identifier → behindDot = false →
    Parser.name w'.lexeme = (Parser.name w.lexeme).rename R
  path : w.kind = .identifier → behindDot = true →
    (splitDots w'.lexeme.toList).map String.ofList =
      (splitDots w.lexeme.toList).map fun field => R.field (.ofList field)
  other : w.kind ≠ .identifier → w'.lexeme = w.lexeme

/-- The second words are the renamed first ones, read behind a dot or not. -/
inductive Renaming.Words (R : Renaming) : Bool → List Word → List Word → Prop
  | nil {behindDot} : Words R behindDot [] []
  | cons {behindDot w w' ws ws'} : w.Renamed R behindDot w' → Words R (w.kind = .dot) ws ws' →
      Words R behindDot (w :: ws) (w' :: ws')

/-- The second text splits into the renamed words of the first one, or neither text splits into
words. -/
inductive Renaming.Texts (R : Renaming) (text text' : String) : Prop
  | words {ts ts' : List Token} : Token.ofText text = .ok ts → Token.ofText text' = .ok ts' →
      R.Words false (ts.map Token.word) (ts'.map Token.word) → Texts R text text'
  | broken {e e' : LexError} : Token.ofText text = .error e → Token.ofText text' = .error e' →
      Texts R text text'

namespace Renaming.Words

variable {b : Bool} {w : Word} {vs ws ws' : List Word}

theorem append (h : R.Words b (vs ++ ws) ws') :
    ∃ us us' c, ws' = us ++ us' ∧ R.Words b vs us ∧ R.Words c ws us' := by
  induction vs generalizing b ws' with
  | nil => exact ⟨[], ws', b, rfl, .nil, h⟩
  | cons v vs ih =>
    cases h with
    | cons first rest =>
      obtain ⟨us, us', c, rfl, front, back⟩ := ih rest
      exact ⟨_ :: us, us', c, rfl, .cons first front, back⟩

/-- Between two runs of words a mark that is no name stays. -/
theorem between (h : R.Words b (vs ++ w :: ws) ws') (mark : w.kind ≠ .identifier) :
    ∃ us w' us', ws' = us ++ w' :: us' ∧ R.Words b vs us ∧ w'.kind = w.kind ∧
      w'.lexeme = w.lexeme ∧ R.Words (w.kind = .dot) ws us' := by
  obtain ⟨us, later, _, rfl, front, back⟩ := h.append
  cases back with
  | cons first rest => exact ⟨us, _, _, rfl, front, first.kind, first.other mark, rest⟩

/-- An operator between two runs of words stays. -/
theorem operator {o : Operator} (h : R.Words b (vs ++ w :: ws) ws') (spelled : Parser.Spells w o) :
    ∃ us w' us', ws' = us ++ w' :: us' ∧ R.Words b vs us ∧ Parser.Spells w' o ∧
      R.Words false ws us' := by
  have mark : w.kind ≠ .identifier := by rw [spelled.1]; decide
  obtain ⟨us, w', us', rfl, front, kind, lexeme, back⟩ := h.between mark
  rw [spelled.1] at back
  exact ⟨us, w', us', rfl, front, ⟨kind.trans spelled.1, lexeme.trans spelled.2⟩, back⟩

/-- A sign in front of words stays. -/
theorem sign {s : String} (h : R.Words b (⟨.operator, s⟩ :: ws) ws') :
    ∃ us, ws' = ⟨.operator, s⟩ :: us ∧ R.Words false ws us := by
  cases h with
  | @cons _ _ w' _ us first rest =>
    obtain ⟨kind, lexeme⟩ := w'
    cases first.kind
    cases first.other (by simp)
    exact ⟨us, rfl, rest⟩

/-- Brackets around words, behind other words, stay brackets of their kind. -/
theorem enclosed {l r : Word} (h : R.Words b (vs ++ l :: (ws ++ [r])) ws')
    (left : l.kind ≠ .identifier ∧ l.kind ≠ .dot) (right : r.kind ≠ .identifier) :
    ∃ us l' inside r', ws' = us ++ l' :: (inside ++ [r']) ∧ R.Words b vs us ∧
      l'.kind = l.kind ∧ R.Words false ws inside ∧ r'.kind = r.kind := by
  obtain ⟨us, l', later, rfl, front, kind, -, rest⟩ := h.between left.1
  rw [decide_eq_false left.2] at rest
  obtain ⟨inside, r', _, rfl, middle, kind', -, _ | _⟩ := rest.between right
  exact ⟨us, l', inside, r', rfl, front, kind, middle, kind'⟩

theorem nil_eq (h : R.Words b [] ws) : ws = [] := by
  cases h
  rfl

/-- Without dots the words are renamed one by one. -/
theorem of_forall₂ (h : List.Forall₂ (fun w w' => w'.kind = w.kind ∧ w.kind ≠ .dot ∧
    if w.kind = .identifier then Parser.name w'.lexeme = (Parser.name w.lexeme).rename R
    else w'.lexeme = w.lexeme) ws ws') : R.Words false ws ws' := by
  induction h with
  | nil => exact .nil
  | @cons w w' ws ws' first _ ih =>
    obtain ⟨kind, dotless, same⟩ := first
    refine .cons ⟨kind, fun named _ => ?_, nofun, fun mark => ?_⟩ ?_
    · rwa [if_pos named] at same
    · rwa [if_neg mark] at same
    · rwa [decide_eq_false dotless]

end Renaming.Words

namespace Parser

variable {n k : Nat} {ws ws' : List Word} {e : Expr}

theorem members_rename {path path' : String} (base : Expr)
    (same : (splitDots path'.toList).map String.ofList =
      (splitDots path.toList).map fun field => R.field (.ofList field)) :
    members (base.rename R) path' = (members base path).rename R := by
  have fold : ∀ (fields : List (List Char)) (base : Expr),
      (fields.map fun field => R.field (.ofList field)).foldl Expr.member (base.rename R) =
        (fields.foldl (fun e field => .member e (.ofList field)) base).rename R := by
    intro fields
    induction fields with
    | nil => exact fun _ => rfl
    | cons field fields ih => exact fun base => ih (.member base (.ofList field))
  rw [members, members, ← fold, ← same, List.foldl_map]

/-- However the words are renamed, they form the renamed tree. -/
def Renames (R : Renaming) (n k : Nat) (ws : List Word) (e : Expr) : Prop :=
  ∀ ws', R.Words false ws ws' → Derives n k ws' (e.rename R)

/-- However the words are renamed, they form the renamed call arguments. -/
def RenamesAll (R : Renaming) (n : Nat) (ws : List Word) (es : List Expr) : Prop :=
  ∀ ws', R.Words false ws ws' → DerivesAll n ws' (Expr.renameAll R es)

section Cases

variable {n k : Nat} {us vs : List Word} {l r : Word} {a b : Expr} {es : List Expr}

theorem renames_num (lexeme : String) : Renames R n 12 [⟨.number, lexeme⟩] (.num lexeme) := by
  rintro _ (_ | @⟨_, _, ⟨kind, lexeme⟩, _, us, word, _ | _⟩)
  cases word.kind
  cases word.other (by simp)
  exact .num _

theorem renames_name (lexeme : String) :
    Renames R n 12 [⟨.identifier, lexeme⟩] (name lexeme) := by
  rintro _ (_ | @⟨_, _, ⟨kind, lexeme'⟩, _, us, word, _ | _⟩)
  cases word.kind
  rw [← word.name rfl rfl]
  exact .name lexeme'

theorem renames_paren (left : l.kind = .lparen) (right : r.kind = .rparen)
    (inner : Renames R n 1 us a) : Renames R (n + 1) 12 (l :: (us ++ [r])) a := by
  intro ws' words
  have words : R.Words false ([] ++ l :: (us ++ [r])) ws' := words
  obtain ⟨none, l', inside, r', rfl, front, kind, middle, kind'⟩ :=
    words.enclosed (by simp [left]) (by simp [right])
  obtain rfl := front.nil_eq
  exact .paren (kind.trans left) (kind'.trans right) (inner inside middle)

theorem renames_apply (left : l.kind = .lparen) (right : r.kind = .rparen)
    (callee : Renames R n 12 us a) : Renames R n 12 (us ++ [l, r]) (.call a []) := by
  intro ws' words
  have words : R.Words false (us ++ l :: ([] ++ [r])) ws' := words
  obtain ⟨us', l', none, r', rfl, front, kind, middle, kind'⟩ :=
    words.enclosed (by simp [left]) (by simp [right])
  obtain rfl := middle.nil_eq
  exact .apply (kind.trans left) (kind'.trans right) (callee us' front)

theorem renames_call (left : l.kind = .lparen) (right : r.kind = .rparen)
    (callee : Renames R (n + 1) 12 us a) (args : RenamesAll R n vs es) :
    Renames R (n + 1) 12 (us ++ l :: (vs ++ [r])) (.call a es) := by
  intro ws' words
  obtain ⟨us', l', inside, r', rfl, front, kind, middle, kind'⟩ :=
    words.enclosed (by simp [left]) (by simp [right])
  exact .call (kind.trans left) (kind'.trans right) (callee us' front) (args inside middle)

theorem renames_index (left : l.kind = .lbracket) (right : r.kind = .rbracket)
    (base : Renames R (n + 1) 12 us a) (key : Renames R n 1 vs b) :
    Renames R (n + 1) 12 (us ++ l :: (vs ++ [r])) (.index a b) := by
  intro ws' words
  obtain ⟨us', l', inside, r', rfl, front, kind, middle, kind'⟩ :=
    words.enclosed (by simp [left]) (by simp [right])
  exact .index (kind.trans left) (kind'.trans right) (base us' front) (key inside middle)

theorem renames_member (dot : l.kind = .dot) (path : r.kind = .identifier)
    (base : Renames R n 12 us a) : Renames R n 12 (us ++ [l, r]) (members a r.lexeme) := by
  intro ws' words
  obtain ⟨us', l', _, rfl, front, kind, -, rest⟩ := words.between (by rw [dot]; decide)
  obtain - | @⟨_, _, r', _, _, field, _ | _⟩ := rest
  rw [← members_rename _ (field.path path (by simp [dot]))]
  exact .member (kind.trans dot) (field.kind.trans path) (base us' front)

end Cases

/-- The renamed words form the renamed tree. -/
theorem Derives.renamed (h : Derives n k ws e) : Renames R n k ws e := by
  induction h using Derives.rec (motive_2 := fun n ws es _ => RenamesAll R n ws es) with
  | tighter positive bounded _ ih => exact fun ws' words => .tighter positive bounded (ih ws' words)
  | left left spelled _ _ iha ihb =>
    intro ws' words
    obtain ⟨us, w', us', rfl, front, spelled', back⟩ := words.operator spelled
    exact .left left spelled' (iha us front) (ihb us' back)
  | relation relational spelled _ _ iha ihb =>
    intro ws' words
    obtain ⟨us, w', us', rfl, front, spelled', back⟩ := words.operator spelled
    exact .relation relational spelled' (iha us front) (ihb us' back)
  | pow spelled _ _ iha ihb =>
    intro ws' words
    obtain ⟨us, w', us', rfl, front, spelled', back⟩ := words.operator spelled
    exact .pow spelled' (iha us front) (ihb us' back)
  | not _ ih =>
    intro ws' words
    obtain ⟨us, rfl, rest⟩ := words.sign
    exact .not (ih us rest)
  | neg _ ih =>
    intro ws' words
    obtain ⟨us, rfl, rest⟩ := words.sign
    exact .neg (ih us rest)
  | num lexeme => exact renames_num lexeme
  | name lexeme => exact renames_name lexeme
  | paren left right _ ih => exact renames_paren left right ih
  | apply left right _ ih => exact renames_apply left right ih
  | call left right _ _ ih ihs => exact renames_call left right ih ihs
  | index left right _ _ ih ih' => exact renames_index left right ih ih'
  | member dot path _ ih => exact renames_member dot path ih
  | one _ ih => exact fun ws' words => .one (ih ws' words)
  | more comma _ _ ih ihs =>
    intro ws' words
    obtain ⟨us, c, us', rfl, front, kind, -, back⟩ := words.between (by rw [comma]; decide)
    rw [comma] at back
    exact .more (kind.trans comma) (ih us front) (ihs us' back)

end Parser

/-- The second renaming gives back the old names. -/
structure Renaming.Inverts (S R : Renaming) : Prop where
  name : Function.LeftInverse S.name R.name
  field : Function.LeftInverse S.field R.field

theorem Renaming.Injective.exists_inverts (inj : R.Injective) : ∃ S : Renaming, S.Inverts R := by
  obtain ⟨name, names⟩ := inj.name.hasLeftInverse
  obtain ⟨field, fields⟩ := inj.field.hasLeftInverse
  exact ⟨⟨name, field⟩, names, fields⟩

namespace Renaming.Inverts

variable {b : Bool} {w w' : Word} {ws ws' : List Word}

theorem rename_name (inv : S.Inverts R) (lexeme : String) :
    ((Parser.name lexeme).rename R).rename S = Parser.name lexeme := by
  unfold Parser.name
  split
  · rfl
  · split
    · rfl
    · exact congrArg Expr.ident (inv.name lexeme)

theorem word (inv : S.Inverts R) (h : w.Renamed R b w') : w'.Renamed S b w where
  kind := h.kind.symm
  name kind bare := by
    rw [h.name (h.kind.symm.trans kind) bare, inv.rename_name]
  path kind dotted := by
    have fields := congrArg (List.map S.field) (h.path (h.kind.symm.trans kind) dotted)
    rw [List.map_map, List.map_map] at fields
    rw [← Function.comp_def S.field, fields]
    exact List.map_congr_left fun field _ => (inv.field _).symm
  other kind := (h.other fun same => kind (h.kind.trans same)).symm

theorem words (inv : S.Inverts R) (h : R.Words b ws ws') : S.Words b ws' ws := by
  induction h with
  | nil => exact .nil
  | cons first _ ih => exact .cons (inv.word first) (first.kind ▸ ih)

end Renaming.Inverts

/-- The renamed text is read as the renamed tree; it is not read if the text is not. -/
theorem Expr.ofText_renamed (inj : R.Injective) {text text' : String} (h : R.Texts text text') :
    (∃ e, Expr.ofText text = .ok e ∧ Expr.ofText text' = .ok (e.rename R)) ∨
      ∃ x y, Expr.ofText text = .error x ∧ Expr.ofText text' = .error y := by
  have ofTokens {text : String} {ts : List Token} (split : Token.ofText text = .ok ts) :
      Expr.ofText text = (Expr.ofTokens ts).mapError .parse := by
    rw [Expr.ofText, split]
    rfl
  have broken {text : String} {e : LexError} (error : Token.ofText text = .error e) :
      Expr.ofText text = .error (.lex e) := by
    rw [Expr.ofText, error]
    rfl
  cases h with
  | @words ts ts' split split' words =>
    rw [ofTokens split, ofTokens split']
    cases read : Expr.ofTokens ts with
    | ok e =>
      have renamed := (Expr.derives_of_ofTokens read).renamed _ words
      rw [Expr.ofTokens_of_derives renamed]
      exact .inl ⟨e, rfl, rfl⟩
    | error x =>
      cases read' : Expr.ofTokens ts' with
      | error y => exact .inr ⟨_, _, rfl, rfl⟩
      | ok e' =>
        obtain ⟨S, inv⟩ := inj.exists_inverts
        have back := (Expr.derives_of_ofTokens read').renamed _ (inv.words words)
        rw [Expr.ofTokens_of_derives back] at read
        cases read
  | broken error error' => exact .inr ⟨_, _, broken error, broken error'⟩

theorem Expr.ofText_renamed_ok (inj : R.Injective) {text text' : String} (h : R.Texts text text')
    {e : Expr} (read : Expr.ofText text = .ok e) : Expr.ofText text' = .ok (e.rename R) := by
  rcases Expr.ofText_renamed inj h with ⟨e', read', renamed⟩ | ⟨_, _, error, _⟩
  · cases read.symm.trans read'
    exact renamed
  · cases read.symm.trans error

end PredicateStrength
