import Mathlib
import PredicateStrength.Proofs.Token.Splitting

/-!
# Tokens and the text they come from

Reading goes through the text from its front: it drops whitespace, takes one token after another,
and stops at the end or where no token starts. So every byte of the text belongs to exactly one
token or is dropped, and how far reading has come depends only on what lies before that place.
The places of tokens that are written again with single spaces are new ones; their kinds and
lexemes stay.

Main statements: `Reads.ofChars_consumed`, `Reads.covers`, `lexes_spaced`, `ofText_lossless`.
-/
namespace PredicateStrength

/-- The place where reading failed, in bytes. -/
def LexError.pos : LexError → Nat
  | .unexpectedChar _ pos => pos
  | .badNumber _ pos => pos

namespace Token

/-- Reading comes from byte `pos`, in front of `cs`, to byte `pos'`, in front of `cs'`, and finds
the tokens on the way. -/
inductive Reads : Nat → List Char → List Token → Nat → List Char → Prop
  | done (pos cs) : Reads pos cs [] pos cs
  | space {pos c cs ts pos' cs'} : isSpace c = true →
      Reads (pos + c.utf8Size) cs ts pos' cs' → Reads pos (c :: cs) ts pos' cs'
  | token {pos c cs kind s ts pos' cs'} : scan pos c cs = .ok (kind, s) →
      Reads (pos + byteLength s.taken) s.rest ts pos' cs' →
      Reads pos (c :: cs) (⟨String.ofList s.taken, kind, pos⟩ :: ts) pos' cs'

variable {c : Char} {cs cs' rest : List Char} {kind : TokenKind} {pos pos' : Nat}
  {ts : List Token} {t : Token} {e : LexError}

theorem byteLength_eq (cs : List Char) : byteLength cs = (String.ofList cs).utf8ByteSize := by
  induction cs with
  | nil => rfl
  | cons c cs ih =>
    rw [byteLength, ih, String.ofList_cons, String.utf8ByteSize_append,
      String.utf8ByteSize_singleton]

theorem byteLength_toList (text : String) : byteLength text.toList = text.utf8ByteSize := by
  rw [byteLength_eq, String.ofList_toList]

theorem byteLength_append (cs ds : List Char) :
    byteLength (cs ++ ds) = byteLength cs + byteLength ds := by
  rw [byteLength_eq, byteLength_eq, byteLength_eq, String.ofList_append,
    String.utf8ByteSize_append]

theorem byteLength_pos (h : cs ≠ []) : 0 < byteLength cs := by
  cases cs with
  | nil => exact absurd rfl h
  | cons c cs =>
    have size := c.utf8Size_pos
    rw [byteLength]
    omega

theorem stop_ofList (taken : List Char) :
    (⟨String.ofList taken, kind, pos⟩ : Token).stop = pos + byteLength taken := by
  rw [byteLength_eq]
  rfl

theorem scan_error_pos (h : scan pos c cs = .error e) : e.pos = pos := by
  unfold scan at h
  grind [LexError.pos]

theorem reads_of_ofChars_ok (h : ofChars pos cs = .ok ts) :
    Reads pos cs ts (pos + byteLength cs) [] := by
  fun_induction ofChars pos cs generalizing ts with
  | case1 pos =>
    cases h
    exact .done pos []
  | case2 pos c cs space ih =>
    have later := ih h
    rw [Nat.add_assoc] at later
    exact .space space later
  | case3 => cases h
  | case4 pos c cs space kind s found shorter ih =>
    cases later : ofChars (pos + byteLength s.taken) s.rest with
    | error => rw [later] at h; cases h
    | ok us =>
      rw [later] at h
      cases h
      have bytes : byteLength s.taken + byteLength s.rest = byteLength (c :: cs) := by
        rw [← byteLength_append, ← chars_scan found, Scan.chars]
      have reads := ih later
      rw [Nat.add_assoc, bytes] at reads
      exact .token found reads

/-- A failure is found where reading has come to a character that is no whitespace and that starts
no token. -/
theorem reads_of_ofChars_error (h : ofChars pos cs = .error e) :
    ∃ ts c cs', Reads pos cs ts e.pos (c :: cs') ∧ isSpace c = false ∧
      scan e.pos c cs' = .error e := by
  fun_induction ofChars pos cs with
  | case1 => cases h
  | case2 pos c cs space ih =>
    obtain ⟨ts, d, ds, reads, there⟩ := ih h
    exact ⟨ts, d, ds, .space space reads, there⟩
  | case3 pos c cs space e' failed =>
    cases h
    rw [scan_error_pos failed]
    exact ⟨[], c, cs, .done pos _, Bool.eq_false_iff.2 space, failed⟩
  | case4 pos c cs space kind s found shorter ih =>
    cases later : ofChars (pos + byteLength s.taken) s.rest with
    | ok us => rw [later] at h; cases h
    | error e' =>
      rw [later] at h
      cases h
      obtain ⟨ts, d, ds, reads, there⟩ := ih later
      exact ⟨_, d, ds, .token found reads, there⟩

/-- What was read, read alone, gives the same tokens: the text behind it had no part in them. -/
theorem Reads.ofChars_consumed (read : Reads pos cs ts pos' cs') :
    ∃ before, cs = before ++ cs' ∧ pos' = pos + byteLength before ∧
      ofChars pos before = .ok ts := by
  induction read with
  | done pos cs => exact ⟨[], rfl, rfl, by rw [ofChars]⟩
  | @space pos c cs ts pos' cs' space _ ih =>
    obtain ⟨before, same, reached, tokens⟩ := ih
    refine ⟨c :: before, ?_, ?_, ?_⟩
    · rw [same, List.cons_append]
    · rw [reached, byteLength, Nat.add_assoc]
    · rw [ofChars, if_pos space, tokens]
  | @token pos c cs kind s ts pos' cs' found _ ih =>
    obtain ⟨before, same, reached, tokens⟩ := ih
    have front : Cut s.rest before := by
      rw [same]
      exact .front before cs'
    obtain ⟨ds, taken, again⟩ := scan_cut found front pos
    have chars : s.taken ++ s.rest = c :: cs := chars_scan found
    refine ⟨c :: (ds ++ before), ?_, ?_, ?_⟩
    · rw [← chars, same, taken, List.cons_append, List.cons_append, List.append_assoc]
    · rw [reached, taken, ← List.cons_append, byteLength_append, Nat.add_assoc]
    · rw [taken] at tokens ⊢
      exact ofChars_of_scan again tokens

theorem Reads.slice (read : Reads pos cs ts pos' cs') (mem : t ∈ ts) :
    t.lexeme ≠ "" ∧ ∃ before after, cs = before ++ (t.lexeme.toList ++ after) ∧
      t.pos = pos + byteLength before := by
  induction read with
  | done => cases mem
  | @space pos c cs ts pos' cs' space _ ih =>
    obtain ⟨filled, before, after, same, place⟩ := ih mem
    refine ⟨filled, c :: before, after, ?_, ?_⟩
    · rw [same, List.cons_append]
    · rw [place, byteLength, Nat.add_assoc]
  | @token pos c cs kind s ts pos' cs' found _ ih =>
    have chars : s.taken ++ s.rest = c :: cs := chars_scan found
    rcases List.mem_cons.1 mem with rfl | later
    · refine ⟨fun empty => taken_scan_ne_nil found ?_, [], s.rest, ?_, rfl⟩
      · exact String.ofList_eq_empty_iff.1 empty
      · rw [String.toList_ofList, List.nil_append, chars]
    · obtain ⟨filled, before, after, same, place⟩ := ih later
      refine ⟨filled, s.taken ++ before, after, ?_, ?_⟩
      · rw [← chars, same, List.append_assoc]
      · rw [place, byteLength_append, Nat.add_assoc]

theorem Reads.pos_le (read : Reads pos cs ts pos' cs') (mem : t ∈ ts) : pos ≤ t.pos := by
  obtain ⟨-, before, after, -, place⟩ := read.slice mem
  omega

theorem Reads.ordered (read : Reads pos cs ts pos' cs') :
    ts.Pairwise fun t u => t.stop ≤ u.pos := by
  induction read with
  | done => exact .nil
  | space _ _ ih => exact ih
  | token found later ih =>
    refine List.pairwise_cons.2 ⟨fun u mem => ?_, ih⟩
    rw [stop_ofList]
    exact later.pos_le mem

/-- Of what was read, each character is whitespace or lies inside a token. -/
theorem Reads.between (read : Reads pos cs ts pos' cs') {before after : List Char}
    (same : cs = before ++ c :: after) (inside : pos + byteLength before < pos') :
    isSpace c = true ∨ ∃ t ∈ ts, t.pos ≤ pos + byteLength before ∧
      pos + byteLength before < t.stop := by
  induction read generalizing before with
  | done => omega
  | @space pos d cs ts pos' cs' space _ ih =>
    cases before with
    | nil =>
      cases same
      exact .inl space
    | cons d' before =>
      obtain ⟨rfl, later⟩ := List.cons.inj same
      rw [byteLength, ← Nat.add_assoc] at inside ⊢
      exact ih later inside
  | @token pos d cs kind s ts pos' cs' found _ ih =>
    have chars : s.taken ++ s.rest = before ++ c :: after := (chars_scan found).trans same
    -- the character stands inside this token or behind it
    rcases List.append_eq_append_iff.1 chars with ⟨gap, front, behind⟩ | ⟨gap, front, behind⟩
    · rw [front, byteLength_append, ← Nat.add_assoc] at inside ⊢
      rcases ih behind inside with space | ⟨t, mem, covered⟩
      · exact .inl space
      · exact .inr ⟨t, List.mem_cons_of_mem _ mem, covered⟩
    · cases gap with
      | nil =>
        rw [List.append_nil] at front
        rw [List.nil_append] at behind
        have start := @ih [] behind.symm
        rw [byteLength, Nat.add_zero, front] at start
        rcases start inside with space | ⟨t, mem, covered⟩
        · exact .inl space
        · exact .inr ⟨t, List.mem_cons_of_mem _ mem, covered⟩
      | cons d' gap =>
        refine .inr ⟨_, List.mem_cons_self, Nat.le_add_right _ _, ?_⟩
        have more : 0 < byteLength (d' :: gap) := byteLength_pos (List.cons_ne_nil _ _)
        rw [stop_ofList, front, byteLength_append]
        omega

/-- The tokens are pieces of the text at their places, none empty, each behind the one before it,
and what lies in none of them is whitespace. -/
structure Covers (ts : List Token) (text : String) : Prop where
  slice : ∀ t ∈ ts, t.lexeme ≠ "" ∧
    ∃ before after, text = before ++ t.lexeme ++ after ∧ before.utf8ByteSize = t.pos
  ordered : ts.Pairwise fun t u => t.stop ≤ u.pos
  between : ∀ before c after, text = before ++ String.singleton c ++ after →
    isSpace c = true ∨ ∃ t ∈ ts, t.pos ≤ before.utf8ByteSize ∧ before.utf8ByteSize < t.stop

theorem Reads.covers {text : String} (read : Reads 0 text.toList ts text.utf8ByteSize []) :
    Covers ts text where
  slice t mem := by
    obtain ⟨filled, before, after, same, place⟩ := read.slice mem
    refine ⟨filled, String.ofList before, String.ofList after, ?_, ?_⟩
    · apply String.toList_injective
      simpa using same
    · rw [place, byteLength_eq, Nat.zero_add]
  ordered := read.ordered
  between before c after same := by
    have chars : text.toList = before.toList ++ c :: after.toList := by
      simp [same]
    have size := c.utf8Size_pos
    have inside : 0 + byteLength before.toList < text.utf8ByteSize := by
      rw [byteLength_toList, same, String.utf8ByteSize_append, String.utf8ByteSize_append,
        String.utf8ByteSize_singleton]
      omega
    have found := read.between chars inside
    rwa [byteLength_toList, Nat.zero_add] at found

/-- A token stays that token at the end of the text and in front of a space. -/
theorem Lexes.cut {text : String} {ws : List Word} (word : isWhole kind text = true)
    (cut : Cut [] rest) (more : Lexes rest ws) :
    Lexes (text.toList ++ rest) (⟨kind, text⟩ :: ws) := by
  unfold isWhole at word
  split at word
  · cases word
  · next c cs chars =>
    split at word
    · next k s found =>
      obtain ⟨same, empty⟩ := Bool.and_eq_true _ _ ▸ word
      obtain rfl := of_decide_eq_true same
      have whole : s.rest = [] := List.isEmpty_iff.1 empty
      have taken := taken_of_rest (chars_scan found) whole
      have alone : text = String.ofList (c :: cs) := by
        rw [← chars, String.ofList_toList]
      rw [chars, List.cons_append, alone]
      refine Lexes.token (fun pos => ?_) more
      obtain ⟨ds, taken', again⟩ := scan_cut found (whole ▸ cut) pos
      obtain rfl : ds = cs := (List.cons.inj (taken'.symm.trans taken)).2
      exact again
    · cases word

/-- Whole tokens with a space between any two of them split into these tokens. -/
theorem lexes_spaced {ws : List Word} (whole : ∀ w ∈ ws, isWhole w.kind w.lexeme = true) :
    Lexes (" ".intercalate (ws.map Word.lexeme)).toList ws := by
  induction ws with
  | nil => exact Lexes.nil
  | cons w ws ih =>
    obtain ⟨here, later⟩ := List.forall_mem_cons.1 whole
    cases ws with
    | nil =>
      have alone := Lexes.cut here (.nil []) Lexes.nil
      rwa [List.append_nil] at alone
    | cons v vs =>
      have spaced := Lexes.cut here (.space [] _) (Lexes.space (c := ' ') rfl (ih later))
      simpa [String.intercalate_cons_cons] using spaced

/-- Tokens cover their text, and written with single spaces they are read again. Where a text
fails, everything before the failing place splits into the tokens found so far. -/
theorem ofText_lossless (text : String) :
    (∀ ts, ofText text = .ok ts → Covers ts text ∧
      ∃ us, ofText (" ".intercalate (ts.map Token.lexeme)) = .ok us ∧
        us.map Token.word = ts.map Token.word) ∧
    ∀ e, ofText text = .error e → ∃ before c after found,
      text = before ++ String.singleton c ++ after ∧ before.utf8ByteSize = e.pos ∧
      isSpace c = false ∧ ofText before = .ok found ∧
      Reads 0 text.toList found e.pos (c :: after.toList) ∧ scan e.pos c after.toList = .error e := by
  constructor
  · intro ts tokens
    constructor
    · have read := reads_of_ofChars_ok tokens
      rw [Nat.zero_add, byteLength_toList] at read
      exact read.covers
    · have whole : ∀ w ∈ ts.map Token.word, isWhole w.kind w.lexeme = true := by
        intro w mem
        obtain ⟨t, there, rfl⟩ := List.mem_map.1 mem
        exact isWhole_of_mem_ofChars tokens there
      have again := lexes_spaced whole 0
      rwa [List.map_map] at again
  · intro e failed
    obtain ⟨found, c, after, read, space, stops⟩ := reads_of_ofChars_error failed
    obtain ⟨before, same, reached, tokens⟩ := read.ofChars_consumed
    refine ⟨String.ofList before, c, String.ofList after, found, ?_, ?_, space, ?_, ?_, ?_⟩
    · apply String.toList_injective
      simpa using same
    · rw [reached, byteLength_eq, Nat.zero_add]
    · rwa [ofText, String.toList_ofList]
    · rwa [String.toList_ofList]
    · rwa [String.toList_ofList]

theorem ofText_lossless_spaced_and_foreign :
    (ofText " x<=\t1" = .ok [⟨"x", .identifier, 1⟩, ⟨"<=", .operator, 2⟩, ⟨"1", .number, 5⟩] ∧
      Covers [⟨"x", .identifier, 1⟩, ⟨"<=", .operator, 2⟩, ⟨"1", .number, 5⟩] " x<=\t1" ∧
      ∃ us, ofText "x <= 1" = .ok us ∧
        us.map Token.word = [⟨.identifier, "x"⟩, ⟨.operator, "<="⟩, ⟨.number, "1"⟩]) ∧
    ofText "x.é" = .error (.unexpectedChar 'é' 2) ∧ ∃ before c after found,
      "x.é" = before ++ String.singleton c ++ after ∧ before.utf8ByteSize = 2 ∧
      isSpace c = false ∧ ofText before = .ok found ∧
      Reads 0 "x.é".toList found 2 (c :: after.toList) ∧
      scan 2 c after.toList = .error (.unexpectedChar 'é' 2) := by
  have tokens : ofText " x<=\t1" =
      .ok [⟨"x", .identifier, 1⟩, ⟨"<=", .operator, 2⟩, ⟨"1", .number, 5⟩] := by cbv
  have failure : ofText "x.é" = .error (.unexpectedChar 'é' 2) := by cbv
  have read := (ofText_lossless " x<=\t1").1 _ tokens
  exact ⟨⟨tokens, read⟩, failure, (ofText_lossless "x.é").2 _ failure⟩

end Token
end PredicateStrength
