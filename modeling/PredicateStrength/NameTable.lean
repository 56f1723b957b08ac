import PredicateStrength.Formula.ToExpr

/-!
Names that are safe as identifiers of other tools, one for each raw name.
-/
namespace PredicateStrength

/-- The names given so far, and how often each base was used for one. -/
structure NameTable where
  names : List (String × String) := []
  uses : List (String × Nat) := []

namespace NameTable

/-- Every character but letters, digits and `_` becomes `_`, and one is put in front of a name that
would be empty or start with a digit. -/
def safeName (raw : String) : String :=
  let cs := raw.toList.map fun c => if c.isAlphanum || c = '_' then c else '_'
  match cs with
  | [] => "_"
  | c :: _ => String.ofList (if c.isDigit then '_' :: cs else cs)

/-- The name of `raw`: the one that it has already, or its safe form, from the second use of that
form on with a number. -/
def name (t : NameTable) (raw : String) : String × NameTable :=
  match t.names.lookup raw with
  | some given => (given, t)
  | none =>
    let base := safeName raw
    let uses := (t.uses.lookup base).getD 0
    let given := if uses = 0 then base else base ++ "_" ++ toString uses
    (given, ⟨(raw, given) :: t.names, (base, uses + 1) :: t.uses⟩)

/-- The name of an atom, which is that of its text. -/
def atomName (t : NameTable) (a : Atom) : String × NameTable := t.name a.toExpr.text

end NameTable
end PredicateStrength
