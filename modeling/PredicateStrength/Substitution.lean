/-!
Surface substitutions: patterns replaced in the text of a predicate before it is read.

An edge of a pattern that is a word character matches only at a word boundary, so that `now`
leaves `known` alone. Matches are found from left to right without overlap; one that is not at a
boundary is kept as it stands and the search goes on behind it.
-/
namespace PredicateStrength

namespace Substitution

/-- A letter, digit, `_` or `$`. -/
def isWordChar (c : Char) : Bool := c.isAlphanum || c = '_' || c = '$'

/-- Replace the matches of the pattern `head :: tail` that `accept` takes, given the characters
around the match. `before` is the character in front of the text. -/
def replaceMatches (accept : Option Char → Option Char → Bool) (head : Char)
    (tail replacement : List Char) (before : Option Char) : List Char → List Char
  | [] => []
  | c :: cs =>
    if (head :: tail).isPrefixOf (c :: cs) then
      let rest := cs.drop tail.length
      (if accept before rest.head? then replacement else head :: tail) ++
        replaceMatches accept head tail replacement (some (tail.getLast?.getD head)) rest
    else c :: replaceMatches accept head tail replacement (some c) cs
termination_by cs => cs.length
decreasing_by all_goals (simp only [List.length_drop, List.length_cons]; omega)

/-- No word character or dot in front of a pattern that starts with a word character, and no word
character behind one that ends with one. -/
def atBoundary (head : Char) (tail : List Char) (before after : Option Char) : Bool :=
  !(isWordChar head && before.any fun c => isWordChar c || c = '.') &&
    !(isWordChar (tail.getLast?.getD head) && after.any isWordChar)

/-- Every match at word boundaries replaced; the empty pattern matches nowhere. -/
def replaceWords (text pattern replacement : String) : String :=
  match pattern.toList with
  | [] => text
  | head :: tail =>
    String.ofList
      (replaceMatches (atBoundary head tail) head tail replacement.toList none text.toList)

/-- Every match replaced, whatever stands around it; the empty pattern matches in front of each
character and at the end. -/
def replaceAll (text pattern replacement : String) : String :=
  match pattern.toList with
  | [] =>
    let r := replacement.toList
    String.ofList (r ++ text.toList.flatMap fun c => c :: r)
  | head :: tail =>
    String.ofList
      (replaceMatches (fun _ _ => true) head tail replacement.toList none text.toList)

end Substitution

/-- Substitutions in the order in which they are carried out. -/
structure Substitution where
  entries : List (String × String) := []
deriving Repr

namespace Substitution

/-- A further substitution behind the others; an empty pattern is left out. -/
def insert (s : Substitution) (pattern replacement : String) : Substitution :=
  if pattern = "" then s else ⟨s.entries ++ [(pattern, replacement)]⟩

def size (s : Substitution) : Nat := s.entries.length

def isEmpty (s : Substitution) : Bool := s.entries.isEmpty

def ofList (entries : List (String × String)) : Substitution :=
  entries.foldl (fun s (pattern, replacement) => s.insert pattern replacement) {}

/-- Unit suffixes and old aliases of Solidity. -/
def solidity : Substitution :=
  ofList
    [("now", "block.timestamp"), (" ether", "e18"), (" gwei", "e9"), (" wei", ""),
      (" seconds", ""), (" minutes", " * 60"), (" hours", " * 3600"), (" days", " * 86400"),
      (" weeks", " * 604800")]

/-- The text after all substitutions, each carried out on the result of those before it. -/
def apply (s : Substitution) (text : String) : String :=
  s.entries.foldl (fun text (pattern, replacement) => replaceWords text pattern replacement) text

end Substitution
end PredicateStrength
