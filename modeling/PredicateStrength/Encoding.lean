import PredicateStrength.Comparison
import PredicateStrength.Json

/-!
Trees, tokens, predicates and comparisons as JSON. A node of a tree is an object whose one key
names its kind.
-/
namespace PredicateStrength

/-- The name of an operator in JSON. -/
def Operator.name : Operator → String
  | .or => "Or"
  | .and => "And"
  | .eq => "Eq"
  | .ne => "Ne"
  | .lt => "Lt"
  | .le => "Le"
  | .gt => "Gt"
  | .ge => "Ge"
  | .bitOr => "BitOr"
  | .bitXor => "BitXor"
  | .bitAnd => "BitAnd"
  | .add => "Add"
  | .sub => "Sub"
  | .mul => "Mul"
  | .div => "Div"
  | .mod => "Mod"
  | .pow => "Pow"

/-- The operator of a name. -/
def Operator.ofName? (s : String) : Option Operator := Operator.all.find? fun o => o.name = s

@[simp] theorem Operator.ofName?_name (o : Operator) : ofName? o.name = some o := by
  cases o <;> decide

mutual
def Expr.toJson : Expr → Json
  | .ident name => .obj [("Ident", .str name)]
  | .num digits => .obj [("Num", .str digits)]
  | .bool b => .obj [("Bool", .bool b)]
  | .not e => .obj [("Not", e.toJson)]
  | .neg e => .obj [("Neg", e.toJson)]
  | .op o args => .obj [("Op", .obj [("op", .str o.name), ("args", .arr (Expr.toJsons args))])]
  | .call f args => .obj [("Call", .obj [("callee", f.toJson), ("args", .arr (Expr.toJsons args))])]
  | .index base key => .obj [("Index", .obj [("base", base.toJson), ("index", key.toJson)])]
  | .member base field => .obj [("Member", .obj [("base", base.toJson), ("field", .str field)])]

def Expr.toJsons : List Expr → List Json
  | [] => []
  | e :: es => e.toJson :: Expr.toJsons es
end

def Token.toJson (t : Token) : Json :=
  .obj [("lexeme", .str t.lexeme), ("kind", .str t.kind.name), ("pos", .num t.pos)]

def Predicate.toJson (p : Predicate) : Json :=
  .obj [("source", .str p.source), ("rewritten", .str p.expanded), ("parsed", p.parsed.toJson),
    ("canonical", p.canonical.toJson)]

def Verdict.toJson : Verdict → Json
  | .error reason => .obj [("error", .str reason)]
  | v => .str v.tag

def ImplicationProof.toJson (p : ImplicationProof) : Json := .str p.text

def Comparison.toJson (c : Comparison) : Json :=
  .obj [("verdict", c.verdict.toJson), ("first", .ofOption Predicate.toJson c.first),
    ("second", .ofOption Predicate.toJson c.second),
    ("forward", .ofOption ImplicationProof.toJson c.forward),
    ("backward", .ofOption ImplicationProof.toJson c.backward),
    ("opaque", .arr (c.kept.map fun e => .str e.message))]

end PredicateStrength
