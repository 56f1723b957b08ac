import PredicateStrength.CommandLine.Blank
import PredicateStrength.CommandLine.Options
import PredicateStrength.Encoding
import PredicateStrength.Substitution

/-!
What a command prints and with which exit code it ends, given the contents of the files that it
may read.
-/
namespace PredicateStrength.CommandLine

/-- The program's name and version. -/
def versionText : String := "sindi 0.2.0"

/-- An error as it is reported: what went wrong, and what caused it. -/
structure Report where
  message : String
  cause : Option String := none

def Report.text (r : Report) : String :=
  "Error: " ++ r.message ++
    match r.cause with
    | some cause => "\n\nCaused by:\n    " ++ cause
    | none => ""

/-- What a run leaves behind: printed lines, an error that ended it, and the log records that were
asked for. -/
structure Outcome where
  code : Nat
  lines : List String := []
  report : Option Report := none
  records : List LogRecord := []

namespace Outcome

/-- The standard output: each line ends with a line break. -/
def output (o : Outcome) : String := String.join (o.lines.map (· ++ "\n"))

end Outcome

/-- The contents of a file, or why there are none. -/
abbrev Files := String → Except String String

/-- The lines and records so far. -/
structure Transcript where
  lines : List String := []
  records : List LogRecord := []

/-- A computation that prints lines, makes log records and can end with a report. -/
abbrev Printing := ExceptT Report (StateM Transcript)

def printLine (line : String) : Printing Unit :=
  modify fun t => { t with lines := t.lines ++ [line] }

/-- Add to the log. -/
def note (records : List LogRecord) : Printing Unit :=
  modify fun t => { t with records := t.records ++ records }

/-- The outcome of a computation that gives the exit code. -/
def Printing.outcome (p : Printing Nat) : Outcome :=
  match p.run {} with
  | (.ok code, t) => ⟨code, t.lines, none, t.records⟩
  | (.error report, t) => ⟨1, t.lines, some report, t.records⟩

/-- The text of a predicate, which may stand in a file. -/
def operandText (files : Files) (inFile : Bool) (operand : String) : Printing String :=
  if inFile then
    match files operand with
    | .ok text => return Blank.trim text
    | .error cause => throw ⟨"reading predicate from " ++ operand, some cause⟩
  else return operand

/-- The surface substitutions, unless they are to be skipped. -/
def expansion (flags : List Flag) : String → String :=
  if Flag.skipExpansion ∈ flags then id else Substitution.solidity.apply

/-- A predicate in all its forms. -/
def readPredicate (flags : List Flag) (source : String) : Printing Predicate := do
  match Predicate.read (expansion flags) source with
  | .ok p =>
    note p.log
    return p
  | .error e => throw ⟨e.message, some e.cause⟩

/-- The value of a conversion. -/
def converted {α : Type} (a : Conversion.Attempt α) : Printing α :=
  match a.result with
  | .ok a => return a
  | .error e => throw ⟨e.message, none⟩

/-- A result as JSON if that is asked for. -/
def emit (flags : List Flag) (json : Json) (plain : String) : Printing Unit :=
  printLine (if Flag.json ∈ flags then json.compact else plain)

/-- A label two blanks further in for each level. -/
def outlineLine (depth : Nat) (label : String) : String :=
  String.ofList (List.replicate (2 * depth) ' ') ++ label

mutual
/-- The tree with a line for each node, its parts indented below it. -/
def outline (depth : Nat) : Expr → List String
  | .ident name => [outlineLine depth name]
  | .num digits => [outlineLine depth digits]
  | .bool b => [outlineLine depth (if b then "true" else "false")]
  | .not e => outlineLine depth "!" :: outline (depth + 1) e
  | .neg e => outlineLine depth "-" :: outline (depth + 1) e
  | .op o args => outlineLine depth o.symbol :: outlines (depth + 1) args
  | .call (.ident name) args => outlineLine depth (name ++ "()") :: outlines (depth + 1) args
  | .call f args => outlineLine depth "call" :: (outline (depth + 1) f ++ outlines (depth + 1) args)
  | .index base key =>
    outlineLine depth "[]" :: (outline (depth + 1) base ++ outline (depth + 1) key)
  | .member base field => outlineLine depth ("." ++ field) :: outline (depth + 1) base

def outlines (depth : Nat) : List Expr → List String
  | [] => []
  | e :: es => outline depth e ++ outlines depth es
end

/-- A token as it is listed. -/
def tokenText (t : Token) : String := "(" ++ quoted t.lexeme ++ ", " ++ t.kind.name ++ ")"

/-- The commands on one predicate. -/
def runSingle (i : Invocation) (domain : Domain) (source : String) : Printing Unit := do
  match i.command with
  | .expand =>
    let expanded := expansion i.flags source
    emit i.flags (.str expanded) expanded
  | .tokenize =>
    match Token.ofText (expansion i.flags source) with
    | .error e => throw ⟨e.message, none⟩
    | .ok ts =>
      emit i.flags (.arr (ts.map Token.toJson))
        ("[" ++ String.intercalate ", " (ts.map tokenText) ++ "]")
  | .parse =>
    let p ← readPredicate i.flags source
    emit i.flags p.parsed.toJson
      (if Flag.tree ∈ i.flags then String.intercalate "\n" (outline 0 p.parsed) else p.parsed.text)
  | .canonicalize =>
    let p ← readPredicate i.flags source
    emit i.flags p.toJson p.canonical.text
  | .simplify =>
    let p ← readPredicate i.flags source
    if Flag.showSymbolic ∈ i.flags then
      let symbolic ← converted p.canonical.toSymbolic
      printLine ("symbolic: " ++ symbolic.text)
    note (p.canonical.simplifyLog domain)
    let simplified ← converted (p.canonical.simplify domain)
    emit i.flags simplified.toJson simplified.text
  | .compare => return ()

/-- The lines that show what stands behind a comparison. -/
def detailLines (c : Comparison) : List String :=
  let side (label : String) (p : Option Predicate) : List String :=
    (p.map fun p => label ++ ": " ++ p.source ++ " => " ++ p.canonical.text).toList
  let direction (label : String) (p : Option ImplicationProof) : String :=
    label ++ ": " ++ (p.map ImplicationProof.text).getD "unproven"
  side "first" c.first ++ side "second" c.second ++
    [direction "first => second" c.forward, direction "second => first" c.backward] ++
    c.kept.map fun e => "opaque: " ++ e.message

/-- The comparison of two predicates. -/
def runCompare (i : Invocation) (domain : Domain) (first second : String) : Printing Nat := do
  let method := if Flag.rulesOnly ∈ i.flags then .rules else .refutation .elimination
  let settings : Settings := { expand := expansion i.flags, domain := domain, verbose := true }
  let ⟨c, records⟩ := settings.explain method first second
  note records
  if Flag.json ∈ i.flags then printLine c.toJson.pretty
  else
    if Flag.verbose ∈ i.flags then (detailLines c).forM printLine
    printLine c.verdict.text
  return if c.verdict.isError then 1 else 0

/-- A command line that was understood. -/
def runInvocation (files : Files) (i : Invocation) : Printing Nat := do
  let domain := i.options.domain.getD .unsigned
  match i.command, i.operands with
  | .compare, [first, second] =>
    let first ← operandText files (Flag.firstFromFile ∈ i.flags) first
    let second ← operandText files (Flag.secondFromFile ∈ i.flags) second
    runCompare i domain first second
  | _, operands =>
    let source ← operandText files (Flag.fromFile ∈ i.flags) (operands.headD "")
    runSingle i domain source
    return 0

/-- The record is detailed enough to be asked for by `-v` given `verbosity` times. -/
def isShown (verbosity : Nat) (r : LogRecord) : Bool :=
  match r.level with
  | .debug => 2 ≤ verbosity
  | .trace => 3 ≤ verbosity

/-- The whole program. -/
def run (files : Files) (args : List String) : Outcome :=
  match Request.ofArguments args with
  | .invoke i =>
    let outcome := (runInvocation files i).outcome
    { outcome with records := outcome.records.filter (isShown i.options.verbosity) }
  | .version => { code := 0, lines := [versionText] }
  | .help => { code := 0 }
  | .misuse => { code := 2 }

/-- The files that the program reads with the given arguments. -/
def filesToRead (args : List String) : List String :=
  match Request.ofArguments args with
  | .invoke i =>
    match i.command, i.operands with
    | .compare, [first, second] =>
      (if Flag.firstFromFile ∈ i.flags then [first] else []) ++
        (if Flag.secondFromFile ∈ i.flags then [second] else [])
    | _, operands => if Flag.fromFile ∈ i.flags then operands.take 1 else []
  | _ => []

end PredicateStrength.CommandLine
