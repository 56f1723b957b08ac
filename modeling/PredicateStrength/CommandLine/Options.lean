import PredicateStrength.Formula.Constraint

/-!
The arguments of a command line. Options that every command has may stand before or after the name
of the command; behind it they win. An option with a value takes it from the same argument, behind
`=`, or from the next one. Behind `--` nothing is an option.

Each option may be given once at each of the two places, only `-v` more often.
-/
namespace PredicateStrength.CommandLine

/-- The options of every command; `none` is an option that was not given. -/
structure GlobalOptions where
  verbosity : Nat := 0
  domain : Option Domain := none
  /-- A limit on the time that a solver may take. It is read but not enforced: the solver's own
  limits end every run. -/
  timeoutMs : Option Nat := none

/-- Options given behind the command win over those in front of it. -/
def GlobalOptions.orElse (inner outer : GlobalOptions) : GlobalOptions where
  verbosity := inner.verbosity + outer.verbosity
  domain := inner.domain.or outer.domain
  timeoutMs := inner.timeoutMs.or outer.timeoutMs

/-- The options without a value. -/
inductive Flag where
  | fromFile
  | skipExpansion
  | json
  | tree
  | showSymbolic
  | rulesOnly
  | verbose
  | firstFromFile
  | secondFromFile
deriving DecidableEq, Repr

def Flag.name : Flag → String
  | .fromFile => "--from-file"
  | .skipExpansion => "--skip-rewrite"
  | .json => "--json"
  | .tree => "--tree"
  | .showSymbolic => "--show-symbolic"
  | .rulesOnly => "--rules-only"
  | .verbose => "--verbose"
  | .firstFromFile => "--p1-file"
  | .secondFromFile => "--p2-file"

inductive Command where
  | expand
  | tokenize
  | parse
  | canonicalize
  | simplify
  | compare
deriving DecidableEq, Repr

namespace Command

def name : Command → String
  | .expand => "rewrite"
  | .tokenize => "tokenize"
  | .parse => "parse"
  | .canonicalize => "canonicalize"
  | .simplify => "simplify"
  | .compare => "compare"

def all : List Command := [.expand, .tokenize, .parse, .canonicalize, .simplify, .compare]

/-- The command of a name. -/
def ofName? (s : String) : Option Command := all.find? fun c => c.name = s

/-- The flags that a command has. -/
def flags : Command → List Flag
  | .parse => [.fromFile, .skipExpansion, .json, .tree]
  | .simplify => [.fromFile, .skipExpansion, .json, .showSymbolic]
  | .compare => [.rulesOnly, .verbose, .json, .firstFromFile, .secondFromFile, .skipExpansion]
  | _ => [.fromFile, .skipExpansion, .json]

/-- How many predicates a command takes. -/
def operandCount : Command → Nat
  | .compare => 2
  | _ => 1

end Command

/-- A command line that was understood. -/
structure Invocation where
  command : Command
  options : GlobalOptions
  flags : List Flag
  operands : List String

/-- What a command line asks for. -/
inductive Request where
  | invoke (i : Invocation)
  | version
  | help
  | misuse

/-- What the arguments up to some place have given. -/
structure Seen where
  options : GlobalOptions := {}
  flags : List Flag := []
  operands : List String := []

/-- An option with a value. -/
inductive ValueOption where
  | domain
  | timeout
deriving DecidableEq, Repr

/-- The value of a domain option. -/
def domain? : String → Option Domain
  | "unsigned" => some .unsigned
  | "integer" => some .integer
  | _ => none

/-- The number that decimal digits, at most with a plus sign in front, denote if it fits 64 bits. -/
def natural64? (s : String) : Option Nat :=
  let digits := match s.toList with
    | '+' :: cs => cs
    | cs => cs
  if digits.isEmpty || !digits.all Char.isDigit then none
  else
    let n := digits.foldl (fun n c => 10 * n + (c.toNat - 48)) 0
    if n < Nat.pow 2 64 then some n else none

/-- Take note of an option with its value; not if it was given before or the value is bad. -/
def Seen.setValue? (s : Seen) (o : ValueOption) (value : String) : Option Seen :=
  match o with
  | .domain =>
    if s.options.domain.isSome then none
    else (domain? value).map fun d => { s with options.domain := some d }
  | .timeout =>
    if s.options.timeoutMs.isSome then none
    else (natural64? value).map fun n => { s with options.timeoutMs := some n }

/-- What a single argument is. -/
inductive Argument where
  /-- Nothing behind it is an option. -/
  | escape
  | value (o : ValueOption) (attached : Option String)
  | flag (f : Flag)
  /-- One or more `v` behind a dash; other letters may follow. -/
  | shorts (letters : List Char)
  | version
  | help
  | operand (text : String)
  | unknown

/-- The value behind `name=`. -/
def attachedValue? (name arg : String) : Option String :=
  let lead := (name ++ "=").toList
  if lead.isPrefixOf arg.toList then some (String.ofList (arg.toList.drop lead.length)) else none

/-- What an argument is where the given flags are known. -/
def Argument.classify (flags : List Flag) (arg : String) : Argument :=
  if arg = "--" then .escape
  else if arg = "--domain" then .value .domain none
  else if arg = "--timeout-ms" then .value .timeout none
  else if arg = "--version" then .version
  else if arg = "--help" then .help
  else
    match attachedValue? "--domain" arg, attachedValue? "--timeout-ms" arg with
    | some v, _ => .value .domain (some v)
    | none, some v => .value .timeout (some v)
    | none, none =>
      match flags.find? (fun f => f.name = arg), arg.toList with
      | some f, _ => .flag f
      | none, '-' :: '-' :: _ => .unknown
      | none, '-' :: c :: cs => .shorts (c :: cs)
      | none, _ => .operand arg

/-- How the letters behind a single dash end. -/
inductive ShortsOutcome where
  | counted (n : Nat)
  | version
  | help
  | unknown

/-- Letters behind a single dash, one after the other. -/
def readShorts (count : Nat) : List Char → ShortsOutcome
  | [] => .counted count
  | 'v' :: cs => readShorts (count + 1) cs
  | 'V' :: _ => .version
  | 'h' :: _ => .help
  | _ => .unknown

/-- The value that follows an option is not itself an option. -/
def isValue (arg : String) : Bool :=
  match arg.toList with
  | '-' :: _ :: _ => false
  | _ => true

/-- The arguments behind a command's name. -/
def readCommand (c : Command) (outer : GlobalOptions) (s : Seen) : List String → Request
  | [] =>
    if s.operands.length = c.operandCount then
      .invoke ⟨c, s.options.orElse outer, s.flags, s.operands⟩
    else .misuse
  | arg :: args =>
    match Argument.classify c.flags arg with
    | .escape =>
      let operands := s.operands ++ args
      if operands.length = c.operandCount then
        .invoke ⟨c, s.options.orElse outer, s.flags, operands⟩
      else .misuse
    | .value o (some v) =>
      match s.setValue? o v with
      | some s => readCommand c outer s args
      | none => .misuse
    | .value o none =>
      match args with
      | [] => .misuse
      | v :: args =>
        match isValue v, s.setValue? o v with
        | true, some s => readCommand c outer s args
        | _, _ => .misuse
    | .flag f =>
      if f ∈ s.flags then .misuse else readCommand c outer { s with flags := f :: s.flags } args
    | .shorts letters =>
      match readShorts 0 letters with
      | .counted n =>
        readCommand c outer { s with options.verbosity := s.options.verbosity + n } args
      | .help => .help
      | _ => .misuse
    | .help => .help
    | .version | .unknown => .misuse
    | .operand text =>
      if s.operands.length < c.operandCount then
        readCommand c outer { s with operands := s.operands ++ [text] } args
      else .misuse

/-- What follows the command `help`: nothing, or a command to be explained. -/
def helpOn : List String → Request
  | [] => .help
  | ["help"] => .help
  | [arg] => if (Command.ofName? arg).isSome then .help else .misuse
  | _ => .misuse

/-- The arguments in front of the command's name, and those behind it. -/
def readArguments (s : Seen) : List String → Request
  | [] => .misuse
  | arg :: args =>
    match Command.ofName? arg with
    | some c => readCommand c s.options {} args
    | none =>
      match Argument.classify [] arg with
      | .value o (some v) =>
        match s.setValue? o v with
        | some s => readArguments s args
        | none => .misuse
      | .value o none =>
        match args with
        | [] => .misuse
        | v :: args =>
          match isValue v, s.setValue? o v with
          | true, some s => readArguments s args
          | _, _ => .misuse
      | .shorts letters =>
        match readShorts 0 letters with
        | .counted n =>
          readArguments { s with options.verbosity := s.options.verbosity + n } args
        | .version => .version
        | .help => .help
        | .unknown => .misuse
      | .version => .version
      | .help => .help
      | .operand "help" => helpOn args
      | .escape | .flag _ | .unknown | .operand _ => .misuse

/-- What the arguments ask for. -/
def Request.ofArguments (args : List String) : Request := readArguments {} args

end PredicateStrength.CommandLine
