/-!
What the program reports about its own work. Records are data, so a stage that reports stays a
function; where they go is decided outside.
-/
namespace PredicateStrength

/-- How much detail a record is. -/
inductive LogLevel where
  | debug
  | trace
deriving DecidableEq, Repr

/-- Which stage reports. -/
inductive LogSource where
  | canonical
  | reading
  | simplifier
  | rules
  | comparison
  | solver
deriving DecidableEq, Repr

/-- The name under which a stage reports. -/
def LogSource.name : LogSource → String
  | .canonical => "sindi::canonical"
  | .reading => "sindi::frontend"
  | .simplifier => "sindi::simplify"
  | .rules => "sindi::rules"
  | .comparison => "sindi::compare"
  | .solver => "sindi::solver"

structure LogRecord where
  level : LogLevel
  source : LogSource
  message : String
deriving DecidableEq, Repr

/-- The record as one line. -/
def LogRecord.text (r : LogRecord) : String :=
  let level := match r.level with
    | .debug => "DEBUG"
    | .trace => "TRACE"
  level ++ " " ++ r.source.name ++ ": " ++ r.message

/-- A value and the records made on the way to it. -/
structure Logged (α : Type) where
  value : α
  records : List LogRecord

namespace Logged

instance : Monad Logged where
  pure a := ⟨a, []⟩
  bind x f := ⟨(f x.value).value, x.records ++ (f x.value).records⟩

@[simp] theorem value_pure {α : Type} (a : α) : (pure a : Logged α).value = a := rfl

@[simp] theorem value_bind {α β : Type} (x : Logged α) (f : α → Logged β) :
    (x >>= f).value = (f x.value).value := rfl

/-- Make records if they are asked for. -/
def report (wanted : Bool) (records : List LogRecord) : Logged Unit :=
  ⟨(), if wanted then records else []⟩

end Logged

/-- A character inside a quoted text: quotes, backslashes and control characters are escaped. -/
def escaped (c : Char) : List Char :=
  if c = '"' then ['\\', '"']
  else if c = '\\' then ['\\', '\\']
  else if c = '\n' then ['\\', 'n']
  else if c = '\r' then ['\\', 'r']
  else if c = '\t' then ['\\', 't']
  else if c = '\x00' then ['\\', '0']
  else if c.toNat < 32 || c.toNat = 127 then
    ['\\', 'u', '\x7b'] ++ Nat.toDigits 16 c.toNat ++ ['\x7d']
  else [c]

/-- The text in double quotes. -/
def quoted (s : String) : String := "\"" ++ String.ofList (s.toList.flatMap escaped) ++ "\""

end PredicateStrength
