/-!
# Log levels

How serious a message is. Levels are ordered by number.

* `ofText?_name` — a level is read back from its name.
-/

namespace DesignTokens

inductive LogLevel where
  | debug | info | warning | error | critical
  deriving DecidableEq, Repr

namespace LogLevel

def name : LogLevel → String
  | debug => "DEBUG"
  | info => "INFO"
  | warning => "WARNING"
  | error => "ERROR"
  | critical => "CRITICAL"

def number : LogLevel → Nat
  | debug => 10
  | info => 20
  | warning => 30
  | error => 40
  | critical => 50

def all : List LogLevel := [debug, info, warning, error, critical]

/-- The capital of a letter, as far as names of levels have it. The dotless letter has the capital with the
dotted one in common. -/
def capital (c : Char) : Char := if c = 'ı' then 'I' else c.toUpper

/-- The level with a name, in letters of either case. -/
def ofText? (text : String) : Option LogLevel :=
  let capitals := String.ofList (text.toList.map capital)
  all.find? (·.name == capitals)

theorem ofText?_name (level : LogLevel) : ofText? level.name = some level := by
  cases level <;> decide

end LogLevel

end DesignTokens
