/-!
How grave an entry of the journal is.
-/

namespace PlusLisp

/-- The severities, from the least to the gravest. -/
inductive Severity where
  | debug
  | info
  | warning
  | error
  | critical
  deriving DecidableEq, Repr

namespace Severity

/-- The severities in order. -/
def all : List Severity := [debug, info, warning, error, critical]

/-- The rank by which severities are compared. -/
def rank : Severity → Nat
  | debug => 10
  | info => 20
  | warning => 30
  | error => 40
  | critical => 50

/-- The name of a severity. -/
def name : Severity → String
  | debug => "DEBUG"
  | info => "INFO"
  | warning => "WARNING"
  | error => "ERROR"
  | critical => "CRITICAL"

/-- The severity of a name. -/
def ofName? (text : String) : Option Severity := all.find? (·.name = text)

end Severity

end PlusLisp
