import PlusLisp.Signed64
import PlusLisp.Text.Numeral

/-!
The faults that stop the reading or the evaluation of a program, by cause, with the wording of
each and the family it belongs to. A fault is worded as soon as it arises: one whose wording
would hold an integer too long to be written is answered as a fault of that numeral.
-/

namespace PlusLisp

/-- What stops a program. -/
inductive Fault where
  /-- A run of digits stands for more than the greatest number. -/
  | literalOutOfRange (digits : String)
  /-- A token is of no known kind. -/
  | unknownToken (kind : String)
  /-- A tree is of no known kind. -/
  | unknownTree (kind : String)
  /-- The text of a number writes no integer. -/
  | badNumeral (error : Text.NumeralError)
  /-- An integer is outside the range of the numbers. -/
  | integerOutOfRange (value : Int)
  /-- A sum has fewer than two operands. -/
  | missingOperands (given : Nat)
  /-- An evaluation is nested more deeply than allowed. -/
  | depthExceeded (depth limit : Int)
  /-- An evaluation takes more steps than allowed. -/
  | stepsExceeded (steps limit : Int)
  deriving DecidableEq, Repr

namespace Fault

/-- The families of faults, one for each way of answering them. -/
inductive Family where
  | literal
  | kind
  | numeral
  | range
  | operands
  | limit
  deriving DecidableEq, Repr

/-- The family of a fault that can be worded. -/
def ownFamily : Fault → Family
  | literalOutOfRange _ => .literal
  | unknownToken _ | unknownTree _ => .kind
  | badNumeral _ => .numeral
  | integerOutOfRange _ => .range
  | missingOperands _ => .operands
  | depthExceeded _ _ | stepsExceeded _ _ => .limit

/-- The wording of a fault that can be worded. -/
def wording : Fault → String
  | literalOutOfRange digits => "Integer literal out of range: " ++ digits
  | unknownToken kind => "Unknown token kind: " ++ kind
  | unknownTree kind => "Unknown node type: " ++ kind
  | badNumeral error => error.message
  | integerOutOfRange value => "Integer out of 64-bit range: " ++ toString value
  | missingOperands given => "'+' expects 2 operands, got " ++ toString given
  | depthExceeded depth limit =>
      "Maximum recursion depth exceeded: " ++ toString depth ++ " > " ++ toString limit
  | stepsExceeded steps limit =>
      "Maximum step count exceeded: " ++ toString steps ++ " > " ++ toString limit

/-- The integers that the wording of a fault holds. Runs of digits and names stay as they are. -/
def integers : Fault → List Int
  | literalOutOfRange _ | unknownToken _ | unknownTree _ | badNumeral _ => []
  | integerOutOfRange value => [value]
  | missingOperands given => [given]
  | depthExceeded depth limit | stepsExceeded depth limit => [depth, limit]

/-- A fault can be worded when all integers of its wording can be written. -/
def CanBeWorded (fault : Fault) : Prop := ∀ n ∈ fault.integers, Text.IsWritable n

instance (fault : Fault) : Decidable fault.CanBeWorded := by unfold CanBeWorded; infer_instance

/-- The family by which a fault is answered. -/
def family (fault : Fault) : Family :=
  if fault.CanBeWorded then fault.ownFamily else .numeral

/-- What is said about a fault. -/
def message (fault : Fault) : String :=
  if fault.CanBeWorded then fault.wording else Text.unwritableMessage

end Fault

/-- An integer as a number, refused outside the range of the numbers. -/
def Signed64.check (n : Int) : Except Fault Int :=
  if InRange n then .ok n else .error (.integerOutOfRange n)

end PlusLisp
