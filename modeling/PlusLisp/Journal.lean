import PlusLisp.Journal.Severity
import PlusLisp.SourceFile

/-!
The journal of a run: what happened, in order. Each event has a severity, a channel and a
wording.
-/

namespace PlusLisp

/-- What the journal reports. -/
inductive Event where
  /-- A text has been scanned. -/
  | scanned (tokens characters : Nat)
  /-- A closing parenthesis without partner ended the reading; the tokens after it are left. -/
  | unmatchedClosing (left : Nat)
  /-- The tokens ended with lists still open. -/
  | unclosed (depth : Nat)
  /-- A tree has been read. -/
  | read (forms : Nat)
  /-- A list starts with a word that names no operation. -/
  | unknownOperation (name : Option String)
  /-- A tree has been evaluated. -/
  | evaluated (steps : Nat)
  /-- A program has been run. -/
  | finished (forms steps : Nat)
  /-- A file could not be read. -/
  | unreadable (path : String) (failure : SourceFile.Failure)
  deriving DecidableEq, Repr

namespace Event

/-- The severity of an event. -/
def severity : Event → Severity
  | unmatchedClosing _ | unclosed _ => .warning
  | _ => .debug

/-- The channel on which an event is reported. -/
def channel : Event → String
  | scanned _ _ => "minilisp.lexer"
  | unmatchedClosing _ | unclosed _ | read _ => "minilisp.parser"
  | unknownOperation _ | evaluated _ | finished _ _ => "minilisp.interpreter"
  | unreadable _ _ => "minilisp.cli"

/-- The wording of an event. -/
def message : Event → String
  | scanned tokens characters =>
      "Lexed " ++ toString tokens ++ " tokens from " ++ toString characters ++ " characters"
  | unmatchedClosing left =>
      "Unmatched ')' ended the program early; " ++ toString left ++ " tokens ignored"
  | unclosed depth =>
      "Unclosed '(' at nesting depth " ++ toString depth ++ ", closed at end of input"
  | read forms => "Parsed " ++ toString forms ++ " top-level forms"
  | unknownOperation name => "Unrecognized operator: " ++ name.getD "None"
  | evaluated steps => "Evaluation finished in " ++ toString steps ++ " steps"
  | finished forms steps =>
      "Program of " ++ toString forms ++ " forms finished in " ++ toString steps ++ " steps"
  | unreadable path failure => "Read of " ++ path ++ " failed: " ++ failure.message path

/-- The line that reports an event. -/
def line (event : Event) : String :=
  event.channel ++ " - " ++ event.severity.name ++ " - " ++ event.message ++ "\n"

end Event

end PlusLisp
