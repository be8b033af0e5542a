import PlusLisp.Fault

/-!
Breakdowns: uses that nothing in the library answers for. A breakdown leaves neither a result
nor a report behind, only its wording.
-/

namespace PlusLisp

/-- What makes a piece of work break down. -/
inductive Breakdown where
  /-- The path of a file holds the character NUL, which no path can. -/
  | nulInPath
  /-- A depth is held against a limit that was left blank. -/
  | blankDepth
  /-- A number of steps is held against a limit that was left blank. -/
  | blankSteps
  /-- The severity from which on the journal is shown was left blank. -/
  | blankSeverity
  /-- A text stands among the nodes of a tree. -/
  | textAmongNodes
  /-- What stops a program is of no kind that is answered for: a token or a tree of an unknown kind,
  or a fault that cannot be worded. -/
  | unknownKind (fault : Fault)
  deriving DecidableEq, Repr

/-- The wording of a breakdown. -/
def Breakdown.message : Breakdown → String
  | nulInPath => "embedded null byte"
  | blankDepth => "'>' not supported between instances of 'int' and 'list'"
  | blankSteps => "'>=' not supported between instances of 'int' and 'list'"
  | blankSeverity => "'list' object has no attribute 'upper'"
  | textAmongNodes => "'str' object has no attribute 'node_type'"
  | unknownKind fault => fault.message

end PlusLisp
