import PlusLisp.Breakdown
import PlusLisp.Candidate
import PlusLisp.Token
import PlusLisp.Tree.Walk

/-!
Audits: checks of a program that evaluate nothing. Parentheses must match, a list that starts
with the word `+` needs two operands, and a tree must not be too deep or too large. A check
answers with its findings and is passed when there are none.
-/

namespace PlusLisp

/-- The bounds on a tree: the greatest depth and the greatest number of nodes. -/
structure Bounds where
  depth : Int := 200
  nodes : Int := 100000
  deriving DecidableEq, Repr

/-- What is amiss with a program. -/
inductive Finding where
  /-- What was handed in as the tree is none. -/
  | notTree
  /-- The token at an index closes a list that was not opened. -/
  | unmatchedClosing (index : Nat)
  /-- Some lists are not closed. -/
  | unclosed (count : Nat)
  /-- A sum has too few operands. -/
  | missingOperands (given : Nat)
  /-- The tree is too deep. -/
  | tooDeep (depth : Nat) (bound : Int)
  /-- The tree has too many nodes. -/
  | tooLarge (nodes : Nat) (bound : Int)
  deriving DecidableEq, Repr

/-- The wording of a finding. -/
def Finding.message : Finding → String
  | notTree => "Tree root must be a LispNode"
  | unmatchedClosing index => "Unmatched ')' at token " ++ toString index
  | unclosed count => toString count ++ " unclosed '(' at end of input"
  | missingOperands given => "Operation '+' expects 2 arguments, got " ++ toString given
  | tooDeep depth bound =>
      "Tree depth " ++ toString depth ++ " exceeds maximum allowed depth " ++ toString bound
  | tooLarge nodes bound =>
      "Tree has " ++ toString nodes ++ " nodes, exceeds maximum allowed " ++ toString bound

namespace Audit

/-- The findings on the parentheses of the tokens from an index on, with some lists open. The
findings before, newest first, are given. -/
def balanceFrom : List Token → Nat → Nat → List Finding → List Finding
  | [], _, 0, findings => findings.reverse
  | [], _, depth + 1, findings => (Finding.unclosed (depth + 1) :: findings).reverse
  | .opening _ :: tokens, index, depth, findings =>
      balanceFrom tokens (index + 1) (depth + 1) findings
  | .closing _ :: tokens, index, 0, findings =>
      balanceFrom tokens (index + 1) 0 (.unmatchedClosing index :: findings)
  | .closing _ :: tokens, index, depth + 1, findings =>
      balanceFrom tokens (index + 1) depth findings
  | _ :: tokens, index, depth, findings => balanceFrom tokens (index + 1) depth findings

/-- The findings on the parentheses. -/
def balance (tokens : List Token) : List Finding := balanceFrom tokens 0 0 []

/-- The finding on a single node: a list that starts with the word `+` and has fewer than two
further members. -/
def shortSum? : Tree → Option Finding
  | .node (.list _) (head :: operands) =>
      if head.wordText? = some (some "+") ∧ operands.length < 2 then
        some (.missingOperands operands.length)
      else none
  | _ => none

/-- The findings on the operands of sums. -/
def arity (tree : Tree) : List Finding := tree.visits.filterMap (shortSum? ·.tree)

/-- The finding on the depth. -/
def depth (tree : Tree) (bound : Int) : List Finding :=
  let depth := tree.depth
  if bound < depth then [.tooDeep depth bound] else []

/-- The finding on the number of nodes. -/
def nodes (tree : Tree) (bound : Int) : List Finding :=
  let nodes := tree.visits.length
  if bound < nodes then [.tooLarge nodes bound] else []

/-- All findings on a tree and its tokens. -/
def program (tokens : List Token) (tree : Tree) (bounds : Bounds) : List Finding :=
  balance tokens ++ arity tree ++ depth tree bounds.depth ++ nodes tree bounds.nodes

/-- All findings on a candidate for a tree. On one that is a text there are no others; texts
further down are in the way of every check of the tree. -/
def candidate (tokens : List Token) (root : Candidate) (bounds : Bounds) :
    Except Breakdown (List Finding) :=
  match root, root.tree? with
  | .text _, _ => .ok [.notTree]
  | .node _ _, some tree => .ok (program tokens tree bounds)
  | .node _ _, none => .error .textAmongNodes

end Audit

end PlusLisp
