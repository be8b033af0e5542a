import PlusLisp.Journal
import PlusLisp.Limits
import PlusLisp.Tree

/-!
Evaluation. A number evaluates to itself, and so does a tree that stands for no value; a word
has no value. A list that starts with the word `+` is a sum of its next two members. A list that
starts with any other word names no operation and has no value. Every other list evaluates to
the list of the values of its members, those without value left out.

Each node that is evaluated is one step. Depth counts from the root, which by default is at
depth 0; whenever a node at depth 0 is reached, the count of steps starts again.

Calls may be nested to any depth here. A host that bounds them makes room for the height of a tree
when an evaluation starts at depth 0, and at no other depth; neither the bound nor the room for it
is part of this.
-/

namespace PlusLisp

/-- How far an evaluation has come: the steps taken, and what has been reported, newest first. -/
structure Progress where
  steps : Nat
  log : List Event

/-- What comes of evaluating a part of a program: its value or the fault that stopped it, and
the progress made. -/
abbrev Outcome (α : Type) := Except Fault α × Progress

namespace Progress

/-- Report an event. -/
def report (p : Progress) (event : Event) : Progress := { p with log := event :: p.log }

/-- The progress as it stands before a node at the given depth is evaluated. -/
def entering (p : Progress) (depth : Int) : Progress :=
  if depth = 0 then { p with steps := 0 } else p

/-- Count one step. -/
def step (p : Progress) : Progress := { p with steps := p.steps + 1 }

end Progress

namespace Tree

/-- The sum of two values: a number if both are numbers, and no value otherwise. -/
def sum : Tree → Tree → Except Fault Tree
  | node (.number m) _, node (.number n) _ => (Signed64.check (m + n)).map number
  | _, _ => .ok null

/-- How a list is evaluated. -/
inductive Form where
  /-- As a sum. -/
  | sum
  /-- As an operation that does not exist. -/
  | unknown (name : Option String)
  /-- Member by member. -/
  | sequence
  deriving DecidableEq, Repr

/-- How a list with the given members is evaluated: its first member decides. -/
def formOf : List Tree → Form
  | head :: _ =>
    match head.wordText? with
    | some text => if text = some "+" then .sum else .unknown text
    | none => .sequence
  | [] => .sequence

/-- What comes of a list at a depth, given what came of its form: a value at depth 0 is the end
of an evaluation and is reported as such. -/
def concludeList (depth : Int) : Outcome Tree → Outcome Tree
  | (.ok value, p) => (.ok value, if depth = 0 then p.report (.evaluated p.steps) else p)
  | (.error fault, p) => (.error fault, p)

/-- The list of collected values. -/
def collected : Outcome (List Tree) → Outcome Tree
  | (.ok values, p) => (.ok (list values), p)
  | (.error fault, p) => (.error fault, p)

mutual

/-- Evaluate a tree of any height at a depth, without a bound on nested calls. -/
def evaluateAt (limits : Limits) : Tree → Int → Progress → Outcome Tree
  | node label children, depth, p =>
    let p := p.entering depth
    match limits.breach? depth p.steps with
    | some fault => (.error fault, p)
    | none =>
      let p := p.step
      match label with
      | .null _ | .number _ => (.ok (node label children), p)
      | .word _ => (.ok null, p)
      | .unknown kind _ => (.error (.unknownTree kind), p)
      | .list _ =>
        concludeList depth <|
          match formOf children with
          | .unknown name => (.ok null, p.report (.unknownOperation name))
          | .sum => evaluateSum limits children depth p
          | .sequence => collected (evaluateEach limits children depth p [])

/-- Evaluate a sum at a depth, given the operation and its operands. -/
def evaluateSum (limits : Limits) : List Tree → Int → Progress → Outcome Tree
  | _ :: left :: right :: _, depth, p =>
    match evaluateAt limits left (depth + 1) p with
    | (.error fault, p) => (.error fault, p)
    | (.ok left, p) =>
      match evaluateAt limits right (depth + 1) p with
      | (.error fault, p) => (.error fault, p)
      | (.ok right, p) => (left.sum right, p)
  | members, _, p => (.error (.missingOperands (members.length - 1)), p)

/-- Evaluate the members of a list at a depth, one after the other, and collect their values
after those collected before, which stand newest first. -/
def evaluateEach (limits : Limits) :
    List Tree → Int → Progress → List Tree → Outcome (List Tree)
  | [], _, p, values => (.ok values.reverse, p)
  | tree :: trees, depth, p, values =>
    match evaluateAt limits tree (depth + 1) p with
    | (.error fault, p) => (.error fault, p)
    | (.ok value, p) =>
        evaluateEach limits trees depth p (if value.isNull then values else value :: values)

end

end Tree

end PlusLisp
