import PlusLisp.Evaluation

/-!
Evaluators: limits together with a count of steps that lasts from one evaluation to the next.
An evaluator evaluates trees as they are, and runs programs, whose outermost list is always a
sequence, whatever its first member.
-/

namespace PlusLisp

/-- What an evaluation ends with: the value or the fault that stopped it, the count of steps,
and what it reports. -/
structure Evaluation where
  outcome : Except Fault Tree
  steps : Nat
  log : List Event

/-- The end of an evaluation, given what came of it. -/
def Evaluation.ofOutcome (result : Outcome Tree) : Evaluation :=
  ⟨result.1, result.2.steps, result.2.log.reverse⟩

/-- An evaluator. -/
structure Evaluator where
  limits : Limits
  steps : Nat := 0
  deriving DecidableEq, Repr

namespace Evaluator

/-- Evaluate a tree of any height at a depth. A host with a bound on nested calls makes room for them
at depth 0 only, so that it may refuse high trees at other depths; this never does. -/
def evaluate (evaluator : Evaluator) (tree : Tree) (depth : Int) : Evaluation :=
  .ofOutcome (tree.evaluateAt evaluator.limits depth ⟨evaluator.steps, []⟩)

/-- Run the program with the given forms: one step for the program, and the forms at depth 1. -/
def runForms (limits : Limits) (forms : List Tree) : Outcome Tree :=
  match limits.breach? 0 0 with
  | some fault => (.error fault, ⟨0, []⟩)
  | none =>
    match Tree.collected (Tree.evaluateEach limits forms 0 ⟨1, []⟩ []) with
    | (.ok value, p) => (.ok value, p.report (.finished forms.length p.steps))
    | (.error fault, p) => (.error fault, p)

/-- Run a program of any height. A tree that is no list is evaluated instead. -/
def runProgram (evaluator : Evaluator) (tree : Tree) : Evaluation :=
  match tree with
  | .node (.list _) forms => .ofOutcome (runForms evaluator.limits forms)
  | _ => evaluator.evaluate tree 0

/-- The evaluator after an evaluation. -/
def after (evaluator : Evaluator) (evaluation : Evaluation) : Evaluator :=
  { evaluator with steps := evaluation.steps }

end Evaluator

end PlusLisp
