import PlusLisp.Evaluator
import PlusLisp.Token.Scanner
import PlusLisp.Tree.Reader

/-!
Programs as text: scanned, read and run in one go.
-/

namespace PlusLisp.Program

/-- The tree of a program text, or the fault that keeps it from being read. -/
def tree (text : String) : Except Fault Tree := do
  let tokens ← (Token.Scan.ofProgram text).outcome
  (Tree.read tokens).outcome

/-- Run a tree with a fresh evaluator. -/
def runTree (limits : Limits) (tree : Tree) : Evaluation :=
  Evaluator.runProgram ⟨limits, 0⟩ tree

/-- Run a program text with a fresh evaluator. What scanning and reading report comes first. -/
def run (limits : Limits) (text : String) : Evaluation :=
  let scan := Token.Scan.ofProgram text
  match scan.outcome with
  | .error fault => ⟨.error fault, 0, scan.log⟩
  | .ok tokens =>
    let reading := Tree.read tokens
    match reading.outcome with
    | .error fault => ⟨.error fault, 0, scan.log ++ reading.log⟩
    | .ok tree =>
      let evaluation := runTree limits tree
      { evaluation with log := scan.log ++ reading.log ++ evaluation.log }

end PlusLisp.Program
