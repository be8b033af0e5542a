import PlusLisp.Main
import PlusLisp.Proofs.Evaluation.Course
import PlusLisp.Workbench
import PlusLisp.Proofs.Evaluation.Transparency
import PlusLisp.Proofs.Tree.Preorder
import PlusLisp.Proofs.Evaluation.Causes
import PlusLisp.Proofs.Audit.Soundness
import PlusLisp.Proofs.Token.Lexeme
import PlusLisp.Proofs.Token.Lexing
import PlusLisp.Proofs.Tree.Flatten
import PlusLisp.Proofs.Program.RoundTrip
import PlusLisp.Proofs.Token.Nesting
import PlusLisp.Proofs.Token.Spacing
import PlusLisp.Proofs.Tree.Reading
import PlusLisp.Proofs.Audit.Balance
import PlusLisp.Proofs.Evaluation.FirstFailure
import PlusLisp.Proofs.Evaluation.Values
import PlusLisp.Proofs.Program.Runs
import PlusLisp.Proofs.Program.Output
import PlusLisp.Proofs.Program.Composition
import PlusLisp.Proofs.Text.Line
import PlusLisp.Proofs.Text.Utf8
import PlusLisp.Proofs.Program.Faults
import PlusLisp.Proofs.CommandLine.Strict
import PlusLisp.Proofs.CommandLine.Agreement
import PlusLisp.Proofs.Evaluation.DeadCode
import PlusLisp.Proofs.Evaluation.Reuse
import PlusLisp.Proofs.Text.Delimited
import PlusLisp.Proofs.Text.Quoting
import PlusLisp.Proofs.Tree.DebugText
import PlusLisp.Proofs.Tree.Descent
import PlusLisp.Proofs.Evaluation.Keeps
import PlusLisp.Proofs.Evaluation.Shape
import PlusLisp.Proofs.Settings.InForce
import PlusLisp.Proofs.CommandLine.Accepted
import PlusLisp.Proofs.CommandLine.Journal
import PlusLisp.Proofs.Text.Numeral
import PlusLisp.Proofs.Program.Size
import PlusLisp.Proofs.CommandLine.Endings
import PlusLisp.Proofs.Program.Sums
import PlusLisp.Proofs.Evaluation.Entries
import PlusLisp.Proofs.Program.Literals
import PlusLisp.Proofs.Tree.Refusal
import PlusLisp.Proofs.Token.Levels
import PlusLisp.Proofs.Tree.Derivation
import PlusLisp.Proofs.Audit.Extent
import PlusLisp.Proofs.Token.Balanced
import PlusLisp.Proofs.Audit.Repair
import PlusLisp.Proofs.Audit.Arity
import PlusLisp.Proofs.Tree.Positions
import PlusLisp.Proofs.CommandLine.Groups
import PlusLisp.Proofs.Program.Log
