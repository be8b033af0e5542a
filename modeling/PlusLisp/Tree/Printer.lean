import PlusLisp.Text.DebugForm
import PlusLisp.Tree

/-!
The two texts of a tree: the debug text, which shows what every node is, and the source text,
which reads as a program.
-/

namespace PlusLisp.Tree

/-- The debug text of a tree. A node of an unknown kind shows as a list. -/
def debugTextWith (printable : Char → Bool) : Tree → String
  | node label children =>
    match label with
    | .null _ => "Null"
    | .number value => Text.numberForm value
    | .word text => Text.wordForm printable text
    | .list _ | .unknown _ _ =>
        "List(" ++ Text.sequenceForm (children.map (debugTextWith printable)) ++ ")"

/-- The debug text of a tree. -/
def debugText (tree : Tree) : String := tree.debugTextWith Text.isPrintable

/-- The source text of a tree. A value that lacks its text shows as `None`. It is meant for trees of
which the numbers can be written (`Text.IsWritable`), as all in range can. -/
def sourceText : Tree → String
  | node label children =>
    match label with
    | .null _ => "Null"
    | .number value => toString value
    | .word text => text.getD "None"
    | .list _ => "(" ++ " ".intercalate (children.map sourceText) ++ ")"
    | .unknown kind value => "(UNKNOWN-" ++ kind ++ " " ++ value.getD "None" ++ ")"

/-- The source text of a program: that of its forms, one after the other. -/
def formsText (tree : Tree) : String := " ".intercalate (tree.children.map sourceText)

end PlusLisp.Tree
