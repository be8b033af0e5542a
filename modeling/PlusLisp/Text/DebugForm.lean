import PlusLisp.Text.Quoted

/-!
The debug forms that tokens and trees share: numbers, words, and sequences in brackets.
-/

namespace PlusLisp.Text

/-- The debug form of a number. It is meant for integers that can be written (`Text.IsWritable`), as
all in the range of the numbers can, and does not refuse longer ones. -/
def numberForm (n : Int) : String := "Number(" ++ toString n ++ ")"

/-- The debug form of a word, which may lack its text. -/
def wordForm (printable : Char → Bool) (text : Option String) : String :=
  "Word(" ++ (text.map (quote printable)).getD "None" ++ ")"

/-- The debug form of a sequence, given those of its members. -/
def sequenceForm (members : List String) : String :=
  "[" ++ ", ".intercalate members ++ "]"

end PlusLisp.Text
