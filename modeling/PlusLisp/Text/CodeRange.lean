/-!
Ranges of code points, the form in which the character tables are written.
-/

namespace PlusLisp.Text

/-- The code points from `first` to `last`, both included. -/
structure CodeRange where
  first : Nat
  last : Nat
  deriving DecidableEq, Repr

/-- Whether a code point lies in one of the ranges, which stand in increasing order: the first
range that does not end before the code point decides. -/
def CodeRange.covers : List CodeRange → Nat → Bool
  | [], _ => false
  | range :: rest, n => if n ≤ range.last then range.first ≤ n else covers rest n

end PlusLisp.Text
