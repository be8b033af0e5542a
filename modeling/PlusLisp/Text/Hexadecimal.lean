/-!
Hexadecimal numbers of a fixed width.
-/

namespace PlusLisp.Text

/-- The hexadecimal digits of a number, in lower case and filled up with zeros to the given
width. -/
def hexDigits (width n : Nat) : List Char := (Nat.toDigits 16 n).leftpad width '0'

end PlusLisp.Text
