import PlusLisp.Text.Hexadecimal
import PlusLisp.Text.Printable

/-!
Quoted text: between quotation marks, with a backslash before what could not stand there as it
is. The mark is the apostrophe, or the double quote for a text that holds an apostrophe and no
double quote. Which characters are shown as they are is a parameter.
-/

namespace PlusLisp.Text

/-- A character by its code point, in the shortest of three forms of fixed width. -/
def escapeCode (c : Char) : List Char :=
  if c.toNat < 0x100 then '\\' :: 'x' :: hexDigits 2 c.toNat
  else if c.toNat < 0x10000 then '\\' :: 'u' :: hexDigits 4 c.toNat
  else '\\' :: 'U' :: hexDigits 8 c.toNat

/-- One character inside quotation marks. -/
def quoteChar (printable : Char → Bool) (mark c : Char) : List Char :=
  if c = '\\' ∨ c = mark then ['\\', c]
  else if c = '\t' then ['\\', 't']
  else if c = '\n' then ['\\', 'n']
  else if c = '\r' then ['\\', 'r']
  else if printable c then [c]
  else escapeCode c

/-- The quotation mark for a text. -/
def quotationMark (text : List Char) : Char :=
  if '\'' ∈ text ∧ '"' ∉ text then '"' else '\''

/-- A text between quotation marks. -/
def quote (printable : Char → Bool) (text : String) : String :=
  let mark := quotationMark text.toList
  String.ofList (mark :: text.toList.flatMap (quoteChar printable mark) ++ [mark])

end PlusLisp.Text
