import PlusLisp.Text.Blank
import PlusLisp.Text.DecimalDigit
import PlusLisp.Text.Quoted

/-!
Integers as a person writes them: spaces around, an optional sign, digits of any script, and
single underscores between digits. An integer of too many digits is neither read nor written.
-/

namespace PlusLisp.Text

/-- The most digits a numeral may have. -/
def longestNumeral : Nat := 4300

/-! ### Reading -/

/-- Why a text writes no integer. -/
inductive NumeralError where
  /-- It has another form. -/
  | malformed (text : String)
  /-- It begins with too many digits. -/
  | tooLong (digits : Nat)
  deriving DecidableEq, Repr

/-- What an error about the length of a numeral says, with a remark on the length. -/
def lengthMessage (remark : String) : String :=
  "Exceeds the limit (" ++ toString longestNumeral ++
    " digits) for integer string conversion" ++ remark ++
    "; use sys.set_int_max_str_digits() to increase the limit"

/-- The most characters of a malformed text that its error shows. -/
def longestSample : Nat := 200

/-- The wording of an error. -/
def NumeralError.message : NumeralError → String
  | malformed text =>
      "invalid literal for int() with base 10: " ++
        String.ofList ((quote isPrintable text).toList.take longestSample)
  | tooLong digits => lengthMessage (": value has " ++ toString digits ++ " digits")

/-- Holds of the characters that may stand around a numeral: the blank ones, of which the
information separators are no spaces here. -/
def isPadding (c : Char) : Bool := isBlank c && !(0x1c ≤ c.toNat && c.toNat ≤ 0x1f)

/-- A text without the padding around it. -/
def trimPadding (text : List Char) : List Char :=
  ((text.dropWhile isPadding).reverse.dropWhile isPadding).reverse

/-- Holds of the characters that numerals are made of, apart from signs. -/
def isNumeralChar (c : Char) : Bool := c = '_' || (decimalValue? c).isSome

/-- The values of the digits of an unsigned numeral, most significant first: digits with at most
one underscore between two neighbours. -/
def digitValues? : List Char → Option (List Nat)
  | [] => none
  | [c] => (decimalValue? c).map ([·])
  | c :: '_' :: d :: rest => do
    let value ← decimalValue? c
    let values ← digitValues? (d :: rest)
    return value :: values
  | c :: d :: rest => do
    let value ← decimalValue? c
    let values ← digitValues? (d :: rest)
    return value :: values

/-- The value of digits, most significant first. -/
def valueOf (digits : List Nat) : Nat := digits.foldl (fun total digit => 10 * total + digit) 0

/-- The sign at the beginning of a numeral, as a factor, and what follows it. -/
def splitSign : List Char → Int × List Char
  | '-' :: rest => (-1, rest)
  | '+' :: rest => (1, rest)
  | unsigned => (1, unsigned)

/-- Read the integer that a text writes. Whether there are too many digits is known before what
follows them is looked at. -/
def readInteger (text : String) : Except NumeralError Int :=
  let (sign, unsigned) := splitSign (trimPadding text.toList)
  let numeral := unsigned.takeWhile isNumeralChar
  match digitValues? numeral with
  | none => .error (.malformed text)
  | some values =>
    if longestNumeral < values.length then .error (.tooLong values.length)
    else if numeral.length < unsigned.length then .error (.malformed text)
    else .ok (sign * (valueOf values : Int))

/-! ### Writing -/

/-- Holds of the integers that can be written: those with few enough digits. -/
def IsWritable (n : Int) : Prop := n.natAbs < Nat.pow 10 longestNumeral

instance (n : Int) : Decidable (IsWritable n) := by unfold IsWritable; infer_instance

/-- Integers of ordinary size, at most twenty digits, can be written. -/
theorem isWritable_of_natAbs_lt {n : Int} (h : n.natAbs < 100000000000000000000) :
    IsWritable n := by
  have below (digits : Nat) (many : 20 ≤ digits) : n.natAbs < Nat.pow 10 digits :=
    Nat.lt_of_lt_of_le h (Nat.pow_le_pow_right (n := 10) (by decide) many)
  exact below longestNumeral (by decide)

/-- What is said in the place of an integer that cannot be written. -/
def unwritableMessage : String := lengthMessage ""

end PlusLisp.Text
