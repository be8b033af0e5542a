import PlusLisp.Text.DebugForm

/-!
Tokens, the units that program text is made of, and their debug text.
-/

namespace PlusLisp

/-- A token. Scanned text yields parentheses without payload, numbers that are not negative and
words with text; other sources may hand in any token. -/
inductive Token where
  | opening (payload : Option String)
  | closing (payload : Option String)
  | number (value : Int)
  | word (text : Option String)
  | unknown (kind : String) (value : Option String)
  deriving DecidableEq, Repr

namespace Token

/-- The debug text of a token; a token of an unknown kind shows as a word. -/
def debugTextWith (printable : Char → Bool) : Token → String
  | opening _ => "LParen"
  | closing _ => "RParen"
  | number value => Text.numberForm value
  | word text => Text.wordForm printable text
  | unknown _ value => Text.wordForm printable value

/-- The debug text of a token. -/
def debugText (token : Token) : String := token.debugTextWith Text.isPrintable

/-- The debug text of a sequence of tokens. -/
def debugTextsWith (printable : Char → Bool) (tokens : List Token) : String :=
  Text.sequenceForm (tokens.map (debugTextWith printable))

/-- The debug text of a sequence of tokens. -/
def debugTexts (tokens : List Token) : String := debugTextsWith Text.isPrintable tokens

end Token

end PlusLisp
