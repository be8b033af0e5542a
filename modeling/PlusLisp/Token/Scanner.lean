import PlusLisp.Fault
import PlusLisp.Journal
import PlusLisp.Text.Blank
import PlusLisp.Token

/-!
Scanning: from program text to tokens, one character after the other.

A text falls into segments. Blanks and comments yield nothing; a comment starts with a semicolon
and takes the rest of its line. Each parenthesis is a token. A run of digits is a number, and
what follows it starts anew. Anything else starts a word, which goes on until a blank or a
parenthesis, so that digits and semicolons inside it belong to it.
-/

namespace PlusLisp.Token

/-! ### Characters -/

/-- Put spaces around every parenthesis. -/
def isolateParens (text : List Char) : List Char :=
  text.flatMap fun c => if c = '(' ∨ c = ')' then [' ', c, ' '] else [c]

/-- Holds of the characters that end a word: blanks and parentheses. -/
def isDelimiter (c : Char) : Bool := Text.isBlank c || c = '(' || c = ')'

/-! ### Literals -/

/-- The most digits, leading zeros apart, that a number can have. -/
def longestLiteral : Nat := 19

/-- The number that a run of digits stands for. The count of digits settles the longest runs
without working out their values. -/
def literal (digits : List Char) : Except Fault Token :=
  let significant := digits.dropWhile (· = '0')
  if longestLiteral < significant.length ∨
      Signed64.highest < Nat.ofDigitChars 10 significant 0 then
    .error (.literalOutOfRange (String.ofList digits))
  else
    .ok (.number (Nat.ofDigitChars 10 significant 0))

/-! ### The scanner -/

/-- The segment at hand, with its characters, newest first, where they matter. -/
inductive Segment where
  | gap
  | comment
  | digits (reversed : List Char)
  | word (reversed : List Char)

/-- How far a scan has come: the segment at hand and the tokens before it, newest first. -/
structure Scanner where
  segment : Segment
  tokens : List Token

namespace Scanner

/-- The scanner before any character. -/
def initial : Scanner := ⟨.gap, []⟩

/-- Start a segment with a character, after the given tokens. -/
def start (tokens : List Token) (c : Char) : Scanner :=
  if Text.isBlank c then ⟨.gap, tokens⟩
  else if c = '(' then ⟨.gap, .opening none :: tokens⟩
  else if c = ')' then ⟨.gap, .closing none :: tokens⟩
  else if c = ';' then ⟨.comment, tokens⟩
  else if c.isDigit then ⟨.digits [c], tokens⟩
  else ⟨.word [c], tokens⟩

/-- The tokens, newest first, once the segment at hand is complete. -/
def complete (s : Scanner) : Except Fault (List Token) :=
  match s.segment with
  | .gap | .comment => .ok s.tokens
  | .digits reversed => (literal reversed.reverse).map (· :: s.tokens)
  | .word reversed => .ok (.word (some (String.ofList reversed.reverse)) :: s.tokens)

/-- Take in one character: it belongs to the segment at hand, or completes it and starts the
next. A line feed still belongs to the comment that it ends. -/
def feed (s : Scanner) (c : Char) : Except Fault Scanner :=
  match s.segment with
  | .gap => .ok (start s.tokens c)
  | .comment => .ok (if c = '\n' then ⟨.gap, s.tokens⟩ else s)
  | .digits reversed =>
    if c.isDigit then .ok ⟨.digits (c :: reversed), s.tokens⟩
    else s.complete.map (start · c)
  | .word reversed =>
    if isDelimiter c then s.complete.map (start · c)
    else .ok ⟨.word (c :: reversed), s.tokens⟩

end Scanner

/-- The tokens of a text. -/
def scan (text : List Char) : Except Fault (List Token) := do
  let scanner ← text.foldlM Scanner.feed .initial
  let tokens ← scanner.complete
  return tokens.reverse

/-! ### Scans with their journal -/

/-- A scan: its tokens or the fault that stopped it, and what it reports. -/
structure Scan where
  outcome : Except Fault (List Token)
  log : List Event

/-- Scan a text as it is. A scan that fails reports nothing. -/
def Scan.ofText (text : List Char) : Scan :=
  match scan text with
  | .ok tokens => ⟨.ok tokens, [.scanned tokens.length text.length]⟩
  | .error fault => ⟨.error fault, []⟩

/-- Scan the text of a program, with its parentheses set apart first. -/
def Scan.ofProgram (text : String) : Scan := Scan.ofText (isolateParens text.toList)

end PlusLisp.Token
