import PlusLisp.Journal
import PlusLisp.Token
import PlusLisp.Tree

/-!
Reading: from tokens to one tree, the list of the forms of a program.

Parentheses need not match. A closing parenthesis without partner ends the reading there and
leaves the tokens after it; lists still open at the end are closed. Both are only reported.
-/

namespace PlusLisp

/-- What a reading ends with: the tree or the fault that stopped it, the tokens that it did not
consume, and what it reports. -/
structure Reading where
  outcome : Except Fault Tree
  rest : List Token
  log : List Event

namespace Tree

/-- Close lists: the innermost open list and those around it, each with its trees newest first,
become the trees of the outermost one. -/
def closeAll : List Tree → List (List Tree) → List Tree
  | current, [] => current.reverse
  | current, outer :: around => closeAll (list current.reverse :: outer) around

/-- Close the lists that are open and report the tree. `log` is what has been reported before. -/
def finishReading (current : List Tree) (around : List (List Tree)) (rest : List Token)
    (log : List Event) : Reading :=
  let forms := closeAll current around
  ⟨.ok (list forms), rest, log ++ [.read forms.length]⟩

/-- Read tokens into the innermost open list, given its trees and those of the lists around it,
newest first. -/
def readInto : List Token → List Tree → List (List Tree) → Reading
  | [], current, [] => finishReading current [] [] []
  | [], current, around => finishReading current around [] [.unclosed around.length]
  | token :: tokens, current, around =>
    match token with
    | .opening _ => readInto tokens [] (current :: around)
    | .closing _ =>
      match around with
      | [] => finishReading current [] tokens [.unmatchedClosing tokens.length]
      | outer :: around => readInto tokens (list current.reverse :: outer) around
    | .number value =>
      if Signed64.InRange value then readInto tokens (number value :: current) around
      else ⟨.error (.integerOutOfRange value), tokens, []⟩
    | .word text => readInto tokens (word text :: current) around
    | .unknown kind _ => ⟨.error (.unknownToken kind), tokens, []⟩

/-- Read tokens into a tree. -/
def read (tokens : List Token) : Reading := readInto tokens [] []

end Tree

/-- Where tokens come from: a queue, from which a reading takes them, or a fixed sequence, which
it leaves alone. -/
inductive Supply where
  | queue (tokens : List Token)
  | fixed (tokens : List Token)
  deriving DecidableEq, Repr

namespace Supply

/-- The tokens of a supply. -/
def tokens : Supply → List Token
  | queue tokens | fixed tokens => tokens

/-- The reading of a supply. -/
def read (supply : Supply) : Reading := Tree.read supply.tokens

/-- The supply once it has been read. -/
def afterReading : Supply → Supply
  | queue tokens => queue (Tree.read tokens).rest
  | fixed tokens => fixed tokens

end Supply

end PlusLisp
