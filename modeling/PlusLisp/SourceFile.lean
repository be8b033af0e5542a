import PlusLisp.Text.LineBreak
import PlusLisp.Text.Quoted
import PlusLisp.Text.Utf8

/-!
The text of a program file, and what may keep it from being read.
-/

namespace PlusLisp

namespace SourceFile

/-- Why a file is unreadable. -/
inductive Failure where
  | missing
  | folder
  | notFolder
  | nameTooLong
  | tooLarge
  | malformed (bytes : Text.Utf8.Malformed)
  deriving DecidableEq, Repr

/-- The wording of a failure to read the file at a path. -/
def Failure.message (path : String) : Failure → String
  | missing => "[Errno 2] No such file or directory: " ++ Text.quote Text.isPrintable path
  | notFolder => "[Errno 20] Not a directory: " ++ Text.quote Text.isPrintable path
  | folder => "[Errno 21] Is a directory: " ++ Text.quote Text.isPrintable path
  | nameTooLong => "[Errno 36] File name too long: " ++ Text.quote Text.isPrintable path
  | tooLarge =>
      "[Errno 75] Value too large for defined data type: " ++ Text.quote Text.isPrintable path
  | malformed bytes => bytes.message

/-- The program text in the bytes of a file. A byte order mark is part of the text. -/
def text (bytes : List UInt8) : Except Failure String :=
  match Text.Utf8.decode bytes with
  | .ok content => .ok (String.ofList (Text.unifyLineBreaks content.toList))
  | .error malformed => .error (.malformed malformed)

end SourceFile

end PlusLisp
