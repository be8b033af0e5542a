import PlusLisp.SourceFile

/-!
A folder of files, in which the command looks for its program. Paths are followed name by name.
What lies outside the folder is out of sight: only that it consists of folders is known.
-/

namespace PlusLisp.CommandLine

/-- The files of a folder, each with its name and its bytes. -/
structure Folder where
  files : List (String × List UInt8)

namespace Folder

/-- The most bytes that a name may have. -/
def longestName : Nat := 255

/-- The most bytes that a path may have. -/
def longestPath : Nat := 4095

/-- The most bytes that a file may have: sizes are signed and have 64 bits. -/
def largestFile : Nat := 0x7fffffffffffffff

/-- Where a path has led so far. -/
inductive Place where
  /-- The folder itself. -/
  | here
  /-- A folder around it. -/
  | outside
  /-- A file of the folder. -/
  | file (bytes : List UInt8)

/-- Follow one name of a path. -/
def follow (folder : Folder) (place : Place) (name : String) :
    Except SourceFile.Failure Place :=
  match place with
  | .file _ => .error .notFolder
  | .outside =>
    if name = "" ∨ name = "." ∨ name = ".." then .ok .outside
    else if longestName < name.utf8ByteSize then .error .nameTooLong
    else .error .missing
  | .here =>
    if name = "" ∨ name = "." then .ok .here
    else if name = ".." then .ok .outside
    else if longestName < name.utf8ByteSize then .error .nameTooLong
    else
      match folder.files.lookup name with
      | some bytes => .ok (.file bytes)
      | none => .error .missing

/-- The names of a path, from first to last; two slashes have an empty name between them. -/
def names (path : List Char) : List String :=
  (path.splitOn '/').map String.ofList

/-- The bytes of the file at a path. -/
def bytes (folder : Folder) (path : String) : Except SourceFile.Failure (List UInt8) :=
  if path = "" then .error .missing
  else if longestPath < path.utf8ByteSize then .error .nameTooLong
  else
    let start := if path.toList.head? = some '/' then Place.outside else Place.here
    match (names path.toList).foldlM folder.follow start with
    | .ok (.file bytes) => if bytes.length ≤ largestFile then .ok bytes else .error .tooLarge
    | .ok _ => .error .folder
    | .error failure => .error failure

/-- The program text of the file at a path. -/
def read (folder : Folder) (path : String) : Except SourceFile.Failure String :=
  match folder.bytes path with
  | .ok bytes => SourceFile.text bytes
  | .error failure => .error failure

end Folder

end PlusLisp.CommandLine
