/-!
Line breaks of files: a carriage return, alone or before a line feed, counts as a line feed.
-/

namespace PlusLisp.Text

/-- The text with a line feed for every line break. -/
def unifyLineBreaks : List Char → List Char
  | [] => []
  | '\r' :: '\n' :: rest => '\n' :: unifyLineBreaks rest
  | c :: rest => (if c = '\r' then '\n' else c) :: unifyLineBreaks rest

end PlusLisp.Text
