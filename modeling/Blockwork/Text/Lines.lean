/-! # Lines of a text

* `Text.lines` cuts a text at its line feeds. A carriage return before a line feed belongs to the
  end of the line, and a line feed at the end of the text starts no further line.
-/

namespace Blockwork.Text

set_option autoImplicit false

def splitAt (sep : Char) : List Char → List (List Char)
  | [] => [[]]
  | c :: cs =>
    if c = sep then [] :: splitAt sep cs
    else match splitAt sep cs with
      | [] => [[c]]
      | piece :: pieces => (c :: piece) :: pieces

def dropReturn (cs : List Char) : List Char :=
  if cs.getLast? = some '\r' then cs.dropLast else cs

/-- The lines among pieces that were cut at line feeds: the last piece is a line only when it is
not empty, and keeps a carriage return at its end. -/
def linesOfPieces : List (List Char) → List (List Char)
  | [] => []
  | [last] => if last.isEmpty then [] else [last]
  | piece :: pieces => dropReturn piece :: linesOfPieces pieces

def lines (s : String) : List String :=
  (linesOfPieces (splitAt '\n' s.toList)).map String.ofList

end Blockwork.Text
