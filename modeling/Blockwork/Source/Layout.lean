import Blockwork.Block.Basic
import Blockwork.Text.Blank
import Blockwork.Text.Lines

/-! # Layout of source texts

* `Line` is a line at a depth of nesting.
* `Line.render` writes lines, with a number of blanks for each level.
* `Line.remarks` are the lines of a comment.
-/

namespace Blockwork

set_option autoImplicit false

structure Line where
  depth : Nat
  text : String
deriving DecidableEq

namespace Line

def renderOne (unit : Nat) (l : Line) : String :=
  String.ofList (List.replicate (unit * l.depth) ' ') ++ l.text ++ "\n"

def render (unit : Nat) (lines : List Line) : String :=
  String.join (lines.map (renderOne unit))

/-- The lines of a comment, each behind a mark. A comment of blanks has none. -/
def remarks (mark : String) (depth : Nat) : Option Comment → List Line
  | none => []
  | some c =>
    if (Text.strip c.text.toList).isEmpty then []
    else (Text.lines c.text).map fun text =>
      { depth, text := mark ++ " " ++ String.ofList (Text.dropBlankEnd text.toList) }

end Line

end Blockwork
