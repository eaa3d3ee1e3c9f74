import Blockwork.Text.Ascii
import Blockwork.Text.Blank

/-! # Document formats

* `Format` are the formats in which a workspace is written.
* `Format.detect` tells the format of a text by its first character.
* `Format.ofExtension?` tells it by the extension of a file name.
-/

namespace Blockwork

set_option autoImplicit false

inductive Format where
  | json
  | xml
deriving DecidableEq

namespace Format

def name : Format → String
  | json => "JSON"
  | xml => "XML"

/-- Without byte order marks and blanks at its start, an XML text starts with `<`; every other text
is taken for JSON. -/
def detect (text : String) : Format :=
  match (text.toList.dropWhile (· = '\ufeff')).dropWhile Text.isBlank with
  | '<' :: _ => xml
  | _ => json

def ofExtension? (extension : String) : Option Format :=
  if Text.sameLetters extension "json" then some json
  else if Text.sameLetters extension "xml" || Text.sameLetters extension "blockly" then some xml
  else none

end Format

end Blockwork
