import Blockwork.Block.OfJson
import Blockwork.Block.OfXml
import Blockwork.Block.ToJson
import Blockwork.Block.ToXml
import Blockwork.Json.Parser
import Blockwork.Json.Printer
import Blockwork.Xml.Reader
import Blockwork.Xml.Writer

/-! # Documents

* `Document.read` reads the blocks of a text in a format.
* `Document.write` writes blocks in a format.
-/

namespace Blockwork.Document

set_option autoImplicit false

def read (format : Format) (text : String) : Except Error (List Block) :=
  match format with
  | .json =>
    match Json.parse? text with
    | some v => Block.ofJson v
    | none => .error (.document .json .illFormed)
  | .xml =>
    match Xml.parse? text with
    | some x => Block.ofXml x
    | none => .error (.document .xml .illFormed)

def write (format : Format) (blocks : List Block) : String :=
  match format with
  | .json => (Block.documentToJson blocks).pretty
  | .xml => (Block.documentToXml blocks).render

end Blockwork.Document
