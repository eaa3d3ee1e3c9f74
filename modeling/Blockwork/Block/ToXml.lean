import Blockwork.Block.Basic
import Blockwork.Json.Printer
import Blockwork.Text.Digit
import Blockwork.Xml.Basic

/-! # Blocks to XML

* `Block.toXml` writes a block with all blocks in its slots. Attributes stand in ascending order.
* `Block.documentToXml` writes a workspace.
-/

namespace Blockwork.Block

set_option autoImplicit false

def attr? (name : String) (content : Option String) : List (String × String) :=
  match content with
  | some value => [(name, value)]
  | none => []

def textChild (text : String) : List Xml :=
  if text.isEmpty then [] else [.text text]

def attributesToXml (tag : String) (a : Attributes) : Dict String :=
  attr? "collapsed" (if a.collapsed then some "true" else none)
  ++ attr? "deletable" (a.deletable.map Json.boolText)
  ++ attr? "disabled" (if a.disabled then some "true" else none)
  ++ [("id", a.id)]
  ++ attr? "inline" (a.inline.map Json.boolText)
  ++ attr? "movable" (a.movable.map Json.boolText)
  ++ [("type", tag)]
  ++ attr? "x" (a.position.map fun p => Text.intText p.x.toInt)
  ++ attr? "y" (a.position.map fun p => Text.intText p.y.toInt)

def mutationToXml : Option Mutation → List Xml
  | some (a :: rest) => [.element "mutation" (a :: rest) []]
  | _ => []

def commentToXml : Option Comment → List Xml
  | none => []
  | some c => [.element "comment"
      (attr? "h" (c.height.map fun n => Text.natText n.toNat)
        ++ [("pinned", Json.boolText c.pinned)]
        ++ attr? "w" (c.width.map fun n => Text.natText n.toNat))
      (textChild c.text)]

def fieldsToXml (fields : Dict String) : List Xml :=
  fields.map fun (name, value) => .element "field" [("name", name)] (textChild value)

mutual

def toXml : Block → Xml
  | { tag, attrs, fields, values, statements, next } =>
    .element "block" (attributesToXml tag attrs) (
      mutationToXml attrs.mutation
      ++ commentToXml attrs.comment
      ++ fieldsToXml fields
      ++ slotsToXml "value" values
      ++ slotsToXml "statement" statements
      ++ nextToXml next)

def slotsToXml (kind : String) : List (String × Block) → List Xml
  | [] => []
  | (name, b) :: rest => .element kind [("name", name)] [toXml b] :: slotsToXml kind rest

def nextToXml : Option Block → List Xml
  | none => []
  | some b => [.element "next" [] [toXml b]]

end

def documentToXml (blocks : List Block) : Xml :=
  .element "xml" [] (blocks.map toXml)

end Blockwork.Block
