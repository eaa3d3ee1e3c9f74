import Blockwork.Block.Basic
import Blockwork.Json.Basic

/-! # Blocks to JSON

Members of an object stand in ascending order. A member with no content is left out.
-/

namespace Blockwork.Block

set_option autoImplicit false

def member? (key : String) (content : Option Json) : List (String × Json) :=
  match content with
  | some v => [(key, v)]
  | none => []

def intToJson (n : Int) : Json :=
  .number (.int n)

def textsToJson? (d : Dict String) : Option Json :=
  if d.isEmpty then none else some (.object (d.map fun (key, text) => (key, .text text)))

def positionToJson (p : Position) : Json :=
  .object [("x", intToJson p.x.toInt), ("y", intToJson p.y.toInt)]

def commentToJson (c : Comment) : Json :=
  if !c.pinned && c.width.isNone && c.height.isNone then .text c.text
  else .object (
    member? "height" (c.height.map fun n => intToJson n.toNat)
    ++ [("pinned", .bool c.pinned), ("text", .text c.text)]
    ++ member? "width" (c.width.map fun n => intToJson n.toNat))

def markToJson? (b : Bool) : Option Json :=
  if b then some (.bool true) else none

def slotsToJson? (slots : List (String × Json)) : Option Json :=
  if slots.isEmpty then none else some (.object slots)

mutual

def toJson : Block → Json
  | { tag, attrs, fields, values, statements, next } => .object (
      member? "collapsed" (markToJson? attrs.collapsed)
      ++ member? "comment" (attrs.comment.map commentToJson)
      ++ member? "deletable" (attrs.deletable.map .bool)
      ++ member? "disabled" (markToJson? attrs.disabled)
      ++ member? "fields" (textsToJson? fields)
      ++ [("id", .text attrs.id)]
      ++ member? "inline" (attrs.inline.map .bool)
      ++ member? "movable" (attrs.movable.map .bool)
      ++ member? "mutation" (attrs.mutation.bind textsToJson?)
      ++ member? "next" (nextToJson next)
      ++ member? "position" (attrs.position.map positionToJson)
      ++ member? "statement-slots" (slotsToJson? (slotsToJson statements))
      ++ [("type", .text tag)]
      ++ member? "value-slots" (slotsToJson? (slotsToJson values)))

def slotsToJson : List (String × Block) → List (String × Json)
  | [] => []
  | (name, b) :: rest => (name, toJson b) :: slotsToJson rest

def nextToJson : Option Block → Option Json
  | none => none
  | some b => some (toJson b)

end

def documentToJson (blocks : List Block) : Json :=
  .object [("blocks", .array (blocks.map toJson))]

end Blockwork.Block
