import Blockwork.Block.Basic
import Blockwork.Block.Fresh
import Blockwork.Error
import Blockwork.Number.Decimal
import Blockwork.Text.Ascii
import Blockwork.Text.Blank
import Blockwork.Text.Whole
import Blockwork.Xml.Basic

/-! # Blocks from XML

A workspace is an element `xml` or `block_set` with elements of blocks inside it, perhaps inside
elements `instance` and further elements `block_set`. A `shadow` is a block that stands in a slot as
long as no other block does.
-/

namespace Blockwork.Block

set_option autoImplicit false

/-! ## Parts of one block -/

def isBlock (x : Xml) : Bool :=
  x.isNamed "block" || x.isNamed "shadow"

def flag? (x : Xml) (name : String) : Option Bool :=
  (x.attr? name).map fun value => Text.sameLetters (Text.trim value) "true"

def coordinateText? (s : String) : Option Int64 :=
  let s := Text.trim s
  match Text.readInt64? s with
  | some n => some n
  | none => (Binary64.read? s).map Binary64.toInt64

def xmlPosition? (x : Xml) : Option Position := do
  let px ← (x.attr? "x").bind coordinateText?
  let py ← (x.attr? "y").bind coordinateText?
  return { x := px, y := py }

def sizeText? (s : String) : Option UInt32 :=
  Text.readUInt32? (Text.trim s)

def commentOfXml (x : Xml) : Comment :=
  { text := x.content
    pinned := (flag? x "pinned").getD false
    width := (x.attr? "w").bind sizeText?
    height := (x.attr? "h").bind sizeText? }

def attributesOfXml (x : Xml) (id : String) : Attributes :=
  { id
    position := xmlPosition? x
    disabled := (flag? x "disabled").getD false
    collapsed := (flag? x "collapsed").getD false
    inline := flag? x "inline"
    deletable := flag? x "deletable"
    movable := flag? x "movable" }

/-- The block with a mutation; an empty one changes nothing. -/
def withXmlMutation (b : Block) (attributes : Dict String) : Block :=
  if attributes.isEmpty then b
  else { b with attrs := { b.attrs with mutation := some attributes } }

/-! ## Identifiers -/

mutual

def explicitXmlIds : Xml → List String
  | .text _ => []
  | .element name attributes children =>
    (if name = "block" ∨ name = "shadow" then (Dict.get? "id" attributes).toList else [])
      ++ explicitXmlIdsIn children

def explicitXmlIdsIn : List Xml → List String
  | [] => []
  | x :: rest => explicitXmlIds x ++ explicitXmlIdsIn rest

end

/-- What is known while blocks are read: the identifiers that are taken, those of the blocks read so
far, and the count of identifiers made. -/
structure XmlProgress where
  taken : List String
  seen : List String
  count : Nat

abbrev XmlReading := StateT XmlProgress (Except Error)

def xmlId (x : Xml) : XmlReading String :=
  match x.attr? "id" with
  | some id => pure id
  | none => do
    let p ← get
    let n := fresh p.count p.taken
    set { p with count := n, taken := generatedId n :: p.taken }
    return generatedId n

def seeXml (id : String) : XmlReading Unit := do
  let p ← get
  if p.seen.contains id then throw (.malformed id .duplicateId)
  set { p with seen := id :: p.seen }

/-! ## Reading -/

/-- The kind of element that fills a slot: a block, or a shadow if no block is there. -/
def fillerKind (children : List Xml) : String :=
  if children.any (·.isNamed "block") then "block" else "shadow"

mutual

def readBlock : Xml → XmlReading Block
  | .text _ => throw (.malformed "" .noTag)
  | .element name attributes children => do
    let x := Xml.element name attributes children
    let id ← xmlId x
    seeXml id
    match x.attr? "type" with
    | none => throw (.malformed id .noTag)
    | some tag => readParts { tag, attrs := attributesOfXml x id } children
termination_by structural x => x

def readFirst (kind : String) : List Xml → XmlReading (Option Block)
  | [] => pure none
  | x :: rest =>
    if x.isNamed kind then do
      let b ← readBlock x
      return some b
    else readFirst kind rest
termination_by structural children => children

/-- Reads the elements inside the element of a block, in their order; a later one replaces an earlier
one of the same name. -/
def readParts (b : Block) : List Xml → XmlReading Block
  | [] => pure b
  | .text _ :: rest => readParts b rest
  | .element kind attributes parts :: rest => do
    let filler := readFirst (fillerKind parts) parts
    let b ← match kind, Dict.get? "name" attributes with
      | "mutation", _ => pure (withXmlMutation b attributes)
      | "field", some name => pure (b.withField name (Xml.element kind attributes parts).content)
      | "value", some name => do
        match ← filler with
        | some child => pure (b.withValue name child)
        | none => pure b
      | "statement", some name => do
        match ← filler with
        | some child => pure (b.withStatement name child)
        | none => pure b
      | "next", _ => do
        let next ← filler
        pure { b with next }
      | "comment", _ =>
        let comment := commentOfXml (Xml.element kind attributes parts)
        pure { b with attrs := { b.attrs with comment := some comment } }
      | "field", none => throw (.malformed b.id (.unnamedInput kind))
      | "value", none => throw (.malformed b.id (.unnamedInput kind))
      | "statement", none => throw (.malformed b.id (.unnamedInput kind))
      | _, _ => pure b
    readParts b rest
termination_by structural children => children

end

def placedAt (at? : Option Position) (b : Block) : Block :=
  match b.attrs.position with
  | some _ => b
  | none => { b with attrs := { b.attrs with position := at? } }

/-- Reads the elements of blocks among nodes; `at?` is the position of those without one. -/
def readInstance (at? : Option Position) : List Xml → XmlReading (List Block)
  | [] => pure []
  | x :: rest =>
    if isBlock x then do
      let b ← readBlock x
      let others ← readInstance at? rest
      return placedAt at? b :: others
    else readInstance at? rest

mutual

def readNode : Xml → XmlReading (List Block)
  | .text _ => pure []
  | .element name attributes children =>
    let x := Xml.element name attributes children
    if isBlock x then do
      let b ← readBlock x
      return [b]
    else if name = "instance" then readInstance (xmlPosition? x) children
    else if name = "block_set" then readWorkspace children
    else pure []
termination_by structural x => x

def readWorkspace : List Xml → XmlReading (List Block)
  | [] => pure []
  | x :: rest => do
    let blocks ← readNode x
    let others ← readWorkspace rest
    return blocks ++ others
termination_by structural nodes => nodes

end

def ofXml (root : Xml) : Except Error (List Block) :=
  if root.isNamed "xml" || root.isNamed "block_set" then
    (readWorkspace root.children).run' { taken := explicitXmlIds root, seen := [], count := 0 }
  else .error (.document .xml (.unexpectedRoot (root.name?.getD "")))

end Blockwork.Block
