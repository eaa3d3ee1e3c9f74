import Blockwork.Format
import Blockwork.Program.Defect

/-! # Errors

* `Error` is why a document or a workspace was refused.
* `Error.blockId?` is the block that is at fault.
* `Error.message` says it in words.
-/

namespace Blockwork

set_option autoImplicit false

inductive GraphFault where
  | duplicateId
  | onlyInCycle
  | unknownReference (id : String)
  /-- A block contains a reference to itself or to a block around it. -/
  | cycle
  | shared
  | badSlot
  | noTag
  | unnamedInput (element : String)
  | valueWithNext
  | floatingValue (tag : String)
  | valueAsStatement (tag : String)
  | statementAsValue (tag : String)
  | unexpectedInput (slot : String)
deriving DecidableEq

def GraphFault.message : GraphFault → String
  | duplicateId => "duplicate block id"
  | onlyInCycle => "block is only reachable through a cycle"
  | unknownReference id => "references unknown block '" ++ id ++ "'"
  | cycle => "block references form a cycle"
  | shared => "block is referenced more than once"
  | badSlot => "slot must hold a block object or a block id"
  | noTag => "block has no 'type'"
  | unnamedInput element => "<" ++ element ++ "> without a name"
  | valueWithNext => "a value block cannot have a next block"
  | floatingValue tag => "value block '" ++ tag ++ "' is not connected to anything"
  | valueAsStatement tag => "value block '" ++ tag ++ "' used as a statement"
  | statementAsValue tag => "statement block '" ++ tag ++ "' used as a value"
  | unexpectedInput slot => "unexpected input '" ++ slot ++ "'"

inductive DocumentFault where
  | illFormed
  | noBlocks
  | notAnObject
  | recordNotObject (index : Nat)
  /-- A field or an attribute holds a value with parts; `found` is its text. -/
  | notScalar (blockId part key found : String)
  | unexpectedRoot (name : String)
deriving DecidableEq

def DocumentFault.message : DocumentFault → String
  | illFormed => "<syntax>"
  | noBlocks => "missing 'blocks' array"
  | notAnObject => "expected an object with a 'blocks' array"
  | recordNotObject index => "block record " ++ Text.natText index ++ " is not an object"
  | notScalar blockId part key found =>
    "block '" ++ blockId ++ "': " ++ part ++ "." ++ key
      ++ " must be a string, number or boolean, found " ++ found
  | unexpectedRoot name => "unexpected root element <" ++ name ++ ">"

inductive Error where
  | missingSlot (slot blockId : String)
  | missingField (field blockId : String)
  | invalidField (field value blockId : String)
  | unknownTag (tag blockId : String)
  | mismatch (expected found : Ty) (blockId : String)
  | unresolved (found : Ty) (blockId : String)
  /-- The types of variables ask for each other without end. -/
  | unsettled (blockId : String)
  | malformed (blockId : String) (fault : GraphFault)
  | document (format : Format) (fault : DocumentFault)
  | defect (d : Defect)
  /-- A name of a type that cannot be cut (`Ty.Reading.broken`). -/
  | brokenTypeName (name blockId : String)
deriving DecidableEq

namespace Error

def blockId? : Error → Option String
  | missingSlot _ id | missingField _ id | invalidField _ _ id | unknownTag _ id => some id
  | mismatch _ _ id | unresolved _ id | unsettled id | malformed id _ | brokenTypeName _ id => some id
  | document .. | defect _ => none

/-- Whether the input is at fault, rather than the way a node was made. -/
def isUserError : Error → Bool
  | defect _ => false
  | _ => true

def message : Error → String
  | missingSlot slot id => "Block '" ++ id ++ "' is missing required slot '" ++ slot ++ "'."
  | missingField field id => "Block '" ++ id ++ "' is missing required field '" ++ field ++ "'."
  | invalidField field value id =>
    "Block '" ++ id ++ "' has invalid value '" ++ value ++ "' for '" ++ field ++ "'."
  | unknownTag tag id => "Unknown block type '" ++ tag ++ "' (block '" ++ id ++ "')."
  | mismatch expected found id =>
    "Type mismatch at block '" ++ id ++ "': expected " ++ expected.label ++ ", found "
      ++ found.label ++ "."
  | unresolved found id =>
    "Type mismatch at block '" ++ id ++ "': expected a resolved type, found " ++ found.label ++ "."
  | unsettled id => "Types at block '" ++ id ++ "' do not settle."
  | malformed id fault => "Malformed block graph at '" ++ id ++ "': " ++ fault.message
  | document format fault => "Invalid " ++ format.name ++ " document: " ++ fault.message
  | defect d => "Internal transformer error: " ++ d.message
  | brokenTypeName name id =>
    "Block '" ++ id ++ "' names the type '" ++ name ++ "', which cannot be cut after six bytes."

end Error

end Blockwork
