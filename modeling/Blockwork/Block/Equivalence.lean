import Blockwork.Block.Basic
import Blockwork.Text.Ascii

/-! # Equivalence of blocks

A block that was written anew may say more than the block it came from: it may have further
attributes in its mutation. It says the same otherwise, positions apart.
-/

namespace Blockwork.Block

set_option autoImplicit false

def isTypeAttribute (key : String) : Bool :=
  key == "datatype" || key == "list_type"

def sameAttribute (key given rendered : String) : Bool :=
  if isTypeAttribute key then Text.sameLetters rendered given else rendered == given

/-- Whether every attribute of a mutation is found again in another one. -/
def reproduces (given rendered : Option Mutation) : Bool :=
  (given.getD []).all fun (key, value) =>
    match rendered.bind (Dict.get? key) with
    | some found => sameAttribute key value found
    | none => false

def equivalentAttributes (given rendered : Attributes) : Bool :=
  given.id == rendered.id
    && given.disabled == rendered.disabled
    && given.collapsed == rendered.collapsed
    && given.inline == rendered.inline
    && given.writtenComment == rendered.writtenComment
    && reproduces given.mutation rendered.mutation

mutual

def equivalent : Block → Block → Bool
  | { tag, attrs, fields, values, statements, next }, b =>
    tag == b.tag
      && equivalentAttributes attrs b.attrs
      && fields == b.fields
      && values.length == b.values.length
      && equivalentSlots values b.values
      && statements.length == b.statements.length
      && equivalentSlots statements b.statements
      && equivalentNext next b.next

def equivalentSlots : List (String × Block) → List (String × Block) → Bool
  | [], _ => true
  | (name, b) :: rest, slots =>
    (match Dict.get? name slots with
      | some c => equivalent b c
      | none => false)
    && equivalentSlots rest slots

def equivalentNext : Option Block → Option Block → Bool
  | none, none => true
  | some a, some b => equivalent a b
  | _, _ => false

end

end Blockwork.Block
