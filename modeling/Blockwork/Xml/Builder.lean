import Blockwork.Xml.Basic
import Blockwork.Xml.Name

/-! # Building XML trees

A builder holds the elements that are still open, the innermost first. Names lose their scope, but a
scope must be declared by an element around it. A run of text that is blank is dropped, unless it
follows right after unmarked text that is not blank. A document may have several outermost elements,
and the first one counts.
-/

namespace Blockwork.Xml

set_option autoImplicit false

/-! ## Attributes -/

def xmlScope : String := "http://www.w3.org/XML/1998/namespace"

def declarationScope : String := "http://www.w3.org/2000/xmlns/"

/-- The attributes of a start tag: those proper, with their names, and the scopes it declares. -/
structure TagAttributes where
  proper : List (QName × String)
  scopes : List String

namespace TagAttributes

def empty : TagAttributes := { proper := [], scopes := [] }

def contains (a : TagAttributes) (name : QName) : Bool :=
  (a.proper.map Prod.fst).contains name

/-- Adds an attribute. No two proper attributes have one name. A declaration cannot take away a
scope, and the scopes of the format itself stay what they are. -/
def add? (a : TagAttributes) (name : QName) (value : String) : Option TagAttributes :=
  if name.scope = some "xmlns" then
    if name.base = "xmlns" || (name.base = "xml" && value != xmlScope) || value.isEmpty then none
    else some { a with scopes := name.base :: a.scopes }
  else if name.scope = none ∧ name.base = "xmlns" then
    if value = "xmlns" || value = "xml" || value = xmlScope || value = declarationScope then none
    else some a
  else if a.contains name then none
  else some { a with proper := a.proper ++ [(name, value)] }

end TagAttributes

def isDeclared (scopes : List String) (name : QName) : Bool :=
  match name.scope with
  | none => true
  | some scope => scope == "xml" || scope == "xmlns" || scopes.contains scope

/-! ## Elements -/

/-- An element that is still open; the last child stands first. `scopes` are all scopes that are
declared inside it. -/
structure OpenElement where
  name : QName
  attributes : Dict String
  children : List Xml
  scopes : List String

/-- The open elements, the innermost first, the first outermost element that is finished, and the
run of text that is being read, in reverse. `isBlank` says that the run is dropped if it ends
here. -/
structure Builder where
  stack : List OpenElement
  root : Option Xml
  run : List Char
  isBlank : Bool

namespace Builder

def start : Builder := { stack := [], root := none, run := [], isBlank := true }

def isOutermost (b : Builder) : Bool := b.stack.isEmpty

def scopes (b : Builder) : List String :=
  match b.stack with
  | [] => []
  | e :: _ => e.scopes

def put (b : Builder) (x : Xml) : Builder :=
  match b.stack with
  | [] => { b with root := some (b.root.getD x) }
  | e :: rest => { b with stack := { e with children := x :: e.children } :: rest }

def push (b : Builder) (c : Char) : Builder :=
  { b with run := c :: b.run, isBlank := b.isBlank && isSpace c }

def endRun (b : Builder) : Builder :=
  let b' := { b with run := [], isBlank := true }
  if b.isBlank then b' else if b.run.isEmpty then b'
  else b'.put (.text (String.ofList b.run.reverse))

def openElement? (b : Builder) (name : QName) (a : TagAttributes) : Option Builder :=
  let scopes := a.scopes ++ b.scopes
  if isDeclared scopes name && a.proper.all (fun (name, _) => isDeclared scopes name) then
    let e : OpenElement :=
      { name
        attributes := Dict.ofList (a.proper.map fun (name, value) => (name.base, value))
        children := []
        scopes }
    some { b with stack := e :: b.stack }
  else none

def closeElement? (b : Builder) (name : QName) : Option Builder :=
  match b.stack with
  | [] => none
  | e :: rest =>
    if e.name = name then
      some ({ b with stack := rest }.put (.element e.name.base e.attributes e.children.reverse))
    else none

def cdata (b : Builder) (chars : List Char) : Builder :=
  { b with isBlank := b.isBlank && chars.all isSpace }.put (.text (String.ofList chars))

def result? (b : Builder) : Option Xml :=
  if b.isOutermost then b.root else none

end Builder

end Blockwork.Xml
