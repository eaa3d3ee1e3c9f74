import Blockwork.Dict

/-! # XML trees

* `Xml` is an element with attributes and children, or a text. Names are local names, and attributes
  form a dictionary.
* `Xml.attr?`, `Xml.content` and the like look into an element.
-/

namespace Blockwork

set_option autoImplicit false

inductive Xml where
  | element (name : String) (attributes : List (String × String)) (children : List Xml)
  | text (chars : String)

namespace Xml

def name? : Xml → Option String
  | .element name _ _ => some name
  | .text _ => none

def attributes : Xml → Dict String
  | .element _ attributes _ => attributes
  | .text _ => []

def children : Xml → List Xml
  | .element _ _ children => children
  | .text _ => []

def attr? (x : Xml) (name : String) : Option String :=
  Dict.get? name x.attributes

def isNamed (x : Xml) (name : String) : Bool :=
  x.name? == some name

def chars : Xml → String
  | .element .. => ""
  | .text chars => chars

def content (x : Xml) : String :=
  String.join (x.children.map chars)

end Xml

end Blockwork
