import Blockwork.Dict
import Blockwork.Number.Binary64
import Blockwork.Text.Digit
import Blockwork.Number.Shortest

/-! # JSON values

* `Json` is the type of values. An object is a dictionary: ascending keys, each once.
* `Json.Number` keeps integers of 64 bits apart from floating point numbers.
* `Json.get?`, `Json.text?` and the like look into a value.
-/

namespace Blockwork

set_option autoImplicit false

/-- A number of a document: an integer from `-2 ^ 63` to `2 ^ 64 - 1`, or a floating point number. -/
inductive Json.Number where
  | int (n : Int)
  | float (x : Binary64)
deriving DecidableEq

inductive Json where
  | null
  | bool (b : Bool)
  | number (n : Json.Number)
  | text (s : String)
  | array (items : List Json)
  | object (members : List (String × Json))

namespace Json

def Number.text : Number → String
  | .int n => Text.intText n
  | .float x => Shortest.scientific x

def get? (key : String) : Json → Option Json
  | .object members => Dict.get? key members
  | _ => none

def text? : Json → Option String
  | .text s => some s
  | _ => none

def bool? : Json → Option Bool
  | .bool b => some b
  | _ => none

def members : Json → List (String × Json)
  | .object members => members
  | _ => []

def isNull : Json → Bool
  | .null => true
  | _ => false

def isObject : Json → Bool
  | .object _ => true
  | _ => false

def getText? (key : String) (v : Json) : Option String :=
  (v.get? key).bind text?

def getBool? (key : String) (v : Json) : Option Bool :=
  (v.get? key).bind bool?

end Json

end Blockwork
