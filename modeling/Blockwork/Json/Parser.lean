import Blockwork.Json.Token

/-! # Reading JSON texts

The tokens of a text drive a machine that holds the containers which are still open, the innermost
first. The machine holds at most `Json.maxDepth` of them.
-/

namespace Blockwork.Json

set_option autoImplicit false

def maxDepth : Nat := 127

/-- A container that is still open: items, the last one first, or members with the key whose value
is read. -/
inductive Frame where
  | array (items : List Json)
  | object (members : List (String × Json)) (key : String)

inductive Expect where
  | value
  | item
  | firstKey (members : List (String × Json))
  | key (members : List (String × Json))
  | colon (members : List (String × Json)) (key : String)
  | more
  | finish (v : Json)

/-- The open containers, the innermost first, and what is taken next. -/
structure Machine where
  stack : List Frame
  expect : Expect

namespace Machine

def start : Machine := { stack := [], expect := .value }

def put (stack : List Frame) (v : Json) : Machine :=
  match stack with
  | [] => { stack := [], expect := .finish v }
  | .array items :: rest => { stack := .array (v :: items) :: rest, expect := .more }
  | .object members key :: rest =>
    { stack := .object (Dict.insert key v members) key :: rest, expect := .more }

def value (stack : List Frame) : Token → Option Machine
  | .null => some (put stack .null)
  | .bool b => some (put stack (.bool b))
  | .number n => some (put stack (.number n))
  | .text s => some (put stack (.text s))
  | .beginArray =>
    if stack.length < maxDepth then some { stack := .array [] :: stack, expect := .item } else none
  | .beginObject =>
    if stack.length < maxDepth then some { stack := .object [] "" :: stack, expect := .firstKey [] }
    else none
  | _ => none

def more : List Frame → Token → Option Machine
  | .array items :: rest, .comma => some { stack := .array items :: rest, expect := .value }
  | .array items :: rest, .endArray => some (put rest (.array items.reverse))
  | .object members key :: rest, .comma =>
    some { stack := .object members key :: rest, expect := .key members }
  | .object members _ :: rest, .endObject => some (put rest (.object members))
  | _, _ => none

def step (m : Machine) (t : Token) : Option Machine :=
  match m.expect, t with
  | .value, t => value m.stack t
  | .item, .endArray => more m.stack .endArray
  | .item, t => value m.stack t
  | .firstKey _, .endObject => more m.stack .endObject
  | .firstKey members, .text key => some { m with expect := .colon members key }
  | .key members, .text key => some { m with expect := .colon members key }
  | .colon members key, .colon =>
    match m.stack with
    | .object _ _ :: rest => some { stack := .object members key :: rest, expect := .value }
    | _ => none
  | .more, t => more m.stack t
  | _, _ => none

def result? (m : Machine) : Option Json :=
  match m.expect with
  | .finish v => some v
  | _ => none

end Machine

def ofTokens? (tokens : List Token) : Option Json :=
  (tokens.foldlM Machine.step Machine.start).bind Machine.result?

def parse? (s : String) : Option Json :=
  (Token.scan s.toList).bind ofTokens?

end Blockwork.Json
