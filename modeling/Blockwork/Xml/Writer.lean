import Blockwork.Xml.Basic

/-! # Writing XML trees

An element without children is closed at once. Children that are elements stand on lines of their
own, indented by two blanks a level; a text follows right after what stands before it.
-/

namespace Blockwork.Xml

set_option autoImplicit false

def textChar (c : Char) : List Char :=
  if c = '<' then "&lt;".toList
  else if c = '>' then "&gt;".toList
  else if c = '&' then "&amp;".toList
  else [c]

def valueChar (c : Char) : List Char :=
  if c = '<' then "&lt;".toList
  else if c = '>' then "&gt;".toList
  else if c = '&' then "&amp;".toList
  else if c = '\x22' then "&quot;".toList
  else if c = '\x27' then "&apos;".toList
  else if c = '\n' then "&#xA;".toList
  else if c = '\r' then "&#xD;".toList
  else [c]

def attributeText (name value : String) : String :=
  " " ++ name ++ "=\"" ++ String.ofList (value.toList.flatMap valueChar) ++ "\""

def attributesText (attributes : List (String × String)) : String :=
  String.join (attributes.map fun (name, value) => attributeText name value)

def lineStart (level : Nat) : String :=
  String.ofList ('\n' :: List.replicate (2 * level) ' ')

/-- Whether the last of the nodes is an element, whose end tag a line end follows. -/
def endsInElement : List Xml → Bool
  | [] => false
  | [.element ..] => true
  | [.text _] => false
  | _ :: rest => endsInElement rest

mutual

def renderAt (level : Nat) : Xml → String
  | .text chars => String.ofList (chars.toList.flatMap textChar)
  | .element name attributes [] => "<" ++ name ++ attributesText attributes ++ " />"
  | .element name attributes (child :: children) =>
    "<" ++ name ++ attributesText attributes ++ ">"
      ++ renderChildren (level + 1) (child :: children)
      ++ (if endsInElement (child :: children) then lineStart level else "")
      ++ "</" ++ name ++ ">"

def renderChildren (level : Nat) : List Xml → String
  | [] => ""
  | .text chars :: rest => renderAt level (.text chars) ++ renderChildren level rest
  | x :: rest => lineStart level ++ renderAt level x ++ renderChildren level rest

end

def render (x : Xml) : String :=
  renderAt 0 x

end Blockwork.Xml
