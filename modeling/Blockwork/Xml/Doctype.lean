import Blockwork.Xml.Value

/-! # Document types

A document type is passed over, but for the entities that it declares. A parameter, whose name
starts with a percent sign, stands for more text of the document type itself or of a declared value.
-/

namespace Blockwork.Xml

set_option autoImplicit false

/-- What has been read of the declaration of an entity: its name, the quote of its value and the
value. -/
structure EntityValue where
  name : List Char
  opened : Token
  chars : List Char

def EntityValue.push (e : EntityValue) (c : Char) : EntityValue :=
  { e with chars := c :: e.chars }

/-- A place in a document type. What is read piece by piece is kept in reverse. -/
inductive Doctype where
  | outside
  | quoted (opened : Token)
  | remark
  | word (chars : List Char)
  | rest
  | beforeName
  | beforeParameter
  | name (chars : List Char)
  | beforeValue (name : List Char)
  | value (e : EntityValue)
  | reference (e : EntityValue)
  | number (e : EntityValue) (digits : List Char)
  | parameterInValue (e : EntityValue) (name : List Char)
  | parameter (name : List Char)

namespace Doctype

inductive Outcome where
  | more (d : Doctype)
  | declare (name value : List Char) (d : Doctype)
  /-- A text has to be read before all that follows. -/
  | expand (chars : List Char) (d : Doctype)
  | finish

def readOutside? : Token → Option Outcome
  | .tagClose => some .finish
  | .declarationOpen => some (.more (.word []))
  | .char c => some (.more (if c = '%' then .parameter ['%'] else .outside))
  | .remarkOpen => some (.more .remark)
  | .quote => some (.more (.quoted .quote))
  | .apostrophe => some (.more (.quoted .apostrophe))
  | .cdataOpen | .cdataClose => none
  | _ => some (.more .outside)

def ofWord? (word : List Char) : Option Doctype :=
  let word := String.ofList word
  if word = "ENTITY" then some .beforeName
  else if word = "NOTATION" || word = "ELEMENT" || word = "ATTLIST" then some .rest
  else none

def readWord? (chars : List Char) (c : Char) : Option Doctype :=
  if 'A' ≤ c ∧ c ≤ 'Z' then some (.word (c :: chars))
  else if isSpace c then ofWord? chars.reverse
  else none

/-- Takes a token between the name and the value of an entity. The value may be kept somewhere else,
and counts as empty then. -/
def readBeforeValue? (name : List Char) : Token → Option Outcome
  | .char c =>
    if isSpace c then some (.more (.beforeValue name))
    else if c = 'S' ∨ c = 'P' then some (.declare name.reverse [] .rest)
    else none
  | t => if t.isQuote then some (.more (.value { name, opened := t, chars := [] })) else none

def readValue? (v : Version) (e : EntityValue) (t : Token) : Option Outcome :=
  if t = e.opened then some (.declare e.name.reverse e.chars.reverse .rest)
  else
    match t with
    | .quote => some (.more (.value (e.push '\x22')))
    | .apostrophe => some (.more (.value (e.push '\x27')))
    | .ampersand => some (.more (.reference e))
    | .char c =>
      if c = '&' then some (.more (.reference e))
      else if c = '%' then some (.more (.parameterInValue e ['%']))
      else if v.refers c then some (.more (.value (e.push c)))
      else none
    | _ => none

def readNumber? (v : Version) (e : EntityValue) (digits : List Char) (c : Char) : Option Doctype :=
  if c = ';' then (v.ofNumber? digits.reverse).map fun r => .value (e.push r)
  else if v.refers c then some (.number e (c :: digits))
  else none

/-- Takes a character of the name of a parameter; `again` is where the name goes on, and `after`
where its text is read. -/
def readParameter? (entities : Entities) (name : List Char) (again : List Char → Doctype)
    (after : Doctype) (c : Char) : Option Outcome :=
  if c = ';' then (entities.find? name.reverse).map fun text => .expand text after
  else if isNameChar c then some (.more (again (c :: name)))
  else none

def read? (v : Version) (entities : Entities) : Doctype → Token → Option Outcome
  | .outside, t => readOutside? t
  | .quoted opened, t => some (.more (if t = opened then .outside else .quoted opened))
  | .remark, t => some (.more (if t = .remarkClose then .outside else .remark))
  | .word chars, .char c => (readWord? chars c).map .more
  | .rest, t => some (.more (if t = .tagClose then .outside else .rest))
  | .beforeName, .char c =>
    if isSpace c then some (.more .beforeName)
    else if c = '%' then some (.more .beforeParameter)
    else if isNameStart c then some (.more (.name [c]))
    else none
  | .beforeParameter, .char c =>
    if isSpace c then some (.more .beforeParameter)
    else if isNameStart c then some (.more (.name [c, '%']))
    else none
  | .name chars, .char c =>
    if isSpace c then some (.more (.beforeValue chars))
    else if isNameChar c then some (.more (.name (c :: chars)))
    else none
  | .beforeValue chars, t => readBeforeValue? chars t
  | .value e, t => readValue? v e t
  | .reference e, .char c =>
    if c = '#' then some (.more (.number e []))
    else if v.refers c then some (.more (.value ((e.push '&').push c)))
    else none
  | .number e digits, .char c => (readNumber? v e digits c).map .more
  | .number e digits, .semicolon => (readNumber? v e digits ';').map .more
  | .parameterInValue e chars, .char c =>
    readParameter? entities chars (.parameterInValue e) (.value e) c
  | .parameterInValue e chars, .semicolon =>
    readParameter? entities chars (.parameterInValue e) (.value e) ';'
  | .parameter chars, .char c => readParameter? entities chars .parameter .outside c
  | .parameter chars, .semicolon => readParameter? entities chars .parameter .outside ';'
  | _, _ => none

end Doctype

end Blockwork.Xml
