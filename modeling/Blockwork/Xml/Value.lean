import Blockwork.Dict
import Blockwork.Xml.Token

/-! # Names, references and values in XML texts

Names, references and quoted values are read token by token. Each has a state that holds what has
been read, in reverse, and one move that either goes on or is done.
-/

namespace Blockwork.Xml

set_option autoImplicit false

inductive Progress (σ α : Type) where
  | more (state : σ)
  | done (result : α)

/-! ## Names -/

/-- One move of reading a name. It ends at a blank, or at one of the marks that `ends` names. There
is at most one colon in it. -/
def readName? (ends : Token → Bool) (name : List Char) (t : Token) :
    Option (Progress (List Char) QName) :=
  let done := (QName.ofChars? name.reverse).map .done
  match t with
  | .char c =>
    if c = ':' then if name.isEmpty || name.contains ':' then none else some (.more (c :: name))
    else if continuesName name c then some (.more (c :: name))
    else if isSpace c then done
    else none
  | t => if ends t then done else none

/-! ## References -/

abbrev Entities := Dict (List Char)

/-- What a reference stands for: a character, or a text with marks of its own. -/
inductive Meaning where
  | char (c : Char)
  | text (chars : List Char)

/-- Declares a name, unless it has been declared before. -/
def Entities.declare (entities : Entities) (name value : List Char) : Entities :=
  if Dict.contains (String.ofList name) entities then entities
  else Dict.insert (String.ofList name) value entities

def Entities.find? (entities : Entities) (name : List Char) : Option (List Char) :=
  Dict.get? (String.ofList name) entities

/-- What the name of a reference means: one of five words, a number, or a declared name. -/
def Entities.meaning? (v : Version) (entities : Entities) : List Char → Option Meaning
  | ['l', 't'] => some (.char '<')
  | ['g', 't'] => some (.char '>')
  | ['a', 'm', 'p'] => some (.char '&')
  | ['a', 'p', 'o', 's'] => some (.char '\x27')
  | ['q', 'u', 'o', 't'] => some (.char '\x22')
  | '#' :: digits => (v.ofNumber? digits).map .char
  | name => (entities.find? name).map .text

def readReference? (name : List Char) : Token → Option (Progress (List Char) (List Char))
  | .char c =>
    if continuesName name c || (name.isEmpty && c = '#') then some (.more (c :: name)) else none
  | .semicolon => if name.isEmpty then none else some (.done name.reverse)
  | _ => none

/-! ## Values -/

/-- What has been read of a value: its quote, its characters, and a reference that is not
complete. -/
structure Quoted where
  quote : Option Token
  chars : List Char
  reference : Option (List Char)

namespace Quoted

def start : Quoted := { quote := none, chars := [], reference := none }

def put (q : Quoted) : Meaning → Quoted
  | .char c => { q with chars := c :: q.chars, reference := none }
  | .text chars => { q with chars := chars.reverse ++ q.chars, reference := none }

/-- One move inside the quotes. Marks are plain text there, except that neither a start tag nor an
instruction may be opened. -/
def inside? (v : Version) (q : Quoted) : Token → Option Quoted
  | .ampersand => some { q with reference := some [] }
  | .tagOpen | .instructionOpen => none
  | .char c => if v.allows c then some { q with chars := c :: q.chars } else none
  | t => some { q with chars := t.chars.reverse ++ q.chars }

def read? (v : Version) (entities : Entities) (q : Quoted) (t : Token) :
    Option (Progress Quoted String) :=
  match q.reference, q.quote with
  | some name, _ => do
    match ← readReference? name t with
    | .more name => return .more { q with reference := some name }
    | .done name => return .more (q.put (← entities.meaning? v name))
  | none, none =>
    match t with
    | .char c => if isSpace c then some (.more q) else none
    | t => if t.isQuote then some (.more { q with quote := some t }) else none
  | none, some opened =>
    if t = opened then some (.done (String.ofList q.chars.reverse))
    else (q.inside? v t).map .more

end Quoted

end Blockwork.Xml
