import Blockwork.Xml.Encoding
import Blockwork.Xml.Value

/-! # The declaration at the start of an XML text

A declaration names the version of the format, perhaps an encoding, and perhaps whether the document
stands alone, in this order.
-/

namespace Blockwork.Xml

set_option autoImplicit false

inductive Topic where
  | version
  | encoding
  | standalone
deriving DecidableEq

structure Declared where
  version : Version
  encoding : Encoding

/-- A place in a declaration. What is read piece by piece is kept in reverse. -/
inductive Declaration where
  | before (topics : List Topic)
  | name (topic : Topic) (chars : List Char)
  | afterName (topic : Topic)
  | value (topic : Topic) (q : Quoted)
  | after (topics : List Topic)

namespace Topic

def word : Topic → Char × String
  | .version => ('v', "ersion")
  | .encoding => ('e', "ncoding")
  | .standalone => ('s', "tandalone")

def next : Topic → List Topic
  | .version => [.encoding, .standalone]
  | .encoding => [.standalone]
  | .standalone => []

end Topic

namespace Declaration

def start : Declaration := .before [.version]

def mayEnd (topics : List Topic) : Bool :=
  !topics.contains .version

abbrev Outcome := Progress (Declaration × Declared) Declared

/-- Takes what a declaration says about a topic. The encoding has to suit a text in UTF-8. -/
def say? (marked : Bool) (d : Declared) (value : String) : Topic → Option Declared
  | .version =>
    if value = "1.0" then some { d with version := .one }
    else if value = "1.1" then some { d with version := .oneOne }
    else none
  | .encoding => do
    let encoding ← Encoding.ofName? value
    if encoding.suits marked then some { d with encoding } else none
  | .standalone => if value = "yes" || value = "no" then some d else none

def readBefore? (d : Declared) (topics : List Topic) : Token → Option Outcome
  | .char c =>
    if isSpace c then some (.more (.before topics, d))
    else (topics.find? (·.word.1 = c)).map fun topic => .more (.name topic [], d)
  | .instructionClose => if mayEnd topics then some (.done d) else none
  | _ => none

def ofName? (topic : Topic) (name : QName) (t : Token) : Option Declaration :=
  if name.base = topic.word.2 then
    some (if t = .equals then .value topic .start else .afterName topic)
  else none

def read? (marked : Bool) (d : Declared) : Declaration → Token → Option Outcome
  | .before topics, t => readBefore? d topics t
  | .name topic chars, t => do
    match ← readName? (· = .equals) chars t with
    | .more chars => return .more (.name topic chars, d)
    | .done found => return .more (← ofName? topic found t, d)
  | .afterName topic, .equals => some (.more (.value topic .start, d))
  | .afterName topic, .char c => if isSpace c then some (.more (.afterName topic, d)) else none
  | .value topic q, t => do
    match ← q.read? d.version [] t with
    | .more q => return .more (.value topic q, d)
    | .done found => return .more (.after topic.next, ← say? marked d found topic)
  | .after topics, .char c => if isSpace c then some (.more (.before topics, d)) else none
  | .after _, .instructionClose => some (.done d)
  | _, _ => none

end Declaration

end Blockwork.Xml
