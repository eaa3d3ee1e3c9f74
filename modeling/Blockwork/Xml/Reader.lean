import Blockwork.Xml.Builder
import Blockwork.Xml.Declaration
import Blockwork.Xml.Doctype

/-! # Reading XML texts

The characters of a text go to a scanner one by one, and its tokens drive a reader. A reference to a
declared text, outside of tags, puts that text before all that follows.
-/

namespace Blockwork.Xml

set_option autoImplicit false

inductive InTag where
  | between
  | name (chars : List Char)
  | afterName (name : QName)
  | value (name : QName) (q : Quoted)
  | after

/-- A place in a document. What is read piece by piece is kept in reverse. -/
inductive Mode where
  | start
  | outside
  | reference (name : List Char)
  | tagName (chars : List Char)
  | tag (name : QName) (attributes : TagAttributes) (place : InTag)
  | endTagName (chars : List Char)
  | endTag (name : QName)
  | remark
  | cdata (chars : List Char)
  /-- The name of an instruction; the flag says that it is the first thing in the document. -/
  | instruction (first : Bool) (chars : List Char)
  | instructionRest
  | declaration (d : Declaration)
  | doctype (d : Doctype)

/-- What a reader knows. `marked` says that the text starts with a byte order mark, `inProlog` that a
document type may still come. `pending` is a text that has to be read before all that follows, and
`expansions` counts such texts since the last character of the document itself. -/
structure Reader where
  scanner : Scanner
  mode : Mode
  declared : Declared
  marked : Bool
  inProlog : Bool
  entities : Entities
  builder : Builder
  pending : List Char
  expansions : Nat

/-- The most declared texts that may be put in for one character of the document. -/
def maxExpansions : Nat := 10

namespace Reader

def start (marked : Bool) : Reader :=
  { scanner := .start
    mode := .start
    declared := { version := .one, encoding := .utf8 }
    marked
    inProlog := true
    entities := []
    builder := .start
    pending := []
    expansions := 0 }

def version (r : Reader) : Version := r.declared.version

def moveTo (r : Reader) (mode : Mode) : Reader := { r with mode }

def expand? (r : Reader) (chars : List Char) : Option Reader :=
  if chars.isEmpty then some r
  else if r.expansions < maxExpansions then
    some { r with pending := chars, expansions := r.expansions + 1 }
  else none

/-! ## Outside of marks -/

def push (r : Reader) (chars : List Char) : Reader :=
  { r with builder := chars.foldl Builder.push r.builder, mode := .outside }

def readChar? (r : Reader) (c : Char) : Option Reader :=
  if r.builder.isOutermost then if isSpace c then some (r.moveTo .outside) else none
  else if r.version.allows c then some (r.push [c])
  else none

def readMark? (r : Reader) (t : Token) : Option Reader :=
  let r := { r with builder := r.builder.endRun }
  match t with
  | .tagOpen => some { r with mode := .tagName [], inProlog := false }
  | .endTagOpen => if r.builder.isOutermost then none else some (r.moveTo (.endTagName []))
  | .remarkOpen => some (r.moveTo .remark)
  | .doctypeOpen =>
    if r.inProlog then some { r with mode := .doctype .outside, inProlog := false } else none
  | .instructionOpen => some (r.moveTo (.instruction false []))
  | .cdataOpen => if r.builder.isOutermost then none else some (r.moveTo (.cdata []))
  | _ => none

/-- Takes a token outside of marks. Marks that start nothing are plain text inside an element. -/
def readOutside? (r : Reader) (t : Token) : Option Reader :=
  match t with
  | .char c => r.readChar? c
  | .remarkClose | .tagClose | .equals | .quote | .apostrophe | .instructionClose | .emptyTagClose
  | .semicolon => if r.builder.isOutermost then none else some (r.push t.chars)
  | .ampersand => if r.builder.isOutermost then none else some (r.moveTo (.reference []))
  | t => r.readMark? t

def readMeaning? (r : Reader) (name : List Char) : Option Reader := do
  match ← r.entities.meaning? r.version name with
  | .char c => return r.push [c]
  | .text chars => (r.moveTo .outside).expand? chars

/-! ## Tags -/

/-- Opens an element at the end of its start tag; the flag says that it is empty. -/
def openElement? (r : Reader) (name : QName) (a : TagAttributes) (isEmpty : Bool) :
    Option Reader := do
  let b ← r.builder.openElement? name a
  let b ← if isEmpty then b.closeElement? name else some b
  return { r with builder := b, mode := .outside }

def closeElement? (r : Reader) (name : QName) : Option Reader :=
  (r.builder.closeElement? name).map fun b => { r with builder := b, mode := .outside }

def readTagEnd? (r : Reader) (name : QName) (a : TagAttributes) : Token → Option Reader
  | .tagClose => r.openElement? name a false
  | .emptyTagClose => r.openElement? name a true
  | .char c => if isSpace c then some (r.moveTo (.tag name a .between)) else none
  | _ => none

def readTagName? (r : Reader) (chars : List Char) (t : Token) : Option Reader := do
  match ← readName? (fun t => t = .tagClose || t = .emptyTagClose) chars t with
  | .more chars => return r.moveTo (.tagName chars)
  | .done name => if name.isReserved then none else r.readTagEnd? name .empty t

def readAttribute? (r : Reader) (name : QName) (a : TagAttributes) (chars : List Char) (t : Token) :
    Option Reader := do
  match ← readName? (· = .equals) chars t with
  | .more chars => return r.moveTo (.tag name a (.name chars))
  | .done key =>
    if a.contains key then none
    else return r.moveTo (.tag name a (if t = .equals then .value key .start else .afterName key))

def readTag? (r : Reader) (name : QName) (a : TagAttributes) : InTag → Token → Option Reader
  | .between, .char c =>
    if isSpace c then some r else r.readAttribute? name a [] (.char c)
  | .between, t => r.readTagEnd? name a t
  | .name chars, t => r.readAttribute? name a chars t
  | .afterName key, .equals => some (r.moveTo (.tag name a (.value key .start)))
  | .afterName _, .char c => if isSpace c then some r else none
  | .value key q, t => do
    match ← q.read? r.version r.entities t with
    | .more q => return r.moveTo (.tag name a (.value key q))
    | .done value => return r.moveTo (.tag name (← a.add? key value) .after)
  | .after, t => r.readTagEnd? name a t
  | _, _ => none

def readEndTag? (r : Reader) (name : QName) : Token → Option Reader
  | .tagClose => r.closeElement? name
  | .char c => if isSpace c then some (r.moveTo (.endTag name)) else none
  | _ => none

def readEndTagName? (r : Reader) (chars : List Char) (t : Token) : Option Reader := do
  match ← readName? (· = .tagClose) chars t with
  | .more chars => return r.moveTo (.endTagName chars)
  | .done name => r.readEndTag? name t

/-! ## Other parts -/

/-- The name of the declaration; no instruction has it, in letters of any case. -/
def isXml (name : List Char) : Bool :=
  Text.sameLetters (String.ofList name) "xml"

/-- Takes a token of the name of an instruction. At the start of the document the name may be that of
the declaration, and before a blank it may be missing. -/
def readInstruction? (r : Reader) (first : Bool) (chars : List Char) : Token → Option Reader
  | .char c =>
    if continuesName chars c then some (r.moveTo (.instruction first (c :: chars)))
    else if isSpace c then
      if first && chars = ['l', 'm', 'x'] then some (r.moveTo (.declaration .start))
      else if isXml chars.reverse then none
      else some (r.moveTo .instructionRest)
    else none
  | .instructionClose =>
    if chars.isEmpty || isXml chars.reverse then none else some (r.moveTo .outside)
  | _ => none

def readPast? (r : Reader) (mark : Token) : Token → Option Reader
  | .char c => if r.version.refers c then some r else none
  | t => some (if t = mark then r.moveTo .outside else r)

def readCdata? (r : Reader) (chars : List Char) : Token → Option Reader
  | .cdataClose => some { r with builder := r.builder.cdata chars.reverse, mode := .outside }
  | .char c => if r.version.refers c then some (r.moveTo (.cdata (c :: chars))) else none
  | _ => none

def readDeclaration? (r : Reader) (d : Declaration) (t : Token) : Option Reader := do
  match ← d.read? r.marked r.declared t with
  | .more (d, declared) => return { r with declared, mode := .declaration d }
  | .done declared => return { r with declared, mode := .outside }

def readDoctype? (r : Reader) (d : Doctype) (t : Token) : Option Reader := do
  match ← d.read? r.version r.entities t with
  | .more d => return r.moveTo (.doctype d)
  | .declare name value d =>
    return { r with entities := r.entities.declare name value, mode := .doctype d }
  | .expand chars d => (r.moveTo (.doctype d)).expand? chars
  | .finish => return r.moveTo .outside

/-! ## Moves -/

def step (r : Reader) (t : Token) : Option Reader :=
  match r.mode with
  | .start =>
    if t = .instructionOpen then some (r.moveTo (.instruction true [])) else r.readOutside? t
  | .outside => r.readOutside? t
  | .reference name => do
    match ← readReference? name t with
    | .more name => return r.moveTo (.reference name)
    | .done name => r.readMeaning? name
  | .tagName chars => r.readTagName? chars t
  | .tag name a place => r.readTag? name a place t
  | .endTagName chars => r.readEndTagName? chars t
  | .endTag name => r.readEndTag? name t
  | .remark => r.readPast? .remarkClose t
  | .cdata chars => r.readCdata? chars t
  | .instruction first chars => r.readInstruction? first chars t
  | .instructionRest => r.readPast? .instructionClose t
  | .declaration d => r.readDeclaration? d t
  | .doctype d => r.readDoctype? d t

def feed? (r : Reader) (c : Char) : Option Reader := do
  let (tokens, scanner) ← r.scanner.feed c
  tokens.foldlM step { r with scanner }

/-- Takes characters. A text that becomes pending is taken before the characters after it, with at
most `n` such texts inside each other. -/
def feedAll? : Nat → Reader → List Char → Option Reader
  | 0, r, cs => cs.foldlM (fun r c => (r.feed? c).filter (·.pending.isEmpty)) r
  | n + 1, r, cs =>
    cs.foldlM (fun r c => (r.feed? c).bind fun r => feedAll? n { r with pending := [] } r.pending) r

def read? (r : Reader) (c : Char) : Option Reader := do
  let cs ← r.declared.encoding.read? c
  cs.foldlM (fun r c => feedAll? maxExpansions { r with expansions := 0 } [c]) r

def result? (r : Reader) : Option Xml :=
  match r.mode with
  | .outside =>
    if r.scanner.place = .content ∧ r.scanner.held = [] then r.builder.result? else none
  | _ => none

end Reader

/-- Takes a byte order mark off the front; the flag says whether there was one. -/
def takeMark : List Char → Bool × List Char
  | [] => (false, [])
  | c :: cs => if c = '\ufeff' then (true, cs) else (false, c :: cs)

def parse? (s : String) : Option Xml := do
  let (marked, cs) := takeMark s.toList
  let r ← cs.foldlM Reader.read? (.start marked)
  r.result?

end Blockwork.Xml
