import Blockwork.Xml.Name

/-! # Marks of XML texts

A text is read one character at a time. What a character means depends on the place where it
stands: a quote is a mark inside a tag and a plain character inside a remark.
-/

namespace Blockwork.Xml

set_option autoImplicit false

inductive Token where
  | char (c : Char)
  | tagOpen
  | endTagOpen
  | tagClose
  | emptyTagClose
  | instructionOpen
  | instructionClose
  | remarkOpen
  | remarkClose
  | cdataOpen
  | cdataClose
  | doctypeOpen
  | declarationOpen
  | equals
  | quote
  | apostrophe
  | ampersand
  | semicolon
deriving DecidableEq

namespace Token

def chars : Token → List Char
  | .char c => [c]
  | .tagOpen => ['<']
  | .endTagOpen => ['<', '/']
  | .tagClose => ['>']
  | .emptyTagClose => ['/', '>']
  | .instructionOpen => ['<', '?']
  | .instructionClose => ['?', '>']
  | .remarkOpen => ['<', '!', '-', '-']
  | .remarkClose => ['-', '-', '>']
  | .cdataOpen => ['<', '!', '[', 'C', 'D', 'A', 'T', 'A', '[']
  | .cdataClose => [']', ']', '>']
  | .doctypeOpen => ['<', '!', 'D', 'O', 'C', 'T', 'Y', 'P', 'E']
  | .declarationOpen => ['<', '!']
  | .equals => ['=']
  | .quote => ['\x22']
  | .apostrophe => ['\x27']
  | .ampersand => ['&']
  | .semicolon => [';']

/-- The token of a character that is a mark by itself, or of a plain character. -/
def ofChar (c : Char) : Token :=
  if c = '>' then .tagClose
  else if c = '=' then .equals
  else if c = '\x22' then .quote
  else if c = '\x27' then .apostrophe
  else if c = '&' then .ampersand
  else if c = ';' then .semicolon
  else .char c

def isQuote : Token → Bool
  | .quote | .apostrophe => true
  | _ => false

end Token

/-! ## Places -/

inductive Place where
  | content
  | doctype
  | declaration
  | quoted (quote : Char)
  | remark
  | cdata
  | instruction
deriving DecidableEq

/-- A place, whether it lies in a document type, and what has been read of a mark that is not
complete. -/
structure Scanner where
  place : Place
  inDoctype : Bool
  held : List Char

namespace Scanner

def start : Scanner := { place := .content, inDoctype := false, held := [] }

def moveTo (s : Scanner) (place : Place) : Scanner := { s with place, held := [] }

def home (s : Scanner) : Place :=
  if s.inDoctype then .doctype else .content

/-- Keeps characters until it is clear which mark they belong to. -/
def hold (s : Scanner) (chars : List Char) : Option (List Token × Scanner) :=
  some ([], { s with held := chars })

def fresh (s : Scanner) (c : Char) : Option (List Token × Scanner) :=
  match s.place with
  | .content =>
    if c = '<' ∨ c = '/' ∨ c = ']' then s.hold [c] else some ([.ofChar c], s)
  | .doctype =>
    if c = '<' then s.hold [c]
    else if c = '>' then some ([.tagClose], start)
    else if (Token.ofChar c).isQuote then some ([.ofChar c], s)
    else some ([.char c], s)
  | .declaration =>
    if c = '<' then none
    else if c = '>' then some ([.tagClose], s.moveTo s.home)
    else if c = '=' then some ([.char c], s)
    else if (Token.ofChar c).isQuote then some ([.ofChar c], s.moveTo (.quoted c))
    else some ([.ofChar c], s)
  | .quoted q =>
    if c = q then some ([.ofChar c], s.moveTo .declaration) else some ([.char c], s)
  | .remark => if c = '-' then s.hold [c] else some ([.char c], s)
  | .cdata => if c = ']' then s.hold [c] else some ([.char c], s)
  | .instruction =>
    if c = '?' then s.hold [c]
    else if c = '<' then some ([.tagOpen], s)
    else if c = '/' then some ([.endTagOpen], s)
    else some ([.ofChar c], s)

/-- Takes a character after plain characters that turned out to belong to no mark. -/
def freshAfter (s : Scanner) (plain : List Char) (c : Char) : Option (List Token × Scanner) :=
  (s.fresh c).map fun (tokens, s) => (plain.map .char ++ tokens, s)

/-- The marks that start with an angle and an exclamation mark, and the places they lead to. -/
def longMarks : List (Token × Place) :=
  [(.remarkOpen, .remark), (.cdataOpen, .cdata), (.doctypeOpen, .doctype)]

/-- Takes the characters from an opening angle on, which is followed by an exclamation mark. -/
def exclamation (s : Scanner) (chars : List Char) : Option (List Token × Scanner) :=
  match longMarks.find? fun (mark, _) => chars.isPrefixOf mark.chars with
  | some (mark, place) =>
    if chars = mark.chars then
      some ([mark], { s.moveTo place with inDoctype := s.inDoctype || mark = .doctypeOpen })
    else s.hold chars
  | none =>
    match chars with
    | ['<', '!', c] =>
      if s.inDoctype && (c = 'E' || c = 'A' || c = 'N') then
        some ([.declarationOpen, .char c], s.moveTo .declaration)
      else none
    | _ => none

def angle (s : Scanner) (c : Char) : Option (List Token × Scanner) :=
  if c = '?' then some ([.instructionOpen], s.moveTo .instruction)
  else if c = '/' then some ([.endTagOpen], s.moveTo s.home)
  else if c = '!' then s.hold ['<', '!']
  else if isSpace c || isNameChar c then some ([.tagOpen, .char c], s.moveTo s.home)
  else none

def feed (s : Scanner) (c : Char) : Option (List Token × Scanner) :=
  match s.place, s.held with
  | _, [] => s.fresh c
  | .remark, ['-'] => if c = '-' then s.hold ['-', '-'] else (s.moveTo .remark).freshAfter ['-'] c
  | .remark, _ => if c = '>' then some ([.remarkClose], s.moveTo s.home) else none
  | .instruction, _ =>
    if c = '>' then some ([.instructionClose], s.moveTo s.home)
    else (s.moveTo .instruction).freshAfter ['?'] c
  | place, [']'] => if c = ']' then s.hold [']', ']'] else (s.moveTo place).freshAfter [']'] c
  | place, [']', ']'] =>
    if c = '>' then some ([.cdataClose], s.moveTo .content)
    else if c = ']' then some ([.char ']'], s)
    else (s.moveTo place).freshAfter [']', ']'] c
  | _, ['/'] =>
    if c = '>' then some ([.emptyTagClose], s.moveTo s.home) else (s.moveTo s.home).freshAfter ['/'] c
  | _, ['<'] => s.angle c
  | _, held => s.exclamation (held ++ [c])

end Scanner

end Blockwork.Xml
