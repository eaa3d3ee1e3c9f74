import Blockwork.Number.Binary64
import Blockwork.Number.Shortest
import Blockwork.Text.Blank

/-! # Literals of source texts

* `Source.wholeValue?` is the value of a number that is an integer of a moderate size.
* `Source.numberLiteral` writes a number, with its own literal wherever all languages read it alike.
* `Source.quote` writes a text between quotes.
-/

namespace Blockwork.Source

set_option autoImplicit false

def wholeValue? (x : Binary64) : Option Int :=
  if x.isWhole && x.round.natAbs < Nat.pow 10 15 then some x.round else none

def bareLiteral (literal : String) : List Char :=
  (Text.strip literal.toList).dropWhile (· = '+')

def hasLeadingZero (literal : List Char) : Bool :=
  match literal.dropWhile (· = '-') with
  | '0' :: c :: _ => Text.isDigit c
  | _ => false

/-- A number. A leading zero would change what a literal means, so such a number is written anew. -/
def numberLiteral (literal : String) (value : Binary64) : String :=
  let bare := bareLiteral literal
  if !hasLeadingZero bare && !bare.isEmpty then String.ofList bare
  else
    match wholeValue? value with
    | some n => Text.intText n
    | none => Shortest.plain value

def hexDigit (n : Nat) : Char :=
  if n < 10 then Char.ofNat (48 + n) else Char.ofNat (87 + n)

def isControl (c : Char) : Bool :=
  c.toNat < 0x20 || (0x7f ≤ c.toNat && c.toNat < 0xa0)

def quoteChar (c : Char) : List Char :=
  if c = '\x22' then ['\\', '\x22']
  else if c = '\\' then ['\\', '\\']
  else if c = '\n' then ['\\', 'n']
  else if c = '\r' then ['\\', 'r']
  else if c = '\t' then ['\\', 't']
  else if isControl c then ['\\', 'x', hexDigit (c.toNat / 16), hexDigit (c.toNat % 16)]
  else [c]

def quote (s : String) : String :=
  String.ofList ('\x22' :: s.toList.flatMap quoteChar ++ ['\x22'])

end Blockwork.Source
