/-! # Characters and names of XML

* `Xml.Version.allows` and `Xml.Version.refers` are the characters of a document in a version of the
  format.
* `Xml.QName` is a name, perhaps with the name of a scope before a colon.
* `Xml.Version.ofNumber?` is the character that a number stands for.
-/

namespace Blockwork.Xml

set_option autoImplicit false

inductive Version where
  | one
  | oneOne
deriving DecidableEq

def inRanges (ranges : List (Nat × Nat)) (c : Char) : Bool :=
  ranges.any fun (low, high) => low ≤ c.toNat && c.toNat ≤ high

/-- The characters that a reference may stand for. They may also be written as they are in remarks,
in instructions and in unmarked text. -/
def Version.refers : Version → Char → Bool
  | .one => inRanges [(0x9, 0xa), (0xd, 0xd), (0x20, 0xd7ff), (0xe000, 0xfffd), (0x10000, 0x10ffff)]
  | .oneOne => inRanges [(0x1, 0xd7ff), (0xe000, 0xfffd), (0x10000, 0x10ffff)]

def Version.allows : Version → Char → Bool
  | .one => Version.refers .one
  | .oneOne => inRanges [(0x9, 0xa), (0xd, 0xd), (0x20, 0x7e), (0x85, 0x85), (0xa0, 0xd7ff),
      (0xe000, 0xfffd), (0x10000, 0x10ffff)]

def isSpace (c : Char) : Bool :=
  c == ' ' || c == '\t' || c == '\n' || c == '\r'

def isNameStart (c : Char) : Bool :=
  inRanges [(0x3a, 0x3a), (0x41, 0x5a), (0x5f, 0x5f), (0x61, 0x7a), (0xc0, 0xd6), (0xd8, 0xf6),
    (0xf8, 0x2ff), (0x370, 0x37d), (0x37f, 0x1fff), (0x200c, 0x200d), (0x2070, 0x218f),
    (0x2c00, 0x2fef), (0x3001, 0xd7ff), (0xf900, 0xfdcf), (0xfdf0, 0xfffd), (0x10000, 0xeffff)] c

def isNameChar (c : Char) : Bool :=
  isNameStart c
    || inRanges [(0x2d, 0x2e), (0x30, 0x39), (0xb7, 0xb7), (0x300, 0x36f), (0x203f, 0x2040)] c

def continuesName (name : List Char) (c : Char) : Bool :=
  if name.isEmpty then isNameStart c else isNameChar c

structure QName where
  scope : Option String
  base : String
deriving DecidableEq

/-- The name that the characters write. Neither part of it is empty. -/
def QName.ofChars? (chars : List Char) : Option QName :=
  let first := chars.takeWhile (· ≠ ':')
  match chars.dropWhile (· ≠ ':') with
  | [] => if first.isEmpty then none else some { scope := none, base := String.ofList first }
  | _ :: second =>
    if first.isEmpty || second.isEmpty then none
    else some { scope := some (String.ofList first), base := String.ofList second }

/-- Whether a name lies in a scope of the format itself, which no element does. -/
def QName.isReserved (name : QName) : Bool :=
  name.scope == some "xml" || name.scope == some "xmlns"

/-! ## Numbers of characters -/

def digitIn? (base : Nat) (c : Char) : Option Nat :=
  let n :=
    if '0' ≤ c ∧ c ≤ '9' then c.toNat - '0'.toNat
    else if 'a' ≤ c ∧ c ≤ 'f' then c.toNat - 'a'.toNat + 10
    else if 'A' ≤ c ∧ c ≤ 'F' then c.toNat - 'A'.toNat + 10
    else 16
  if n < base then some n else none

def digitsIn? (base : Nat) : List Char → Option Nat
  | [] => none
  | cs => cs.foldlM (fun n c => (digitIn? base c).map (base * n + ·)) 0

def numberIn? (base : Nat) : List Char → Option Nat
  | '+' :: cs => digitsIn? base cs
  | cs => digitsIn? base cs

/-- The character that a number stands for: decimal, or hexadecimal after the letter `x`. -/
def Version.ofNumber? (v : Version) (digits : List Char) : Option Char := do
  let n ← match digits with
    | 'x' :: digits => numberIn? 16 digits
    | digits => numberIn? 10 digits
  if n.isValidChar && v.refers (Char.ofNat n) then some (Char.ofNat n) else none

end Blockwork.Xml
