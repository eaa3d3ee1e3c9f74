import Blockwork.Text.Ascii

/-! # Encodings of XML texts

A text is at hand in UTF-8, and its declaration may name another encoding for what follows.
-/

namespace Blockwork.Xml

set_option autoImplicit false

inductive Encoding where
  | utf8
  | latin1
  | utf16
  | ascii
deriving DecidableEq

namespace Encoding

def labels : List (String × Encoding) :=
  [("utf-8", .utf8), ("utf8", .utf8), ("iso-8859-1", .latin1), ("latin1", .latin1),
    ("utf-16", .utf16), ("utf16", .utf16), ("ascii", .ascii), ("us-ascii", .ascii)]

/-- Whether a name and a label are the same as far as both of them go, in letters of any case. -/
def fits (name label : String) : Bool :=
  (label.toList.zip name.toList).all fun (l, n) => l == Text.lowerChar n

def ofName? (name : String) : Option Encoding :=
  (labels.find? fun (label, _) => fits name label).map Prod.snd

/-- Whether a text in UTF-8 can be read in the encoding. After a byte order mark of UTF-8 no other
encoding will do, and two bytes for a character will never do. -/
def suits (marked : Bool) : Encoding → Bool
  | .utf8 => true
  | .latin1 | .ascii => !marked
  | .utf16 => false

def read? : Encoding → Char → Option (List Char)
  | .utf8, c => some [c]
  | .latin1, c => some ((String.utf8EncodeChar c).map fun byte => Char.ofNat byte.toNat)
  | .ascii, c => if c.toNat < 0x80 then some [c] else none
  | .utf16, _ => none

end Encoding

end Blockwork.Xml
