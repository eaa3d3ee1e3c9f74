/-! # Letters of ASCII

* `Text.lower` maps the capital letters of ASCII and leaves all other characters alone.
* `Text.sameLetters` compares two texts up to the case of ASCII letters.
-/

namespace Blockwork.Text

set_option autoImplicit false

def isLetter (c : Char) : Bool :=
  ('a' ≤ c && c ≤ 'z') || ('A' ≤ c && c ≤ 'Z')

def lowerChar (c : Char) : Char :=
  if 'A' ≤ c && c ≤ 'Z' then Char.ofNat (c.toNat + 32) else c

def lower (s : String) : String :=
  String.ofList (s.toList.map lowerChar)

def sameLetters (s t : String) : Bool :=
  lower s == lower t

end Blockwork.Text
