import Blockwork.Number.Binary64
import Blockwork.Text.Ascii
import Blockwork.Text.Digit

/-! # Decimal texts of floating point numbers

* `Decimal.Parts` are the parts of a decimal text: sign, digits before and after the point, exponent.
* `Decimal.parts?` cuts a text into these parts, whichever characters count as digits.
* `Binary64.read?` reads a decimal text, an infinity or a text that is not a number.
-/

namespace Blockwork

set_option autoImplicit false

namespace Decimal

/-- The parts of a decimal text. The exponent is zero when the text has none. -/
structure Parts where
  negative : Bool
  whole : List Char
  fraction : List Char
  exponent : Int
deriving DecidableEq

def takeSign : List Char → Bool × List Char
  | '-' :: cs => (true, cs)
  | '+' :: cs => (false, cs)
  | cs => (false, cs)

def exponent? (isDigit : Char → Bool) : List Char → Option Int
  | [] => some 0
  | c :: cs =>
    if c = 'e' || c = 'E' then
      let (negative, digits) := takeSign cs
      if digits.isEmpty || !digits.all isDigit then none
      else some (if negative then -(Text.digitsValue digits : Int) else Text.digitsValue digits)
    else none

def takeFraction (isDigit : Char → Bool) : List Char → List Char × List Char
  | '.' :: cs => (cs.takeWhile isDigit, cs.dropWhile isDigit)
  | cs => ([], cs)

/-- Cuts an unsigned or signed decimal text into its parts. At least one digit stands beside the
point, and an exponent has at least one digit. -/
def parts? (isDigit : Char → Bool) (cs : List Char) : Option Parts :=
  let (negative, cs) := takeSign cs
  let whole := cs.takeWhile isDigit
  let (fraction, cs) := takeFraction isDigit (cs.dropWhile isDigit)
  if whole.isEmpty && fraction.isEmpty then none
  else (exponent? isDigit cs).map fun exponent => { negative, whole, fraction, exponent }

def Parts.value (p : Parts) : Binary64 :=
  .ofDecimal p.negative (Text.digitsValue (p.whole ++ p.fraction)) (p.exponent - p.fraction.length)

end Decimal

namespace Binary64

def readWord? (cs : List Char) : Option Binary64 :=
  let (negative, cs) := Decimal.takeSign cs
  let word := cs.map Text.lowerChar
  if word = "inf".toList || word = "infinity".toList then some (.infinite negative)
  else if word = "nan".toList then some .nan
  else none

def read? (s : String) : Option Binary64 :=
  match Decimal.parts? Text.isDigit s.toList with
  | some p => some p.value
  | none => readWord? s.toList

end Binary64

end Blockwork
