import Blockwork.Number.Decimal
import Blockwork.Program.Defect
import Blockwork.Text.Blank

/-! # Number literals

A number literal is a decimal text with an optional sign, perhaps with blanks around it. Digits of
any script make a literal, but only those of ASCII have a value.
-/

namespace Blockwork.Numeral

set_option autoImplicit false

def isNumeral (literal : String) : Bool :=
  (Decimal.parts? Text.isDecimal (Text.strip literal.toList)).isSome

def value (literal : String) : Except Defect Binary64 :=
  if isNumeral literal then
    match Binary64.read? (Text.trim literal) with
    | none => .error .foreignDigits
    | some x => if x.isFinite then .ok x else .error (.notFinite literal)
  else .error (.notNumeral literal)

end Blockwork.Numeral
