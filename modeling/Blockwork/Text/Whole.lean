import Blockwork.Text.Digit

/-! # Whole numbers in texts

A whole number is written with an optional sign and at least one ASCII digit, and nothing around
them. A reader for a range of numbers refuses a text whose number is out of the range.
-/

namespace Blockwork.Text

set_option autoImplicit false

def readDigits? (cs : List Char) : Option Nat :=
  if cs.isEmpty || !cs.all isDigit then none else some (digitsValue cs)

def readNat? (s : String) : Option Nat :=
  match s.toList with
  | '+' :: cs => readDigits? cs
  | cs => readDigits? cs

def readInt? (s : String) : Option Int :=
  match s.toList with
  | '-' :: cs => (readDigits? cs).map fun n => -(n : Int)
  | '+' :: cs => (readDigits? cs).map fun n => (n : Int)
  | cs => (readDigits? cs).map fun n => (n : Int)

def readInt64? (s : String) : Option Int64 :=
  match readInt? s with
  | some n => if Int64.minValue.toInt ≤ n ∧ n ≤ Int64.maxValue.toInt then some (Int64.ofInt n) else none
  | none => none

def readUInt32? (s : String) : Option UInt32 :=
  match readNat? s with
  | some n => if n < UInt32.size then some (UInt32.ofNat n) else none
  | none => none

def readUInt64? (s : String) : Option UInt64 :=
  match readNat? s with
  | some n => if n < UInt64.size then some (UInt64.ofNat n) else none
  | none => none

end Blockwork.Text
