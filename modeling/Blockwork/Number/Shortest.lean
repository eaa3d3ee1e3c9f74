import Blockwork.Number.Binary64
import Blockwork.Text.Digit

/-! # The fewest digits that read back

A finite number is written with the fewest significant digits that still round to it, and with the
digits nearest to it among those. How the digits are laid out is up to a format.
-/

namespace Blockwork.Shortest

set_option autoImplicit false

/-- Where the value lies halfway between the two candidates. -/
inductive Tie where
  | toEven
  | up
deriving DecidableEq

/-- Significant digits of a number `0.d₁d₂d₃… · 10 ^ point`. -/
structure Digits where
  digits : List Char
  point : Int
deriving DecidableEq

/-- The positive reals that round to a number: the number is `value / den`, and the reals lie
between `low / den` and `high / den`, with the ends if `closed`. -/
structure Interval where
  low : Nat
  value : Nat
  high : Nat
  den : Nat
  closed : Bool
deriving DecidableEq

/-- The reals that round to `m · 2 ^ e`. The gap below a power of two is half the gap above it. -/
def Interval.around (m : Nat) (e : Int) : Interval :=
  let low := if m = Nat.pow 2 52 ∧ -1074 < e then 4 * m - 1 else 4 * m - 2
  let (unit, den) := Binary64.scale 1 (e - 2)
  { low := low * unit, value := 4 * m * unit, high := (4 * m + 2) * unit, den, closed := m % 2 == 0 }

def size (n : Nat) : Nat :=
  (Text.digitsOf n).length

/-- The integer `k` with `10 ^ (k - 1) ≤ num / den < 10 ^ k`, for positive numbers. -/
def magnitude (num den : Nat) : Int :=
  if den ≤ num then size (num / den)
  else 1 - (size ((den + num - 1) / num - 1) : Int)

def Interval.holds (i : Interval) (c : Nat) (e : Int) : Bool :=
  let (up, down) := if 0 ≤ e then (Nat.pow 10 e.toNat, 1) else (1, Nat.pow 10 (-e).toNat)
  let x := c * up * i.den
  if i.closed then i.low * down ≤ x && x ≤ i.high * down
  else i.low * down < x && x < i.high * down

/-- The multiple of `10 ^ e` in the interval that is nearest to its value, if there is one. -/
def Interval.nearest? (i : Interval) (tie : Tie) (e : Int) : Option Nat :=
  let (up, down) := if 0 ≤ e then (Nat.pow 10 e.toNat, 1) else (1, Nat.pow 10 (-e).toNat)
  let num := i.value * down
  let den := up * i.den
  let below := num / den
  let rest := num % den
  match i.holds below e, i.holds (below + 1) e with
  | true, true =>
    if 2 * rest < den then some below
    else if den < 2 * rest then some (below + 1)
    else match tie with
      | .toEven => some (if below % 2 = 0 then below else below + 1)
      | .up => some (below + 1)
  | true, false => some below
  | false, true => some (below + 1)
  | false, false => none

def dropZeros (cs : List Char) : List Char :=
  (cs.reverse.dropWhile (· = '0')).reverse

def Digits.of (c : Nat) (e : Int) : Digits :=
  { digits := dropZeros (Text.digitsOf c), point := (size c : Int) + e }

/-- The fewest digits for `m · 2 ^ e`; seventeen are always enough, and zero has one. -/
def digits (tie : Tie) (m : Nat) (e : Int) : Digits :=
  if m = 0 then { digits := ['0'], point := 1 }
  else
    let i := Interval.around m e
    let k := magnitude i.value i.den
    match (List.range 17).findSome? fun n =>
        (i.nearest? tie (k - (n + 1 : Nat))).map fun c => Digits.of c (k - (n + 1 : Nat)) with
    | some d => d
    | none => { digits := ['0'], point := 1 }

def zeros (n : Nat) : List Char :=
  List.replicate n '0'

/-- The digits in their place around the point. A whole number has no point, but ends in `tail`. -/
def place (d : Digits) (tail : List Char) : List Char :=
  if d.point ≤ 0 then '0' :: '.' :: zeros (-d.point).toNat ++ d.digits
  else
    let k := d.point.toNat
    if d.digits.length ≤ k then d.digits ++ zeros (k - d.digits.length) ++ tail
    else d.digits.take k ++ '.' :: d.digits.drop k

/-- The digits with a power of ten. The sign of the power is always written. -/
def power (d : Digits) : List Char :=
  let mantissa := match d.digits with
    | [] => ['0']
    | [c] => [c]
    | c :: cs => c :: '.' :: cs
  let e := d.point - 1
  mantissa ++ 'e' :: (if e < 0 then '-' else '+') :: Text.digitsOf e.natAbs

def signed (negative : Bool) (cs : List Char) : String :=
  String.ofList (if negative then '-' :: cs else cs)

def plain : Binary64 → String
  | .finite s m e => signed s (place (digits .up m e) [])
  | .infinite s => signed s "inf".toList
  | .nan => "NaN"

/-- The text of a number, with an exponent below `10 ^ -5` and from `10 ^ 16` on; a whole number
without an exponent ends in `.0`. -/
def scientific : Binary64 → String
  | .finite s m e =>
    let d := digits .toEven m e
    signed s (if -5 < d.point && d.point ≤ 16 then place d ['.', '0'] else power d)
  | _ => "null"

end Blockwork.Shortest
