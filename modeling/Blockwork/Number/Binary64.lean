/-! # Binary floating point numbers of 64 bits

Numbers are kept as exact data, a sign, a mantissa and a power of two, and every operation rounds
once to the nearest number, a tie to the even mantissa.
-/

namespace Blockwork

set_option autoImplicit false

/-- A binary floating point number. A finite one is `± mantissa · 2 ^ exponent`, with a mantissa
below `2 ^ 53` that is at least `2 ^ 52` unless the exponent is the least one, `-1074`. -/
inductive Binary64 where
  | finite (negative : Bool) (mantissa : Nat) (exponent : Int)
  | infinite (negative : Bool)
  | nan
deriving DecidableEq

namespace Binary64

def zero (negative : Bool) : Binary64 :=
  .finite negative 0 (-1074)

/-- The quotient of two natural numbers that equals `n · 2 ^ e`. -/
def scale (n : Nat) (e : Int) : Nat × Nat :=
  if 0 ≤ e then (n * Nat.pow 2 e.toNat, 1) else (n, Nat.pow 2 (-e).toNat)

def nearestEven (num den : Nat) : Nat :=
  let q := num / den
  let r := num % den
  if 2 * r < den then q
  else if den < 2 * r then q + 1
  else if q % 2 = 0 then q else q + 1

/-- The integer `k` with `2 ^ k ≤ num / den < 2 ^ (k + 1)`, for positive numbers. -/
def floorLog (num den : Nat) : Int :=
  let k : Int := (Nat.log2 num : Int) - (Nat.log2 den : Int)
  let (p, q) := scale den k
  if p ≤ num * q then k else k - 1

def ofRatio (negative : Bool) (num den : Nat) : Binary64 :=
  if num = 0 then zero negative
  else
    let e := max (floorLog num den - 52) (-1074)
    let (p, q) := scale den e
    let m := nearestEven (num * q) p
    let (m, e) := if m = Nat.pow 2 53 then (Nat.pow 2 52, e + 1) else (m, e)
    if 971 < e then .infinite negative else .finite negative m e

def ofNat (n : Nat) : Binary64 :=
  ofRatio false n 1

/-- The number nearest to `± significand · 10 ^ exponent`. An exponent that is far out of range is
settled by the size of the significand, without computing the power. -/
def ofDecimal (negative : Bool) (significand : Nat) (exponent : Int) : Binary64 :=
  if significand = 0 then zero negative
  else
    let size := Nat.log2 significand
    if 400 < (size * 3 / 10 : Nat) + exponent then .infinite negative
    else if (size * 31 / 100 + 1 : Nat) + exponent < -400 then zero negative
    else if 0 ≤ exponent then ofRatio negative (significand * Nat.pow 10 exponent.toNat) 1
    else ofRatio negative significand (Nat.pow 10 (-exponent).toNat)

def neg : Binary64 → Binary64
  | .finite s m e => .finite (!s) m e
  | .infinite s => .infinite (!s)
  | .nan => .nan

def abs : Binary64 → Binary64
  | .finite _ m e => .finite false m e
  | .infinite _ => .infinite false
  | .nan => .nan

def isZero : Binary64 → Bool
  | .finite _ m _ => m == 0
  | _ => false

def isFinite : Binary64 → Bool
  | .finite .. => true
  | _ => false

def isNegative : Binary64 → Bool
  | .finite s _ _ => s
  | .infinite s => s
  | .nan => false

def mul : Binary64 → Binary64 → Binary64
  | .finite s m e, .finite s' m' e' =>
    let (p, q) := scale (m * m') (e + e')
    ofRatio (s != s') p q
  | .nan, _ => .nan
  | _, .nan => .nan
  | .infinite s, y => if y.isZero then .nan else .infinite (s != y.isNegative)
  | x, .infinite s => if x.isZero then .nan else .infinite (s != x.isNegative)

def div : Binary64 → Binary64 → Binary64
  | .finite s m e, .finite s' m' e' =>
    if m' = 0 then
      if m = 0 then .nan else .infinite (s != s')
    else
      let (p, q) := scale m (e - e')
      ofRatio (s != s') p (q * m')
  | .nan, _ => .nan
  | _, .nan => .nan
  | .infinite s, y => if y.isFinite then .infinite (s != y.isNegative) else .nan
  | x, .infinite s => zero (s != x.isNegative)

def ratio : Binary64 → Nat × Nat
  | .finite _ m e => scale m e
  | _ => (0, 1)

def isWhole : Binary64 → Bool
  | .finite _ m e => let (p, q) := scale m e; p % q == 0
  | _ => false

def round (x : Binary64) : Int :=
  let (p, q) := x.ratio
  let n : Nat := (2 * p + q) / (2 * q)
  if x.isNegative then -(n : Int) else n

/-- The integer of 64 bits nearest to the number: a number out of range gives the nearer end of the
range, and what is not a number gives zero. -/
def toInt64 : Binary64 → Int64
  | .nan => 0
  | .infinite s => if s then Int64.minValue else Int64.maxValue
  | x => Int64.ofInt (max Int64.minValue.toInt (min Int64.maxValue.toInt x.round))

/-- The encoding in 64 bits: sign, biased exponent, mantissa without its leading one. -/
def bits : Binary64 → Nat
  | .finite s m e => (if s then Nat.pow 2 63 else 0) + (e + 1074).toNat * Nat.pow 2 52 + m
  | .infinite s => (if s then Nat.pow 2 63 else 0) + 2047 * Nat.pow 2 52
  | .nan => 4095 * Nat.pow 2 51

end Binary64

end Blockwork
