import Blockwork.Json.Basic

/-! # Numbers in JSON texts

Digits are gathered into a significand of 64 bits; digits that no longer fit only move the decimal
point. A number with a fraction, an exponent or too many digits is the significand, rounded, times
or divided by one power of ten, rounded again.
-/

namespace Blockwork.Json.Number

set_option autoImplicit false

structure Lexeme where
  negative : Bool
  whole : List Char
  fraction : Option (List Char)
  exponent : Option (Bool × List Char)
deriving DecidableEq

/-- Appends digits to a significand while it stays below `2 ^ 64`; gives back the digits left over. -/
def gather (n : Nat) : List Char → Nat × List Char
  | [] => (n, [])
  | c :: cs =>
    let n' := 10 * n + Text.digitValue c
    if n' < 2 ^ 64 then gather n' cs else (n, c :: cs)

def tenPow (k : Nat) : Binary64 :=
  .ofNat (Nat.pow 10 k)

/-- `x · 10 ^ e` by one multiplication or division; an exponent below `-308` takes further
divisions. A number that grows beyond the largest one has no value. -/
def shift? (x : Binary64) (e : Int) : Option Binary64 :=
  if 308 < e then
    if x.isZero then some x else none
  else if 0 ≤ e then
    let y := x.mul (tenPow e.toNat)
    if y.isFinite then some y else none
  else if -308 ≤ e then some (x.div (tenPow (-e).toNat))
  else if x.isZero then some x
  else shift? (x.div (tenPow 308)) (e + 308)
termination_by (-e).toNat
decreasing_by omega

def withSign (negative : Bool) (x : Binary64) : Binary64 :=
  if negative then x.neg else x

/-- The integer with a sign and a magnitude below `2 ^ 64`. A negative zero, and a magnitude below
the range of 64 bits, make a floating point number. -/
def ofMagnitude (negative : Bool) (n : Nat) : Number :=
  if !negative then .int n
  else if 0 < n ∧ n ≤ Nat.pow 2 63 then .int (-n)
  else .float (Binary64.ofNat n).neg

/-- The floating point number `± significand · 10 ^ (point + exponent)`. An exponent of more than
31 bits makes a zero unless it is positive and the significand is not zero. -/
def scaled? (negative : Bool) (significand : Nat) (point : Int) :
    Option (Bool × List Char) → Option Binary64
  | none => (shift? (.ofNat significand) point).map (withSign negative)
  | some (down, digits) =>
    let e := Text.digitsValue digits
    if Nat.pow 2 31 ≤ e then
      if significand ≠ 0 ∧ !down then none else some (.zero negative)
    else
      (shift? (.ofNat significand) (if down then point - e else point + e)).map (withSign negative)

def Lexeme.value? (l : Lexeme) : Option Number :=
  let (n, left) := gather 0 l.whole
  match l.fraction with
  | some fraction =>
    let (n', left') := gather n fraction
    let point : Int := left.length - (fraction.length - left'.length : Nat)
    (scaled? l.negative n' point l.exponent).map .float
  | none =>
    if left.isEmpty && l.exponent.isNone then some (ofMagnitude l.negative n)
    else (scaled? l.negative n left.length l.exponent).map .float

/-! ## Cutting a number off a text -/

def lexSign : List Char → Bool × List Char
  | '-' :: cs => (true, cs)
  | cs => (false, cs)

def lexWhole (cs : List Char) : Option (List Char × List Char) :=
  let digits := cs.takeWhile Text.isDigit
  match digits with
  | [] => none
  | '0' :: _ :: _ => none
  | _ => some (digits, cs.dropWhile Text.isDigit)

def lexFraction : List Char → Option (Option (List Char) × List Char)
  | '.' :: cs =>
    let digits := cs.takeWhile Text.isDigit
    if digits.isEmpty then none else some (some digits, cs.dropWhile Text.isDigit)
  | cs => some (none, cs)

def lexExponentSign : List Char → Bool × List Char
  | '-' :: cs => (true, cs)
  | '+' :: cs => (false, cs)
  | cs => (false, cs)

def lexExponent : List Char → Option (Option (Bool × List Char) × List Char)
  | [] => some (none, [])
  | c :: cs =>
    if c = 'e' ∨ c = 'E' then
      let (down, cs) := lexExponentSign cs
      let digits := cs.takeWhile Text.isDigit
      if digits.isEmpty then none
      else some (some (down, digits), cs.dropWhile Text.isDigit)
    else some (none, c :: cs)

def lex (cs : List Char) : Option (Lexeme × List Char) := do
  let (negative, cs) := lexSign cs
  let (whole, cs) ← lexWhole cs
  let (fraction, cs) ← lexFraction cs
  let (exponent, cs) ← lexExponent cs
  return ({ negative, whole, fraction, exponent }, cs)

/-! ## What is left is shorter -/

theorem length_dropWhile_le (p : Char → Bool) (cs : List Char) :
    (cs.dropWhile p).length ≤ cs.length :=
  (List.dropWhile_sublist p).length_le

theorem lexSign_length (cs : List Char) : (lexSign cs).2.length ≤ cs.length := by
  unfold lexSign; split <;> simp

theorem lexWhole_length {cs rest : List Char} {digits : List Char}
    (h : lexWhole cs = some (digits, rest)) : rest.length < cs.length := by
  have key := List.takeWhile_append_dropWhile (p := Text.isDigit) (l := cs)
  have size := congrArg List.length key
  simp only [List.length_append] at size
  unfold lexWhole at h
  simp only at h
  split at h
  · cases h
  · cases h
  · next hnil _ =>
    simp only [Option.some.injEq, Prod.mk.injEq] at h
    obtain ⟨_, rfl⟩ := h
    have : 0 < (cs.takeWhile Text.isDigit).length :=
      List.length_pos_iff.2 hnil
    omega

theorem lexFraction_length {cs rest : List Char} {fraction : Option (List Char)}
    (h : lexFraction cs = some (fraction, rest)) : rest.length ≤ cs.length := by
  unfold lexFraction at h
  split at h
  · next cs =>
    simp only at h
    split at h
    · cases h
    · simp only [Option.some.injEq, Prod.mk.injEq] at h
      obtain ⟨_, rfl⟩ := h
      have := length_dropWhile_le Text.isDigit cs
      simp only [List.length_cons]
      omega
  · simp only [Option.some.injEq, Prod.mk.injEq] at h
    obtain ⟨_, rfl⟩ := h
    exact Nat.le_refl _

theorem lexExponentSign_length (cs : List Char) : (lexExponentSign cs).2.length ≤ cs.length := by
  unfold lexExponentSign; split <;> simp

theorem lexExponent_length {cs rest : List Char} {exponent : Option (Bool × List Char)}
    (h : lexExponent cs = some (exponent, rest)) : rest.length ≤ cs.length := by
  unfold lexExponent at h
  split at h
  · simp_all
  · next c cs =>
    split at h
    · simp only at h
      split at h
      · cases h
      · simp only [Option.some.injEq, Prod.mk.injEq] at h
        obtain ⟨_, rfl⟩ := h
        have h₁ := length_dropWhile_le Text.isDigit (lexExponentSign cs).2
        have h₂ := lexExponentSign_length cs
        simp only [List.length_cons]
        omega
    · simp only [Option.some.injEq, Prod.mk.injEq] at h
      obtain ⟨_, rfl⟩ := h
      exact Nat.le_refl _

theorem lex_length {cs rest : List Char} {l : Lexeme} (h : lex cs = some (l, rest)) :
    rest.length < cs.length := by
  unfold lex at h
  simp only [bind, Option.bind_eq_some_iff, pure, Option.some.injEq, Prod.mk.injEq] at h
  obtain ⟨⟨whole, cs₁⟩, h₁, ⟨fraction, cs₂⟩, h₂, ⟨exponent, cs₃⟩, h₃, _, rfl⟩ := h
  have a := lexSign_length cs
  have b := lexWhole_length h₁
  have c := lexFraction_length h₂
  have d := lexExponent_length h₃
  simp only at a b c d ⊢
  omega

end Blockwork.Json.Number
