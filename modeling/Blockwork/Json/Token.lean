import Blockwork.Json.Number

/-! # Tokens of JSON texts

* `Json.Token` are the marks, words, numbers and strings of a text.
* `Json.Token.lex` cuts one token off the front of a text.
* `Json.Token.scan` cuts a whole text into tokens; blanks between them are skipped.
-/

namespace Blockwork.Json

set_option autoImplicit false

inductive Token where
  | beginArray
  | endArray
  | beginObject
  | endObject
  | comma
  | colon
  | null
  | bool (b : Bool)
  | number (n : Number)
  | text (s : String)
deriving DecidableEq

namespace Token

def isSpace (c : Char) : Bool :=
  c == ' ' || c == '\t' || c == '\n' || c == '\r'

/-! ## Strings -/

def hexValue? (c : Char) : Option Nat :=
  if '0' ≤ c ∧ c ≤ '9' then some (c.toNat - '0'.toNat)
  else if 'a' ≤ c ∧ c ≤ 'f' then some (c.toNat - 'a'.toNat + 10)
  else if 'A' ≤ c ∧ c ≤ 'F' then some (c.toNat - 'A'.toNat + 10)
  else none

def hexFour? : List Char → Option (Nat × List Char)
  | a :: b :: c :: d :: cs => do
    let a ← hexValue? a
    let b ← hexValue? b
    let c ← hexValue? c
    let d ← hexValue? d
    return (((a * 16 + b) * 16 + c) * 16 + d, cs)
  | _ => none

def lowSurrogate? (high : Nat) : List Char → Option (Char × List Char)
  | '\\' :: 'u' :: cs => do
    let (low, cs) ← hexFour? cs
    if 0xdc00 ≤ low ∧ low < 0xe000 then
      return (Char.ofNat (0x10000 + (high - 0xd800) * 0x400 + (low - 0xdc00)), cs)
    else none
  | _ => none

/-- Takes a character by its code in hexadecimal digits. A surrogate must be the first half of a
pair, and the second half follows. -/
def unicode? (cs : List Char) : Option (Char × List Char) := do
  let (code, cs) ← hexFour? cs
  if 0xd800 ≤ code ∧ code < 0xdc00 then lowSurrogate? code cs
  else if 0xdc00 ≤ code ∧ code < 0xe000 then none
  else return (Char.ofNat code, cs)

def escape? : List Char → Option (Char × List Char)
  | '"' :: cs => some ('"', cs)
  | '\\' :: cs => some ('\\', cs)
  | '/' :: cs => some ('/', cs)
  | 'b' :: cs => some ('\x08', cs)
  | 'f' :: cs => some ('\x0c', cs)
  | 'n' :: cs => some ('\n', cs)
  | 'r' :: cs => some ('\r', cs)
  | 't' :: cs => some ('\t', cs)
  | 'u' :: cs => unicode? cs
  | _ => none

def stringChar? : List Char → Option (Option Char × List Char)
  | [] => none
  | c :: cs =>
    if c = '"' then some (none, cs)
    else if c = '\\' then (escape? cs).map fun (c, cs) => (some c, cs)
    else if c.toNat < 0x20 then none
    else some (some c, cs)

theorem hexFour?_length {cs rest : List Char} {n : Nat} (h : hexFour? cs = some (n, rest)) :
    rest.length < cs.length := by
  unfold hexFour? at h
  split at h
  · simp only [bind, Option.bind_eq_some_iff, pure, Option.some.injEq, Prod.mk.injEq] at h
    obtain ⟨_, _, _, _, _, _, _, _, _, rfl⟩ := h
    simp only [List.length_cons]
    omega
  · cases h

theorem lowSurrogate?_length {high : Nat} {cs rest : List Char} {c : Char}
    (h : lowSurrogate? high cs = some (c, rest)) : rest.length < cs.length := by
  unfold lowSurrogate? at h
  split at h
  · simp only [bind, Option.bind_eq_some_iff] at h
    obtain ⟨⟨low, cs'⟩, h₁, h₂⟩ := h
    have size := hexFour?_length h₁
    simp only at h₂
    split at h₂
    · simp only [pure, Option.some.injEq, Prod.mk.injEq] at h₂
      obtain ⟨_, rfl⟩ := h₂
      simp only [List.length_cons]
      omega
    · cases h₂
  · cases h

theorem unicode?_length {cs rest : List Char} {c : Char} (h : unicode? cs = some (c, rest)) :
    rest.length < cs.length := by
  unfold unicode? at h
  simp only [bind, Option.bind_eq_some_iff] at h
  obtain ⟨⟨code, cs'⟩, h₁, h₂⟩ := h
  have size := hexFour?_length h₁
  simp only at h₂
  split at h₂
  · exact Nat.lt_trans (lowSurrogate?_length h₂) size
  · split at h₂
    · cases h₂
    · simp only [pure, Option.some.injEq, Prod.mk.injEq] at h₂
      obtain ⟨_, rfl⟩ := h₂
      exact size

theorem escape?_length {cs rest : List Char} {c : Char} (h : escape? cs = some (c, rest)) :
    rest.length < cs.length := by
  unfold escape? at h
  split at h
  case h_9 cs =>
    have := unicode?_length h
    simp only [List.length_cons]
    omega
  case h_10 => cases h
  all_goals
    simp only [Option.some.injEq, Prod.mk.injEq] at h
    obtain ⟨_, rfl⟩ := h
    simp

theorem stringChar?_length {cs rest : List Char} {c : Option Char}
    (h : stringChar? cs = some (c, rest)) : rest.length < cs.length := by
  unfold stringChar? at h
  split at h
  · cases h
  · next c cs =>
    split at h
    · simp only [Option.some.injEq, Prod.mk.injEq] at h
      obtain ⟨_, rfl⟩ := h
      simp
    · split at h
      · simp only [Option.map_eq_some_iff] at h
        obtain ⟨⟨d, cs'⟩, h₁, h₂⟩ := h
        have := escape?_length h₁
        simp only [Prod.mk.injEq] at h₂
        obtain ⟨_, rfl⟩ := h₂
        simp only [List.length_cons]
        omega
      · split at h
        · cases h
        · simp only [Option.some.injEq, Prod.mk.injEq] at h
          obtain ⟨_, rfl⟩ := h
          simp

def stringBody? (cs : List Char) : Option (List Char × List Char) :=
  match _h : stringChar? cs with
  | none => none
  | some (none, rest) => some ([], rest)
  | some (some c, rest) =>
    match stringBody? rest with
    | none => none
    | some (body, rest') => some (c :: body, rest')
termination_by cs.length
decreasing_by exact stringChar?_length _h

theorem stringBody?_length {cs : List Char} :
    ∀ {body rest : List Char}, stringBody? cs = some (body, rest) → rest.length < cs.length := by
  fun_induction stringBody? cs with
  | case1 => intro _ _ h; cases h
  | case2 cs rest h₁ =>
    intro _ _ h
    simp only [Option.some.injEq, Prod.mk.injEq] at h
    obtain ⟨_, rfl⟩ := h
    exact stringChar?_length h₁
  | case3 => intro _ _ h; cases h
  | case4 cs c rest h₁ body rest' h₂ ih =>
    intro _ _ h
    simp only [Option.some.injEq, Prod.mk.injEq] at h
    obtain ⟨_, rfl⟩ := h
    exact Nat.lt_trans (ih h₂) (stringChar?_length h₁)

/-! ## One token -/

def lexNumber (cs : List Char) : Option (Token × List Char) := do
  let (l, cs) ← Number.lex cs
  let n ← l.value?
  return (.number n, cs)

def lex : List Char → Option (Token × List Char)
  | '[' :: cs => some (.beginArray, cs)
  | ']' :: cs => some (.endArray, cs)
  | '\x7b' :: cs => some (.beginObject, cs)
  | '\x7d' :: cs => some (.endObject, cs)
  | ',' :: cs => some (.comma, cs)
  | ':' :: cs => some (.colon, cs)
  | '"' :: cs => (stringBody? cs).map fun (body, cs) => (.text (String.ofList body), cs)
  | 'n' :: 'u' :: 'l' :: 'l' :: cs => some (.null, cs)
  | 't' :: 'r' :: 'u' :: 'e' :: cs => some (.bool true, cs)
  | 'f' :: 'a' :: 'l' :: 's' :: 'e' :: cs => some (.bool false, cs)
  | cs => lexNumber cs

theorem lexNumber_length {cs rest : List Char} {t : Token} (h : lexNumber cs = some (t, rest)) :
    rest.length < cs.length := by
  unfold lexNumber at h
  simp only [bind, Option.bind_eq_some_iff, pure, Option.some.injEq, Prod.mk.injEq] at h
  obtain ⟨⟨l, cs'⟩, h₁, _, _, _, rfl⟩ := h
  exact Number.lex_length h₁

theorem lex_length {cs rest : List Char} {t : Token} (h : lex cs = some (t, rest)) :
    rest.length < cs.length := by
  unfold lex at h
  split at h
  case h_7 cs =>
    simp only [Option.map_eq_some_iff] at h
    obtain ⟨⟨body, cs'⟩, h₁, h₂⟩ := h
    have := stringBody?_length h₁
    simp only [Prod.mk.injEq] at h₂
    obtain ⟨_, rfl⟩ := h₂
    simp only [List.length_cons]
    omega
  case h_11 => exact lexNumber_length h
  all_goals
    simp only [Option.some.injEq, Prod.mk.injEq] at h
    obtain ⟨_, rfl⟩ := h
    simp only [List.length_cons]
    omega

/-! ## All tokens -/

def scan (cs : List Char) : Option (List Token) :=
  match _h : cs.dropWhile isSpace with
  | [] => some []
  | c :: cs' =>
    match _h' : lex (c :: cs') with
    | none => none
    | some (t, rest) => (scan rest).map (t :: ·)
termination_by cs.length
decreasing_by
  have h₁ := lex_length _h'
  have h₂ := Number.length_dropWhile_le isSpace cs
  rw [_h] at h₂
  omega

end Token

end Blockwork.Json
