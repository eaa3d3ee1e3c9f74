import Blockwork.Text.Ascii
import Blockwork.Text.Blank
import Blockwork.Ty.Basic

/-! # Names of types in blocks

Blocks name a type in an attribute: `Number`, `Boolean`, `String`, and `Array_` before the name of
the element type. Reading ignores the case of letters and blanks around each part.

A list name is told by its first six bytes in UTF-8. Where these end inside a character the name
cannot be cut, and reading it is `Ty.Reading.broken`.
-/

namespace Blockwork.Ty

set_option autoImplicit false

def name? : Ty → Option String
  | number => some "Number"
  | boolean => some "Boolean"
  | text => some "String"
  | list element => element.name?.map ("Array_" ++ ·)
  | captured => none

inductive Reading where
  | known (type : Ty)
  | unknown
  /-- A name that cannot be cut after six bytes. -/
  | broken
deriving DecidableEq

def Reading.type? : Reading → Option Ty
  | known t => some t
  | _ => none

def Reading.list : Reading → Reading
  | known t => known (.list t)
  | r => r

def byteSize : List Char → Nat
  | [] => 0
  | c :: cs => c.utf8Size + byteSize cs

/-- Cuts after `n` bytes of UTF-8; fails inside a character and beyond the end. -/
def cutBytes? : Nat → List Char → Option (List Char × List Char)
  | 0, cs => some ([], cs)
  | _, [] => none
  | n, c :: cs =>
    if c.utf8Size ≤ n then (cutBytes? (n - c.utf8Size) cs).map fun (front, rest) => (c :: front, rest)
    else none

theorem cutBytes?_append {n : Nat} {cs front rest : List Char}
    (h : cutBytes? n cs = some (front, rest)) : front ++ rest = cs := by
  fun_induction cutBytes? n cs generalizing front rest with
  | case1 cs => simp_all
  | case2 => cases h
  | case3 n c cs _ hle ih =>
    simp only [Option.map_eq_some_iff, Prod.mk.injEq, Prod.exists] at h
    obtain ⟨front', rest', h', rfl, rfl⟩ := h
    simp [ih h']
  | case4 => cases h

/-- A name without the blanks at its ends and in small letters, as a base type. -/
def ofBaseName? (cs : List Char) : Option Ty :=
  let word := cs.map Text.lowerChar
  if word = "number".toList then some .number
  else if word = "boolean".toList then some .boolean
  else if word = "string".toList then some .text
  else none

def ofBase (cs : List Char) : Reading :=
  match ofBaseName? cs with
  | some t => .known t
  | none => .unknown

def listMark : List Char := "array_".toList

theorem length_strip_le (cs : List Char) : (Text.strip cs).length ≤ cs.length := by
  unfold Text.strip Text.dropBlankEnd
  have h₁ := (List.dropWhile_sublist Text.isBlank (l := cs)).length_le
  have h₂ := (List.dropWhile_sublist Text.isBlank
    (l := (cs.dropWhile Text.isBlank).reverse)).length_le
  simp only [List.length_reverse] at *
  omega

def ofChars (cs : List Char) : Reading :=
  let word := Text.strip cs
  if byteSize word ≤ 6 then ofBase word
  else
    match _h : cutBytes? 6 word with
    | none => .broken
    | some (front, rest) =>
      if _hm : front.map Text.lowerChar = listMark then (ofChars rest).list else ofBase word
termination_by cs.length
decreasing_by
  have h₁ := congrArg List.length (cutBytes?_append _h)
  have h₂ := length_strip_le cs
  have h₃ : (front.map Text.lowerChar).length = 6 := by
    rw [_hm]; rfl
  simp only [List.length_append, List.length_map] at h₁ h₃
  simp only [word] at h₁
  omega

def ofName (name : String) : Reading :=
  ofChars name.toList

def ofName? (name : String) : Option Ty :=
  (ofName name).type?

end Blockwork.Ty
