/-! # Types of values

* `Ty` is the type of a value. `Ty.captured` is a placeholder: the type is captured from the blocks
  around the value, and is not known yet.
* `Ty.Refines` orders types by what is known about them.
* `Ty.unify` joins what is known about one value from two sides.
-/

namespace Blockwork

set_option autoImplicit false

inductive Ty where
  | number
  | boolean
  | text
  | list (element : Ty)
  | captured
deriving DecidableEq

namespace Ty

def isConcrete : Ty → Bool
  | captured => false
  | list element => element.isConcrete
  | _ => true

def element? : Ty → Option Ty
  | list element => some element
  | _ => none

def elementOrCaptured (t : Ty) : Ty :=
  t.element?.getD captured

def label : Ty → String
  | number => "NUMBER"
  | boolean => "BOOLEAN"
  | text => "STRING"
  | list element => "ARRAY<" ++ element.label ++ ">"
  | captured => "CAPTURED_TYPE"

/-- `a.Refines b` says that `a` knows all that `b` knows: it is `b` with some placeholders filled
in. -/
inductive Refines : Ty → Ty → Prop where
  | captured (a : Ty) : Refines a captured
  | number : Refines number number
  | boolean : Refines boolean boolean
  | text : Refines text text
  | list {a b : Ty} : Refines a b → Refines (list a) (list b)

/-- The type with the knowledge of both sides, where they do not contradict each other. -/
def unify? : Ty → Ty → Option Ty
  | captured, b => some b
  | a, captured => some a
  | list a, list b => (unify? a b).map list
  | number, number => some number
  | boolean, boolean => some boolean
  | text, text => some text
  | _, _ => none

structure Clash where
  expected : Ty
  found : Ty
deriving DecidableEq

def unify (expected found : Ty) : Except Clash Ty :=
  match unify? expected found with
  | some t => .ok t
  | none => .error { expected, found }

/-- Whether a value of type `found` may stand where `expected` is asked for. -/
def accepts (expected found : Ty) : Bool :=
  (unify? expected found).isSome

end Ty

end Blockwork
