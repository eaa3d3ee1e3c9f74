import Blockwork.Error
import Blockwork.Program.Stmt

/-! # Targets of source texts

* `Target` are the languages of source texts.
* `Source.Options` are the choices in writing one.
* `Source.Failure` is why a program has no source text.
-/

namespace Blockwork

set_option autoImplicit false

inductive Target where
  | python
  | arduino
deriving DecidableEq

def Target.name : Target → String
  | python => "Python"
  | arduino => "Arduino"

namespace Source

/-- Choices in writing a source text: the blanks of a level, and whether disabled roots are written. -/
structure Options where
  indent : Nat := 4
  includeDisabled : Bool := false

def activeRoots (options : Options) (p : Program) : List Root :=
  p.roots.filter fun root => options.includeDisabled || !root.isDisabled

inductive Construct where
  | floatingExpression
  | nestedLists
deriving DecidableEq

def Construct.words : Construct → String
  | floatingExpression => "a floating expression"
  | nestedLists => "nested lists"

inductive Failure where
  | unresolved (e : Error)
  | unsupported (target : Target) (construct : Construct) (blockId : String)
deriving DecidableEq

def Failure.message : Failure → String
  | unresolved e => e.message
  | unsupported target construct id =>
    target.name ++ " cannot express " ++ construct.words ++ " (block '" ++ id ++ "')."

end Source

end Blockwork
