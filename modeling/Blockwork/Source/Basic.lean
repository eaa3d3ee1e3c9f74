import Blockwork.Program.Check
import Blockwork.Source.Arduino
import Blockwork.Source.Python

/-! # Sources of programs

* `Source.generate` checks a program and writes it in a language.
-/

namespace Blockwork.Source

set_option autoImplicit false

def write (target : Target) (options : Options) (p : Program) : Except Failure String :=
  match target with
  | .python => .ok (Python.source options p)
  | .arduino => Arduino.source options p

def generate (target : Target) (options : Options) (p : Program) : Except Failure String := do
  p.check.mapError .unresolved
  write target options p

end Blockwork.Source
