import Blockwork.Text.Digit

/-! # Fresh identifiers

A block without an identifier gets one from a counter, `gen-1`, `gen-2` and so on. Identifiers that
are taken are passed over.
-/

namespace Blockwork.Block

set_option autoImplicit false

def generatedId (n : Nat) : String :=
  "gen-" ++ Text.natText n

/-- The first count above `count` whose identifier is not taken. Among one more candidates than
there are taken identifiers, one is free. -/
def fresh (count : Nat) (taken : List String) : Nat :=
  match (List.range (taken.length + 1)).find? fun k => !taken.contains (generatedId (count + 1 + k)) with
  | some k => count + 1 + k
  | none => count + 1

end Blockwork.Block
