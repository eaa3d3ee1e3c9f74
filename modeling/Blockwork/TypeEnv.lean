import Blockwork.Dict
import Blockwork.Error

/-! # Types of variables

Variables are global, so there is one type for each name. While a program is read, what is learned
about the type of a variable is bound at once. Two variables that have to agree, but whose types are
not known yet, are linked, and what either of them learns later is carried over the link in the end.
-/

namespace Blockwork

set_option autoImplicit false

structure Alias where
  target : String
  source : String
  blockId : String
deriving DecidableEq

structure ElementLink where
  item : String
  list : String
  blockId : String
deriving DecidableEq

structure TypeEnv where
  bindings : Dict Ty := []
  aliases : List Alias := []
  elements : List ElementLink := []
deriving DecidableEq

namespace TypeEnv

def lookup (env : TypeEnv) (name : String) : Ty :=
  (Dict.get? name env.bindings).getD .captured

def assign (env : TypeEnv) (name : String) (t : Ty) : TypeEnv :=
  { env with bindings := Dict.insert name t env.bindings }

def bind (env : TypeEnv) (name : String) (t : Ty) (blockId : String) : Except Error (Ty × TypeEnv) :=
  match Ty.unify? (env.lookup name) t with
  | none => .error (.mismatch (env.lookup name) t blockId)
  | some unified => .ok (unified, env.assign name unified)

def equate (env : TypeEnv) (target source blockId : String) : TypeEnv :=
  if target = source then env
  else { env with aliases := env.aliases ++ [{ target, source, blockId }] }

def elementOf (env : TypeEnv) (item list blockId : String) : TypeEnv :=
  { env with elements := env.elements ++ [{ item, list, blockId }] }

/-! ## Carrying types over links -/

def update (env : TypeEnv) (name : String) (old new : Ty) : TypeEnv :=
  if new = old then env else env.assign name new

def carryElement (env : TypeEnv) (link : ElementLink) : Except Error TypeEnv :=
  let item := env.lookup link.item
  let list := env.lookup link.list
  match Ty.unify? list (.list item) with
  | none => .error (.mismatch (.list item) list link.blockId)
  | some unified =>
    .ok ((env.update link.list list unified).update link.item item unified.elementOrCaptured)

def carryAlias (env : TypeEnv) (link : Alias) : Except Error TypeEnv :=
  let target := env.lookup link.target
  let source := env.lookup link.source
  match Ty.unify? target source with
  | none => .error (.mismatch target source link.blockId)
  | some unified => .ok ((env.update link.target target unified).update link.source source unified)

def pass (env : TypeEnv) : Except Error TypeEnv := do
  let env' ← env.elements.foldlM carryElement env
  env.aliases.foldlM carryAlias env'

def depth : Ty → Nat
  | .list element => depth element + 1
  | _ => 0

/-- The passes after which types that can settle have settled. A type never grows deeper than the
deepest type at the start and one list for each link, and every pass but the last adds to some type. -/
def passes (env : TypeEnv) : Nat :=
  let deepest := (env.bindings.map fun (_, t) => depth t).foldl max 0
  let names := env.bindings.length + 2 * (env.aliases.length + env.elements.length)
  names * (deepest + env.elements.length + 2) + 1

/-- The block that is named when types do not settle. -/
def linkId (env : TypeEnv) : String :=
  match env.elements with
  | [] => ""
  | link :: _ => link.blockId

def settleWithin : Nat → TypeEnv → Except Error TypeEnv
  | 0, env => .error (.unsettled env.linkId)
  | n + 1, env => do
    let env' ← env.pass
    if env' = env then return env else settleWithin n env'

def settle (env : TypeEnv) : Except Error TypeEnv :=
  settleWithin env.passes env

end TypeEnv

end Blockwork
