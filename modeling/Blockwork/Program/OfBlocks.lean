import Blockwork.Program.Reading
import Blockwork.Program.Resolve

/-! # Programs from blocks

* `Program.ofBlocks` reads all roots of a workspace, and resolves types over the whole program.
* `Phrase.ofBlock` reads one block by itself.
-/

namespace Blockwork

set_option autoImplicit false

/-- Reads a root: statements, or a value if values may lie on a workspace by themselves. -/
def Block.readRoot (allowFloating : Bool) (b : Block) : Reading Root := do
  match ← b.read with
  | .statement first => do
    let rest ← (chainFrom b.next).mapM readStmt
    return .statements (first :: rest)
  | .value e =>
    if b.next.isSome then throw (.malformed b.id .valueWithNext)
    else if allowFloating then return .value e
    else throw (.malformed b.id (.floatingValue b.tag))

def Block.readRoots (allowFloating : Bool) (blocks : List Block) : Reading (List Root) :=
  blocks.mapM (Block.readRoot allowFloating)

def Program.readFrom (env : TypeEnv) (blocks : List Block) (allowFloating : Bool) :
    Except Error Program :=
  match (Block.readRoots allowFloating blocks).runFrom env with
  | (.ok roots, env) => Program.resolve env { roots }
  | (.error e, _) => .error e

def Program.ofBlocks (blocks : List Block) (allowFloating : Bool) : Except Error Program :=
  Program.readFrom {} blocks allowFloating

def Phrase.resolve (env : TypeEnv) : Phrase → Except Error Phrase
  | .statement s => do
    let env ← env.settle
    let s ← s.resolve env
    return .statement s
  | .value e => do
    let env ← env.settle
    let e ← e.resolve env .captured
    return .value e

def Phrase.ofBlock (b : Block) : Except Error Phrase :=
  match b.read.runFrom {} with
  | (.ok phrase, env) => phrase.resolve env
  | (.error e, _) => .error e

end Blockwork
