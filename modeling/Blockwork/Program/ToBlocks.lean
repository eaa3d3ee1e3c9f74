import Blockwork.Program.Parts
import Blockwork.Program.Reading

/-! # Blocks from programs

A program is rendered as blocks with the tags, fields and slots by which it is read. The attributes of
each node come back as they are. Only the attributes of the mutation that the program itself decides,
such as the type of a variable or the count of items, are set where the block says otherwise.
-/

namespace Blockwork

set_option autoImplicit false

/-! ## Attributes that a program decides -/

def countOf? (text : String) : Option UInt64 :=
  Text.readUInt64? (Text.trim text)

/-- Whether a kept attribute says what the program says. A blank name of a type is read as if there
were none. Whether there is a last branch is told by its slot, so any count will do for it. -/
def keeps (key kept derived : String) : Bool :=
  if key = "datatype" ∨ key = "list_type" then
    (Text.strip kept.toList).isEmpty
      || ((Ty.ofName? kept).isSome && Ty.ofName? kept == Ty.ofName? derived)
  else if key = "else" then (countOf? kept).isSome
  else (countOf? kept).isSome && countOf? kept == countOf? derived

/-- Sets an attribute of the mutation, unless the one that is there says the same. -/
def Attributes.derive (a : Attributes) (key value : String) : Attributes :=
  let mutation := a.mutation.getD []
  match Dict.get? key mutation with
  | some kept =>
    if keeps key kept value then a else { a with mutation := some (Dict.insert key value mutation) }
  | none => { a with mutation := some (Dict.insert key value mutation) }

def Attributes.deriveType (a : Attributes) (key : String) (t : Ty) : Attributes :=
  match t.name? with
  | some name => a.derive key name
  | none => a

def numbered (slot : Nat → String) : (index : Nat) → List Block → List (String × Block)
  | _, [] => []
  | index, b :: rest => (slot index, b) :: numbered slot (index + 1) rest

def Block.withValues (b : Block) (slots : List (String × Block)) : Block :=
  slots.foldl (fun b (slot, child) => b.withValue slot child) b

def Block.link : List Block → Option Block
  | [] => none
  | b :: rest => some { b with next := link rest }

def Block.withBody (b : Block) (slot : String) (body : List Block) : Block :=
  match Block.link body with
  | some first => b.withStatement slot first
  | none => b

/-! ## Nodes -/

def Var.toBlock (v : Var) : Block :=
  { tag := Tag.var.name, attrs := v.attrs.deriveType "datatype" v.type, fields := [("VAR", v.name)] }

namespace Expr

def truthWord (b : Bool) : String :=
  if b then "TRUE" else "FALSE"

mutual

def toBlock : Expr → Block
  | .var v => v.toBlock
  | .number literal _ attrs => { tag := Tag.number.name, attrs, fields := [("NUM", literal)] }
  | .boolean value attrs => { tag := Tag.boolean.name, attrs, fields := [("BOOL", truthWord value)] }
  | .text value attrs => { tag := Tag.text.name, attrs, fields := [("TEXT", value)] }
  | .binary op left right attrs =>
    { tag := op.tag, attrs, fields := [("OP", op.word)],
      values := [("A", toBlock left), ("B", toBlock right)] }
  | .unary op operand attrs =>
    { tag := op.tag, attrs,
      fields := match op.word? with
        | some word => [("OP", word)]
        | none => [],
      values := [(op.slot, toBlock operand)] }
  | .list element items attrs =>
    let attrs := (attrs.derive "items" (Text.natText items.length)).deriveType "list_type" element
    let b : Block := { tag := Tag.list.name, attrs }
    b.withValues (numbered Block.itemSlot 0 (toBlocks items))
  | .length operand attrs => { tag := Tag.length.name, attrs, values := [("VALUE", toBlock operand)] }
  | .join items attrs =>
    let b : Block := { tag := Tag.join.name, attrs := attrs.derive "items" (Text.natText items.length) }
    b.withValues (numbered Block.itemSlot 0 (toBlocks items))

def toBlocks : List Expr → List Block
  | [] => []
  | e :: rest => toBlock e :: toBlocks rest

end

end Expr

namespace Stmt

def chooseAttrs (attrs : Attributes) (branches : Nat) (hasElse : Bool) : Attributes :=
  let attrs := if 1 < branches then attrs.derive "elseif" (Text.natText (branches - 1)) else attrs
  if hasElse then attrs.derive "else" "1" else attrs

mutual

def toBlock : Stmt → Block
  | .assign target value attrs =>
    { tag := Tag.assign.name, attrs := attrs.deriveType "datatype" target.type,
      fields := [("VAR", target.name)], values := [("VALUE", value.toBlock)] }
  | .choose branches otherwise attrs =>
    let b : Block :=
      { tag := Tag.choose.name, attrs := chooseAttrs attrs branches.length otherwise.isSome }
    (branchesToBlock b 0 branches).withBody "ELSE" (otherwiseToBlocks otherwise)
  | .repeat times body attrs =>
    ({ tag := Tag.repeat.name, attrs, values := [("TIMES", times.toBlock)] } : Block).withBody "DO"
      (toBlocks body)
  | .loop mode condition body attrs =>
    ({ tag := Tag.loop.name, attrs, fields := [("MODE", mode.word)],
       values := [("BOOL", condition.toBlock)] } : Block).withBody "DO" (toBlocks body)
  | .count counter first last step body attrs =>
    ({ tag := Tag.count.name, attrs, fields := [("VAR", counter.name)],
       values := [("BY", step.toBlock), ("FROM", first.toBlock), ("TO", last.toBlock)] } : Block).withBody
      "DO" (toBlocks body)
  | .forEach item list body attrs =>
    ({ tag := Tag.forEach.name, attrs, fields := [("VAR", item.name)],
       values := [("LIST", list.toBlock)] } : Block).withBody "DO" (toBlocks body)
  | .flow choice attrs => { tag := Tag.flow.name, attrs, fields := [("FLOW", choice.word)] }
  | .wait time attrs => { tag := Tag.wait.name, attrs, values := [("WAIT", time.toBlock)] }
  | .print text attrs => { tag := Tag.print.name, attrs, values := [("TEXT", text.toBlock)] }

def branchesToBlock (b : Block) (index : Nat) : List (Expr × List Stmt) → Block
  | [] => b
  | (condition, body) :: rest =>
    branchesToBlock
      ((b.withValue (Block.conditionSlot index) condition.toBlock).withBody (Block.branchSlot index)
        (toBlocks body))
      (index + 1) rest

def otherwiseToBlocks : Option (List Stmt) → List Block
  | none => []
  | some body => toBlocks body

def toBlocks : List Stmt → List Block
  | [] => []
  | s :: rest => toBlock s :: toBlocks rest

end

end Stmt

def Phrase.toBlock : Phrase → Block
  | .statement s => s.toBlock
  | .value e => e.toBlock

def Root.toBlock? : Root → Option Block
  | .statements body => Block.link (Stmt.toBlocks body)
  | .value e => some e.toBlock

def Program.toBlocks (p : Program) : List Block :=
  p.roots.filterMap Root.toBlock?

/-! ## Names of types that cannot be cut -/

/-- The error for a kept name of a type that has to be compared with the name of `t`, but cannot be
cut. -/
def Attributes.brokenName? (a : Attributes) (key : String) (t : Ty) : Option Error :=
  match t.name?, a.mutation? key with
  | some _, some kept =>
    if (Text.strip kept.toList).isEmpty then none
    else if Ty.ofName kept = .broken then some (.brokenTypeName kept a.id)
    else none
  | _, _ => none

def Expr.brokenName? : Expr → Option Error
  | .var v => v.attrs.brokenName? "datatype" v.type
  | .list element _ attrs => attrs.brokenName? "list_type" element
  | _ => none

def Stmt.brokenName? : Stmt → Option Error
  | .assign target _ attrs => attrs.brokenName? "datatype" target.type
  | _ => none

def Program.brokenName? (p : Program) : Option Error :=
  p.roots.findSome? fun root =>
    (root.exprs.findSome? Expr.brokenName?).or (root.stmts.findSome? Stmt.brokenName?)

def Program.toBlocks? (p : Program) : Except Error (List Block) :=
  match p.brokenName? with
  | some e => .error e
  | none => .ok p.toBlocks

end Blockwork
