import Blockwork.Program.Stmt
import Blockwork.Program.Tag
import Blockwork.Text.Whole
import Blockwork.Ty.Name
import Blockwork.TypeEnv

/-! # Reading blocks

A block is read by the rule of its tag. A rule reads the fields and the mutation of the block, reads
the blocks in its slots, and makes a node. What is learned about the types of variables goes into an
environment that survives an error.
-/

namespace Blockwork

set_option autoImplicit false

abbrev Reading := ExceptT Error (StateM TypeEnv)

namespace Reading

def ofExcept {α : Type} (r : Except Error α) : Reading α :=
  ExceptT.mk (pure r)

def runFrom {α : Type} (r : Reading α) (env : TypeEnv) : Except Error α × TypeEnv :=
  StateT.run r.run env

def node {α : Type} (r : Except Defect α) : Reading α :=
  ofExcept (r.mapError .defect)

def bind (name : String) (t : Ty) (blockId : String) : Reading Ty := do
  let env ← get
  let (unified, env') ← ofExcept (env.bind name t blockId)
  set env'
  return unified

def lookup (name : String) : Reading Ty := do
  return (← get).lookup name

def unify (expected found : Ty) (blockId : String) : Reading Ty :=
  match Ty.unify? expected found with
  | some t => pure t
  | none => throw (.mismatch expected found blockId)

mutual

/-- Asks for a type of a value. What this says about a variable is bound, and it goes on to the items
of a list. -/
def constrain : Expr → Ty → Reading Unit
  | .var v, expected => do
    let unified ← unify expected v.type v.attrs.id
    if unified ≠ v.type then
      let _ ← bind v.name unified v.attrs.id
  | .list element items attrs, expected => do
    let unified ← unify expected (.list element) attrs.id
    match unified.element? with
    | some t => constrainAll items t
    | none => pure ()
  | e, expected => do
    let _ ← unify expected e.type e.id

def constrainAll : List Expr → Ty → Reading Unit
  | [], _ => pure ()
  | e :: rest, expected => do
    constrain e expected
    constrainAll rest expected

end

end Reading

namespace Block

open Reading (constrain node)

/-! ## Fields and mutations -/

def requiredField (b : Block) (name : String) : Except Error String :=
  match b.field? name with
  | some value => .ok value
  | none => .error (.missingField name b.id)

def requiredName (b : Block) : Except Error String := do
  let name ← b.requiredField "VAR"
  if (Text.strip name.toList).isEmpty then throw (.invalidField "VAR" name b.id)
  return name

def requiredWord {α : Type} (b : Block) (field : String) (ofWord? : String → Option α) :
    Except Error α := do
  let word ← b.requiredField field
  match ofWord? word with
  | some a => return a
  | none => throw (.invalidField field word b.id)

def writtenAttribute? (b : Block) (key : String) : Option String :=
  match b.attrs.mutation? key with
  | none => none
  | some value => if (Text.trim value).isEmpty then none else some (Text.trim value)

def declaredType (b : Block) (key : String) : Except Error (Option Ty) :=
  match b.writtenAttribute? key with
  | none => .ok none
  | some name =>
    match Ty.ofName name with
    | .known t => .ok (some t)
    | .unknown => .error (.invalidField ("mutation." ++ key) name b.id)
    | .broken => .error (.brokenTypeName name b.id)

def declaredCount (b : Block) (key : String) : Except Error (Option Nat) :=
  match b.writtenAttribute? key with
  | none => .ok none
  | some text =>
    match Text.readUInt64? text with
    | some n => .ok (some n.toNat)
    | none => .error (.invalidField ("mutation." ++ key) text b.id)

def boundedCount (b : Block) (key : String) (limit : Nat) : Except Error (Option Nat) := do
  match ← b.declaredCount key with
  | none => return none
  | some n =>
    if limit < n then
      throw (.invalidField ("mutation." ++ key) ((b.attrs.mutation? key).getD "") b.id)
    return some n

def itemSlot (i : Nat) : String :=
  "ADD" ++ Text.natText i

def conditionSlot (i : Nat) : String :=
  "IF" ++ Text.natText i

def branchSlot (i : Nat) : String :=
  "DO" ++ Text.natText i

/-- The count of items: the one declared, or else the items that are there without a gap. A declared
count cannot be above the count of value slots. -/
def itemCount (b : Block) : Except Error Nat := do
  match ← b.boundedCount "items" b.values.length with
  | some n => return n
  | none =>
    return ((List.range (b.values.length + 1)).takeWhile fun i => (b.value? (itemSlot i)).isSome).length

def refuseOthers (b : Block) (values statements : List String) : Except Error Unit :=
  match ((Dict.keys b.values).find? fun slot => !values.contains slot).or
      ((Dict.keys b.statements).find? fun slot => !statements.contains slot) with
  | some slot => .error (.malformed b.id (.unexpectedInput slot))
  | none => .ok ()

def nodeAttrs (b : Block) : Attributes :=
  { b.attrs with comment := b.attrs.writtenComment }

def varAttrs (b : Block) : Attributes :=
  { b.attrs with comment := none }

/-! ## Blocks in slots -/

abbrev Inner (b : Block) := (child : Block) → sizeOf child < sizeOf b → Reading Phrase

/-- A value, when a value is asked for. No block comes next after a value. -/
def asExpr (b : Block) (read : Reading Phrase) : Reading Expr :=
  match b.next with
  | some _ => throw (.malformed b.id .valueWithNext)
  | none => do
    match ← read with
    | .value e => return e
    | .statement _ => throw (.malformed b.id (.statementAsValue b.tag))

def asStmt (b : Block) (read : Reading Phrase) : Reading Stmt := do
  match ← read with
  | .statement s => return s
  | .value _ => throw (.malformed b.id (.valueAsStatement b.tag))

def valueIn (b : Block) (inner : Inner b) (slot : String) (expected : Ty) : Reading Expr :=
  match h : b.value? slot with
  | none => throw (.missingSlot slot b.id)
  | some child => do
    let e ← child.asExpr (inner child (sizeOf_value_lt h))
    constrain e expected
    return e

mutual

theorem sizeOf_le_of_mem_chain {b c : Block} (h : c ∈ b.chain) : sizeOf c ≤ sizeOf b := by
  match b, h with
  | ⟨tag, attrs, fields, values, statements, next⟩, h =>
    unfold chain at h
    rcases List.mem_cons.1 h with rfl | h
    · exact Nat.le_refl _
    · have := sizeOf_le_of_mem_chainFrom h
      simp only [Block.mk.sizeOf_spec]
      omega

theorem sizeOf_le_of_mem_chainFrom {next : Option Block} {c : Block} (h : c ∈ chainFrom next) :
    sizeOf c ≤ sizeOf next := by
  match next, h with
  | none, h => unfold chainFrom at h; cases h
  | some b, h =>
    unfold chainFrom at h
    have := sizeOf_le_of_mem_chain h
    simp only [Option.some.sizeOf_spec]
    omega

end

def statementsIn (b : Block) (inner : Inner b) (slot : String) : Reading (List Stmt) :=
  match h : b.statement? slot with
  | none => pure []
  | some first =>
    first.chain.attach.mapM fun ⟨c, hc⟩ =>
      c.asStmt (inner c (Nat.lt_of_le_of_lt (sizeOf_le_of_mem_chain hc) (sizeOf_statement_lt h)))

/-! ## Rules -/

def readAssign (b : Block) (inner : Inner b) : Reading Stmt := do
  let name ← Reading.ofExcept b.requiredName
  let declared ← Reading.ofExcept (b.declaredType "datatype")
  let value ← b.valueIn inner "VALUE" .captured
  if let some t := declared then
    let _ ← Reading.bind name t b.id
  let target ← Reading.lookup name
  let t ← Reading.unify target value.type b.id
  let _ ← Reading.bind name t b.id
  constrain value t
  if let .var source := value then
    if !t.isConcrete then
      modify fun env => env.equate name source.name b.id
  let target ← node (Var.make name t b.varAttrs)
  node (Stmt.makeAssign target value b.nodeAttrs)

def readBranches (b : Block) (inner : Inner b) : List Nat → Reading (List Expr × List (List Stmt))
  | [] => pure ([], [])
  | i :: rest => do
    let condition ← b.valueIn inner (conditionSlot i) .boolean
    let body ← b.statementsIn inner (branchSlot i)
    let (conditions, bodies) ← readBranches b inner rest
    return (condition :: conditions, body :: bodies)

/-- A choice has as many further branches as its mutation says. Its last branch is there if its
mutation says so, or if the slot is filled. -/
def readChoose (b : Block) (inner : Inner b) : Reading Stmt := do
  let further ← Reading.ofExcept (b.boundedCount "elseif" (b.values.length - 1))
  let branches := List.range (further.getD 0 + 1)
  let otherwise ← Reading.ofExcept (b.declaredCount "else")
  let hasElse := 0 < otherwise.getD 0 || (b.statement? "ELSE").isSome
  let (conditions, bodies) ← b.readBranches inner branches
  let last ← if hasElse then do pure (some (← b.statementsIn inner "ELSE")) else pure none
  Reading.ofExcept
    (b.refuseOthers (branches.map conditionSlot) (branches.map branchSlot ++ ["ELSE"]))
  node (Stmt.makeChoose conditions bodies last b.nodeAttrs)

def readRepeat (b : Block) (inner : Inner b) : Reading Stmt := do
  let times ← b.valueIn inner "TIMES" .number
  let body ← b.statementsIn inner "DO"
  node (Stmt.makeRepeat times body b.nodeAttrs)

def readLoop (b : Block) (inner : Inner b) : Reading Stmt := do
  let mode ← Reading.ofExcept (b.requiredWord "MODE" LoopMode.ofWord?)
  let condition ← b.valueIn inner "BOOL" .boolean
  let body ← b.statementsIn inner "DO"
  node (Stmt.makeLoop mode condition body b.nodeAttrs)

def readCount (b : Block) (inner : Inner b) : Reading Stmt := do
  let name ← Reading.ofExcept b.requiredName
  let t ← Reading.bind name .number b.id
  let first ← b.valueIn inner "FROM" .number
  let last ← b.valueIn inner "TO" .number
  let step ← b.valueIn inner "BY" .number
  let body ← b.statementsIn inner "DO"
  let counter ← node (Var.make name t b.varAttrs)
  node (Stmt.makeCount counter first last step body b.nodeAttrs)

def readForEach (b : Block) (inner : Inner b) : Reading Stmt := do
  let name ← Reading.ofExcept b.requiredName
  let expected := Ty.list (← Reading.lookup name)
  let list ← b.valueIn inner "LIST" expected
  let t ← Reading.bind name list.type.elementOrCaptured b.id
  if let .var source := list then
    if !t.isConcrete then
      modify fun env => env.elementOf name source.name b.id
  let body ← b.statementsIn inner "DO"
  let item ← node (Var.make name t b.varAttrs)
  node (Stmt.makeForEach item list body b.nodeAttrs)

def readFlow (b : Block) : Reading Stmt := do
  let flow ← Reading.ofExcept (b.requiredWord "FLOW" Flow.ofWord?)
  return .flow flow b.nodeAttrs

def readWait (b : Block) (inner : Inner b) : Reading Stmt := do
  let time ← b.valueIn inner "WAIT" .number
  node (Stmt.makeWait time b.nodeAttrs)

def readPrint (b : Block) (inner : Inner b) : Reading Stmt := do
  let text ← b.valueIn inner "TEXT" .captured
  return .print text b.nodeAttrs

def readVar (b : Block) : Reading Expr := do
  let name ← Reading.ofExcept b.requiredName
  if let some t ← Reading.ofExcept (b.declaredType "datatype") then
    let _ ← Reading.bind name t b.id
  let t ← Reading.lookup name
  let v ← node (Var.make name t b.nodeAttrs)
  return .var v

def readNumber (b : Block) : Reading Expr := do
  let literal ← Reading.ofExcept (b.requiredField "NUM")
  match Expr.makeNumber literal b.nodeAttrs with
  | .ok e => return e
  | .error _ => throw (.invalidField "NUM" literal b.id)

def truth? (word : String) : Option Bool :=
  if word = "TRUE" then some true else if word = "FALSE" then some false else none

def readBoolean (b : Block) : Reading Expr := do
  let value ← Reading.ofExcept (b.requiredWord "BOOL" truth?)
  return .boolean value b.nodeAttrs

def readText (b : Block) : Reading Expr := do
  let value ← Reading.ofExcept (b.requiredField "TEXT")
  return .text value b.nodeAttrs

def readBinary (b : Block) (inner : Inner b) : Reading Expr := do
  let op ← Reading.ofExcept (b.requiredWord "OP" (BinaryOp.ofWord? b.tag))
  let left ← b.valueIn inner "A" op.operandType
  let right ← b.valueIn inner "B" op.operandType
  if op.isEquality then
    let shared ← Reading.unify left.type right.type right.id
    constrain left shared
    constrain right shared
    match left, right with
    | .var v, .var w =>
      if !shared.isConcrete then
        modify fun env => env.equate v.name w.name b.id
    | _, _ => pure ()
  node (Expr.makeBinary op left right b.nodeAttrs)

def readUnary (b : Block) (inner : Inner b) (op : UnaryOp) : Reading Expr := do
  let operand ← b.valueIn inner op.slot op.operandType
  node (Expr.makeUnary op operand b.nodeAttrs)

def readFunction (b : Block) (inner : Inner b) : Reading Expr := do
  let op ← Reading.ofExcept (b.requiredWord "OP" UnaryOp.ofWord?)
  b.readUnary inner op

/-- The slots of the items; no other slot is filled. -/
def itemSlots (b : Block) : Except Error (List String) := do
  let n ← b.itemCount
  let slots := (List.range n).map itemSlot
  b.refuseOthers slots []
  return slots

/-- Reads items of one type. What is known about the type grows from item to item. -/
def readElements (b : Block) (inner : Inner b) (element : Ty) : List String → Reading (Ty × List Expr)
  | [] => pure (element, [])
  | slot :: rest => do
    let item ← b.valueIn inner slot element
    let t ← Reading.unify element item.type item.id
    let (final, items) ← readElements b inner t rest
    return (final, item :: items)

def readList (b : Block) (inner : Inner b) : Reading Expr := do
  let declared ← Reading.ofExcept (b.declaredType "list_type")
  let slots ← Reading.ofExcept b.itemSlots
  let (element, items) ← b.readElements inner (declared.getD .captured) slots
  node (Expr.makeList element items b.nodeAttrs)

def readLength (b : Block) (inner : Inner b) : Reading Expr := do
  let list ← b.valueIn inner "VALUE" (.list .captured)
  node (Expr.makeLength list b.nodeAttrs)

def readJoin (b : Block) (inner : Inner b) : Reading Expr := do
  let slots ← Reading.ofExcept b.itemSlots
  let items ← slots.mapM fun slot => b.valueIn inner slot .captured
  return .join items b.nodeAttrs

def statement (r : Reading Stmt) : Reading Phrase := do
  return .statement (← r)

def value (r : Reading Expr) : Reading Phrase := do
  return .value (← r)

def rule (b : Block) (inner : Inner b) : Tag → Reading Phrase
  | .assign => statement (b.readAssign inner)
  | .choose => statement (b.readChoose inner)
  | .repeat => statement (b.readRepeat inner)
  | .loop => statement (b.readLoop inner)
  | .count => statement (b.readCount inner)
  | .forEach => statement (b.readForEach inner)
  | .flow => statement b.readFlow
  | .wait => statement (b.readWait inner)
  | .print => statement (b.readPrint inner)
  | .var => value b.readVar
  | .number => value b.readNumber
  | .boolean => value b.readBoolean
  | .text => value b.readText
  | .arithmetic | .compare | .logic => value (b.readBinary inner)
  | .negate => value (b.readUnary inner .not)
  | .function => value (b.readFunction inner)
  | .list => value (b.readList inner)
  | .length => value (b.readLength inner)
  | .join => value (b.readJoin inner)

def read (b : Block) : Reading Phrase :=
  match Tag.ofName? b.tag with
  | none => throw (.unknownTag b.tag b.id)
  | some tag => b.rule (fun child _ => child.read) tag
termination_by sizeOf b

/-! ## Where something is asked for -/

def readStmt (b : Block) : Reading Stmt :=
  b.asStmt b.read

def readExpr (b : Block) : Reading Expr :=
  b.asExpr b.read

def readChain (b : Block) : Reading (List Stmt) :=
  b.chain.mapM readStmt

def readValue (b : Block) (slot : String) (expected : Ty) : Reading Expr :=
  b.valueIn (fun child _ => child.read) slot expected

def readStatements (b : Block) (slot : String) : Reading (List Stmt) :=
  b.statementsIn (fun child _ => child.read) slot

end Block

end Blockwork
