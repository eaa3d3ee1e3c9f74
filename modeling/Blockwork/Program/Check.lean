import Blockwork.Error
import Blockwork.Program.Stmt

/-! # Checking programs

A program that was put together by hand may still have placeholders. Source texts are made only of
programs that pass the check.
-/

namespace Blockwork

set_option autoImplicit false

def Ty.checkConcrete (t : Ty) (blockId : String) : Except Error Ty :=
  if t.isConcrete then .ok t else .error (.unresolved t blockId)

def Var.check (v : Var) : Except Error Ty :=
  v.type.checkConcrete v.attrs.id

namespace Expr

def fits (expected : Ty) (blockId : String) (found : Ty) : Except Error Ty :=
  if expected.accepts found then .ok found else .error (.mismatch expected found blockId)

mutual

def check : Expr → Except Error Ty
  | .var v => v.check
  | .number .. => .ok .number
  | .boolean .. => .ok .boolean
  | .text .. => .ok .text
  | .binary op left right _ => do
    let leftType ← fits op.operandType left.id (← check left)
    let _ ← fits leftType right.id (← check right)
    return op.resultType
  | .unary op operand _ => do
    fits op.operandType operand.id (← check operand)
  | .list element items attrs => do
    let element ← element.checkConcrete attrs.id
    checkElements element items
    return .list element
  | .length operand _ => do
    let _ ← fits (.list .captured) operand.id (← check operand)
    return .number
  | .join items _ => do
    checkAll items
    return .text

def checkElements (element : Ty) : List Expr → Except Error Unit
  | [] => .ok ()
  | item :: rest => do
    let _ ← fits element item.id (← check item)
    checkElements element rest

def checkAll : List Expr → Except Error Unit
  | [] => .ok ()
  | e :: rest => do
    let _ ← check e
    checkAll rest

end

def checkAs (expected : Ty) (e : Expr) : Except Error Unit := do
  let _ ← fits expected e.id (← e.check)

end Expr

namespace Stmt

mutual

def check : Stmt → Except Error Unit
  | .assign target value _ => do
    let t ← target.check
    value.checkAs t
  | .choose branches otherwise _ => do
    checkBranches branches
    checkOtherwise otherwise
  | .repeat times body _ => do
    times.checkAs .number
    checkAll body
  | .loop _ condition body _ => do
    condition.checkAs .boolean
    checkAll body
  | .count counter first last step body _ => do
    let _ ← counter.check
    first.checkAs .number
    last.checkAs .number
    step.checkAs .number
    checkAll body
  | .forEach item list body _ => do
    let t ← item.check
    list.checkAs (.list t)
    checkAll body
  | .flow .. => .ok ()
  | .wait time _ => time.checkAs .number
  | .print text _ => do
    let _ ← text.check

def checkBranches : List (Expr × List Stmt) → Except Error Unit
  | [] => .ok ()
  | (condition, body) :: rest => do
    condition.checkAs .boolean
    checkAll body
    checkBranches rest

def checkOtherwise : Option (List Stmt) → Except Error Unit
  | none => .ok ()
  | some body => checkAll body

def checkAll : List Stmt → Except Error Unit
  | [] => .ok ()
  | s :: rest => do
    check s
    checkAll rest

end

end Stmt

def Root.check : Root → Except Error Unit
  | .statements body => Stmt.checkAll body
  | .value e => do
    let _ ← e.check

def Program.check (p : Program) : Except Error Unit :=
  p.roots.forM Root.check

end Blockwork
