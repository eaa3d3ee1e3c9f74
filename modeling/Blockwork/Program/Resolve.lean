import Blockwork.Program.Stmt
import Blockwork.TypeEnv

/-! # Resolving types

Once a whole program was read, every placeholder is filled in from the environment. All nodes are made
anew, so that they fit together with the types they have then.
-/

namespace Blockwork

set_option autoImplicit false

def remade {α : Type} (r : Except Defect α) : Except Error α :=
  r.mapError .defect

def Expr.expect (expected : Ty) (e : Expr) : Except Error Expr :=
  if expected.accepts e.type then .ok e else .error (.mismatch expected e.type e.id)

def Var.resolve (env : TypeEnv) (v : Var) : Except Error Var :=
  match Ty.unify? v.type (env.lookup v.name) with
  | none => .error (.mismatch v.type (env.lookup v.name) v.attrs.id)
  | some t =>
    if t.isConcrete then remade (Var.make v.name t v.attrs) else .error (.unresolved t v.attrs.id)

namespace Expr

/-- The types that the two sides of an operator ask of each other. -/
def hints (op : BinaryOp) (left right : Expr) : Ty × Ty :=
  if op.isEquality then (right.type, left.type) else (op.operandType, op.operandType)

mutual

def resolve (env : TypeEnv) (expected : Ty) : Expr → Except Error Expr
  | .var v => do
    let v' ← v.resolve env
    return .var v'
  | .number literal value attrs => .ok (.number literal value attrs)
  | .boolean value attrs => .ok (.boolean value attrs)
  | .text value attrs => .ok (.text value attrs)
  | .binary op left right attrs => do
    let (leftHint, rightHint) := hints op left right
    let left ← (← resolve env leftHint left).expect op.operandType
    let right ← (← resolve env rightHint right).expect op.operandType
    if left.type.accepts right.type then remade (makeBinary op left right attrs)
    else throw (.mismatch left.type right.type attrs.id)
  | .unary op operand attrs => do
    let operand ← (← resolve env op.operandType operand).expect op.operandType
    remade (makeUnary op operand attrs)
  | .list element items attrs => do
    let start := (Ty.unify? element expected.elementOrCaptured).getD element
    let (element, items) ← resolveElements env start items
    if element.isConcrete then remade (makeList element items attrs)
    else throw (.unresolved (.list element) attrs.id)
  | .length operand attrs => do
    let operand ← (← resolve env (.list .captured) operand).expect (.list .captured)
    remade (makeLength operand attrs)
  | .join items attrs => do
    let items ← resolveAll env items
    return .join items attrs

def resolveElements (env : TypeEnv) (element : Ty) : List Expr → Except Error (Ty × List Expr)
  | [] => .ok (element, [])
  | item :: rest => do
    let item' ← resolve env element item
    match Ty.unify? element item'.type with
    | none => throw (.mismatch element item'.type item'.id)
    | some t => do
      let (final, items) ← resolveElements env t rest
      return (final, item' :: items)

def resolveAll (env : TypeEnv) : List Expr → Except Error (List Expr)
  | [] => .ok []
  | e :: rest => do
    let e' ← resolve env .captured e
    let others ← resolveAll env rest
    return e' :: others

end

def resolveAs (env : TypeEnv) (expected : Ty) (e : Expr) : Except Error Expr := do
  (← e.resolve env expected).expect expected

end Expr

namespace Stmt

mutual

def resolve (env : TypeEnv) : Stmt → Except Error Stmt
  | .assign target value attrs => do
    let target ← target.resolve env
    let value ← value.resolveAs env target.type
    remade (makeAssign target value attrs)
  | .choose branches otherwise attrs => do
    let (conditions, bodies) ← resolveBranches env branches
    let otherwise ← resolveOtherwise env otherwise
    remade (makeChoose conditions bodies otherwise attrs)
  | .repeat times body attrs => do
    let times ← times.resolveAs env .number
    let body ← resolveAll env body
    remade (makeRepeat times body attrs)
  | .loop mode condition body attrs => do
    let condition ← condition.resolveAs env .boolean
    let body ← resolveAll env body
    remade (makeLoop mode condition body attrs)
  | .count counter first last step body attrs => do
    let counter ← counter.resolve env
    let first ← first.resolveAs env .number
    let last ← last.resolveAs env .number
    let step ← step.resolveAs env .number
    let body ← resolveAll env body
    remade (makeCount counter first last step body attrs)
  | .forEach item list body attrs => do
    let item ← item.resolve env
    let list ← list.resolveAs env (.list item.type)
    let body ← resolveAll env body
    remade (makeForEach item list body attrs)
  | .flow choice attrs => .ok (.flow choice attrs)
  | .wait time attrs => do
    let time ← time.resolveAs env .number
    remade (makeWait time attrs)
  | .print text attrs => do
    let text ← text.resolve env .captured
    return .print text attrs

def resolveBranches (env : TypeEnv) :
    List (Expr × List Stmt) → Except Error (List Expr × List (List Stmt))
  | [] => .ok ([], [])
  | (condition, body) :: rest => do
    let condition ← condition.resolveAs env .boolean
    let body ← resolveAll env body
    let (conditions, bodies) ← resolveBranches env rest
    return (condition :: conditions, body :: bodies)

def resolveOtherwise (env : TypeEnv) : Option (List Stmt) → Except Error (Option (List Stmt))
  | none => .ok none
  | some body => do
    let body ← resolveAll env body
    return some body

def resolveAll (env : TypeEnv) : List Stmt → Except Error (List Stmt)
  | [] => .ok []
  | s :: rest => do
    let s' ← resolve env s
    let others ← resolveAll env rest
    return s' :: others

end

end Stmt

def Root.resolve (env : TypeEnv) : Root → Except Error Root
  | .statements body => do
    let body ← Stmt.resolveAll env body
    return .statements body
  | .value e => do
    let e ← e.resolve env .captured
    return .value e

def Program.resolve (env : TypeEnv) (p : Program) : Except Error Program := do
  let env ← env.settle
  let roots ← p.roots.mapM (Root.resolve env)
  return { roots }

end Blockwork
