import Blockwork.Block.Basic
import Blockwork.Program.Numeral

/-! # Expressions

* `Var` is a variable where it is read or set.
* `Expr` is the type of expressions. Every node keeps the attributes of the block it came from.
* `Expr.type` is the type of the value.
* `Expr.makeBinary` and the like make nodes whose parts fit together.
-/

namespace Blockwork

set_option autoImplicit false

structure Var where
  name : String
  type : Ty
  attrs : Attributes
deriving DecidableEq

def Var.make (name : String) (type : Ty) (attrs : Attributes) : Except Defect Var :=
  if (Text.strip name.toList).isEmpty then .error .blankName else .ok { name, type, attrs }

/-- An expression. A number keeps its literal beside its value. -/
inductive Expr where
  | var (v : Var)
  | number (literal : String) (value : Binary64) (attrs : Attributes)
  | boolean (value : Bool) (attrs : Attributes)
  | text (value : String) (attrs : Attributes)
  | binary (op : BinaryOp) (left right : Expr) (attrs : Attributes)
  | unary (op : UnaryOp) (operand : Expr) (attrs : Attributes)
  | list (element : Ty) (items : List Expr) (attrs : Attributes)
  | length (list : Expr) (attrs : Attributes)
  | join (items : List Expr) (attrs : Attributes)

namespace Expr

def attrs : Expr → Attributes
  | var v => v.attrs
  | number _ _ a | boolean _ a | text _ a | binary _ _ _ a | unary _ _ a => a
  | list _ _ a | length _ a | join _ a => a

def id (e : Expr) : String :=
  e.attrs.id

def type : Expr → Ty
  | var v => v.type
  | number .. | length .. => .number
  | boolean .. => .boolean
  | text .. | join .. => .text
  | binary op _ _ _ => op.resultType
  | unary op _ _ => op.operandType
  | list element _ _ => .list element

def kind : Expr → String
  | var _ => "VAR"
  | number .. => "NUM_CONST"
  | boolean .. => "BOOL_CONST"
  | text .. => "STRING_CONST"
  | binary .. => "BINARY"
  | unary .. => "UNARY"
  | list .. => "LIST_CREATE"
  | length .. => "LIST_LENGTH"
  | join .. => "TEXT_JOIN"

/-! ## Making nodes -/

def makeNumber (literal : String) (attrs : Attributes) : Except Defect Expr := do
  let value ← Numeral.value literal
  return .number literal value attrs

def makeBinary (op : BinaryOp) (left right : Expr) (attrs : Attributes) : Except Defect Expr :=
  if !op.operandType.accepts left.type then .error (.operand op left.type op.operandType)
  else if !op.operandType.accepts right.type then .error (.operand op right.type op.operandType)
  else if !left.type.accepts right.type then .error (.operands op left.type right.type)
  else .ok (.binary op left right attrs)

def makeUnary (op : UnaryOp) (operand : Expr) (attrs : Attributes) : Except Defect Expr :=
  if op.operandType.accepts operand.type then .ok (.unary op operand attrs)
  else .error (.soleOperand operand.type op.operandType)

def checkItems (element : Ty) : (index : Nat) → List Expr → Except Defect Unit
  | _, [] => .ok ()
  | index, item :: rest =>
    if element.accepts item.type then checkItems element (index + 1) rest
    else .error (.item index item.type element)

def makeList (element : Ty) (items : List Expr) (attrs : Attributes) : Except Defect Expr := do
  checkItems element 0 items
  return .list element items attrs

def makeLength (e : Expr) (attrs : Attributes) : Except Defect Expr :=
  match e.type with
  | .list _ | .captured => .ok (.length e attrs)
  | t => .error (.notList t)

end Expr

end Blockwork
