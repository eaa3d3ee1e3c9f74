import Blockwork.Program.Operator
import Blockwork.Text.Digit

/-! # Defects of nodes

Every node of a program is made by a function that checks what the node needs.
-/

namespace Blockwork

set_option autoImplicit false

inductive Defect where
  | blankName
  | notNumeral (literal : String)
  | foreignDigits
  | notFinite (literal : String)
  | operand (op : BinaryOp) (found expected : Ty)
  | operands (op : BinaryOp) (left right : Ty)
  | soleOperand (found expected : Ty)
  | item (index : Nat) (found element : Ty)
  | notList (found : Ty)
  | assignedValue (found expected : Ty)
  | noBranch
  | unpaired (conditions branches : Nat)
  | condition (found : Ty)
  | repeatCount (found : Ty)
  | loopCondition (found : Ty)
  | counter (found : Ty)
  | bound (name : String) (found : Ty)
  | iterated (found expected : Ty)
  | waitTime (found : Ty)
deriving DecidableEq

namespace Defect

def node : Defect → String
  | blankName => "Var"
  | notNumeral _ | foreignDigits | notFinite _ => "NumConst"
  | operand .. | operands .. => "Binary"
  | soleOperand .. => "Unary"
  | item .. => "ListCreate"
  | notList _ => "ListLength"
  | assignedValue .. => "AssignStmt"
  | noBranch | unpaired .. | condition _ => "IfStmt"
  | repeatCount _ => "RepeatTimesStmt"
  | loopCondition _ => "WhileUntilStmt"
  | counter _ | bound .. => "ForStmt"
  | iterated .. => "ForEachStmt"
  | waitTime _ => "WaitTimeStmt"

def wrongType (part : String) (found expected : Ty) : String :=
  part ++ " has type " ++ found.label ++ ", expected " ++ expected.label

def reason : Defect → String
  | blankName => "variable name must not be empty"
  | notNumeral literal => "'" ++ literal ++ "' is not a number literal"
  | foreignDigits => "invalid float literal"
  | notFinite literal => "'" ++ literal ++ "' is not finite"
  | operand op found expected => wrongType (op.word ++ " operand") found expected
  | operands op left right =>
    op.word ++ " operands disagree: " ++ left.label ++ " vs " ++ right.label
  | soleOperand found expected => wrongType "operand" found expected
  | item index found element =>
    "item " ++ Text.natText index ++ " has type " ++ found.label ++ ", list holds " ++ element.label
  | notList found => "operand has type " ++ found.label ++ ", expected a list"
  | assignedValue found expected => wrongType "assigned value" found expected
  | noBranch => "at least one branch is required"
  | unpaired conditions branches =>
    Text.natText conditions ++ " conditions but " ++ Text.natText branches ++ " branches"
  | condition found => wrongType "condition" found .boolean
  | repeatCount found => wrongType "repeat count" found .number
  | loopCondition found => wrongType "loop condition" found .boolean
  | counter found => "loop variable has type " ++ found.label
  | bound name found => wrongType name found .number
  | iterated found expected => wrongType "iterated list" found expected
  | waitTime found => wrongType "wait time" found .number

def message (d : Defect) : String :=
  d.node ++ " precondition violated: " ++ d.reason

end Defect

end Blockwork
