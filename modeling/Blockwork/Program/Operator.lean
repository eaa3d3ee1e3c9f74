import Blockwork.Ty.Basic

/-! # Operators

* `BinaryOp` and `UnaryOp` are the operators of expressions, with the word that names each in a
  block and the types they ask for.
* `LoopMode` and `Flow` are the choices of loops.
-/

namespace Blockwork

set_option autoImplicit false

inductive BinaryOp where
  | add
  | minus
  | multiply
  | divide
  | power
  | eq
  | neq
  | lt
  | lte
  | gt
  | gte
  | and
  | or
deriving DecidableEq

namespace BinaryOp

def all : List BinaryOp :=
  [add, minus, multiply, divide, power, eq, neq, lt, lte, gt, gte, and, or]

def tag : BinaryOp → String
  | add | minus | multiply | divide | power => "math_arithmetic"
  | eq | neq | lt | lte | gt | gte => "logic_compare"
  | and | or => "logic_operation"

def word : BinaryOp → String
  | add => "ADD"
  | minus => "MINUS"
  | multiply => "MULTIPLY"
  | divide => "DIVIDE"
  | power => "POWER"
  | eq => "EQ"
  | neq => "NEQ"
  | lt => "LT"
  | lte => "LTE"
  | gt => "GT"
  | gte => "GTE"
  | and => "AND"
  | or => "OR"

def ofWord? (tag word : String) : Option BinaryOp :=
  all.find? fun op => op.word == word && op.tag == tag

def isEquality : BinaryOp → Bool
  | eq | neq => true
  | _ => false

/-- The type of both operands; a placeholder lets them choose one type together. -/
def operandType : BinaryOp → Ty
  | eq | neq => .captured
  | and | or => .boolean
  | _ => .number

def resultType : BinaryOp → Ty
  | add | minus | multiply | divide | power => .number
  | _ => .boolean

end BinaryOp

inductive UnaryOp where
  | not
  | root
  | abs
  | neg
  | ln
  | log10
  | exp
  | pow10
deriving DecidableEq

namespace UnaryOp

def functions : List UnaryOp :=
  [root, abs, neg, ln, log10, exp, pow10]

def tag : UnaryOp → String
  | not => "logic_negate"
  | _ => "math_single"

def slot : UnaryOp → String
  | not => "BOOL"
  | _ => "NUM"

/-- The word for the operator in a block; the negation is told by its tag alone. -/
def word? : UnaryOp → Option String
  | not => none
  | root => some "ROOT"
  | abs => some "ABS"
  | neg => some "NEG"
  | ln => some "LN"
  | log10 => some "LOG10"
  | exp => some "EXP"
  | pow10 => some "POW10"

def ofWord? (word : String) : Option UnaryOp :=
  functions.find? fun op => op.word? == some word

def operandType : UnaryOp → Ty
  | not => .boolean
  | _ => .number

end UnaryOp

inductive LoopMode where
  | while
  | until
deriving DecidableEq

namespace LoopMode

def word : LoopMode → String
  | .while => "WHILE"
  | .until => "UNTIL"

def ofWord? (word : String) : Option LoopMode :=
  [LoopMode.while, LoopMode.until].find? fun mode => mode.word == word

end LoopMode

inductive Flow where
  | break
  | continue
deriving DecidableEq

namespace Flow

def word : Flow → String
  | .break => "BREAK"
  | .continue => "CONTINUE"

def ofWord? (word : String) : Option Flow :=
  [Flow.break, Flow.continue].find? fun flow => flow.word == word

end Flow

end Blockwork
