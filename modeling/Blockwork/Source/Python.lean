import Blockwork.Source.Identifier
import Blockwork.Source.Layout
import Blockwork.Source.Literal
import Blockwork.Source.Target

/-! # Python sources

* `Python.expr` writes an expression, with parentheses around operands that have operands themselves.
* `Python.lines` writes a statement.
* `Python.source` writes a program. Modules are imported, and the helper for counting is defined, only
  where they are used.
-/

namespace Blockwork.Python

open Source (Names Options numberLiteral quote wholeValue?)

set_option autoImplicit false

/-- The words that no variable may have: those of the language, and those that sources use. -/
def reserved : List String :=
  ["False", "None", "True", "and", "as", "assert", "async", "await", "break", "class",
   "continue", "def", "del", "elif", "else", "except", "finally", "for", "from", "global", "if",
   "import", "in", "is", "lambda", "nonlocal", "not", "or", "pass", "raise", "return", "try",
   "while", "with", "yield", "math", "time", "print", "len", "str", "abs", "range",
   "blockly_range"]

/-! ## Expressions -/

def sign : BinaryOp → String
  | .add => "+"
  | .minus => "-"
  | .multiply => "*"
  | .divide => "/"
  | .power => "**"
  | .eq => "=="
  | .neq => "!="
  | .lt => "<"
  | .lte => "<="
  | .gt => ">"
  | .gte => ">="
  | .and => "and"
  | .or => "or"

def parens (text : String) : String :=
  "(" ++ text ++ ")"

def grouped : Expr → String → String
  | .binary .., text => parens text
  | .unary .., text => parens text
  | _, text => text

def startsWithMinus (text : String) : Bool :=
  text.toList.head? == some '-'

/-- A left operand. A power binds tighter than a minus before its base, so that needs parentheses. -/
def leftOperand (op : BinaryOp) (text : String) : String :=
  if op = .power ∧ startsWithMinus text then parens text else text

def unary (op : UnaryOp) (operand : String) : String :=
  match op with
  | .not => "not " ++ operand
  | .neg => "-" ++ operand
  | .abs => "abs(" ++ operand ++ ")"
  | .pow10 => "10 ** " ++ operand
  | .root => "math.sqrt(" ++ operand ++ ")"
  | .ln => "math.log(" ++ operand ++ ")"
  | .log10 => "math.log10(" ++ operand ++ ")"
  | .exp => "math.exp(" ++ operand ++ ")"

def joined : Expr → String → String
  | .text .., text => text
  | _, text => "str(" ++ text ++ ")"

def sum (items : List String) : String :=
  if items.isEmpty then "\"\"" else " + ".intercalate items

mutual

def expr (names : Names) : Expr → String
  | .var v => names.get v.name
  | .number literal value _ => numberLiteral literal value
  | .boolean value _ => if value then "True" else "False"
  | .text value _ => quote value
  | .binary op left right _ =>
    leftOperand op (grouped left (expr names left)) ++ " " ++ sign op ++ " "
      ++ grouped right (expr names right)
  | .unary op operand _ => unary op (grouped operand (expr names operand))
  | .list _ items _ => "[" ++ ", ".intercalate (exprs names items) ++ "]"
  | .length operand _ => "len(" ++ expr names operand ++ ")"
  | .join items _ => sum (joinedItems names items)

def exprs (names : Names) : List Expr → List String
  | [] => []
  | e :: rest => expr names e :: exprs names rest

def joinedItems (names : Names) : List Expr → List String
  | [] => []
  | e :: rest => joined e (expr names e) :: joinedItems names rest

end

/-! ## Counting -/

def wholeLiteral? : Expr → Option Int
  | .number _ value _ => wholeValue? value
  | _ => none

def wholeBounds? (first last step : Expr) : Option (Int × Int × Int) := do
  let a ← wholeLiteral? first
  let b ← wholeLiteral? last
  let c ← wholeLiteral? step
  return (a, b, c)

/-- The range of a counting loop over integers. Both bounds are counted, the direction is told by the
bounds, and a step of zero counts as one. -/
def wholeRange (first last step : Int) : Int × Int × Int :=
  let size := max (step.natAbs : Int) 1
  if first ≤ last then (first, last + 1, size) else (first, last - 1, -size)

def range (names : Names) (first last step : Expr) : String :=
  match wholeBounds? first last step with
  | some (a, b, c) =>
    let (start, stop, size) := wholeRange a b c
    "range(" ++ Text.intText start ++ ", " ++ Text.intText stop ++ ", " ++ Text.intText size ++ ")"
  | none =>
    "blockly_range(" ++ expr names first ++ ", " ++ expr names last ++ ", " ++ expr names step ++ ")"

def rangeHelper : List Line :=
  [{ depth := 0, text := "def blockly_range(start, stop, step):" },
   { depth := 1, text := "step = abs(step) or 1" },
   { depth := 1, text := "if start <= stop:" },
   { depth := 2, text := "while start <= stop:" },
   { depth := 3, text := "yield start" },
   { depth := 3, text := "start += step" },
   { depth := 1, text := "else:" },
   { depth := 2, text := "while start >= stop:" },
   { depth := 3, text := "yield start" },
   { depth := 3, text := "start -= step" }]

/-! ## Statements -/

def loopHeader (mode : LoopMode) (condition : String) : String :=
  match mode with
  | .while => "while " ++ condition ++ ":"
  | .until => "while not (" ++ condition ++ "):"

def flowWord : Flow → String
  | .break => "break"
  | .continue => "continue"

def remarks (depth : Nat) (attrs : Attributes) : List Line :=
  Line.remarks "#" depth attrs.comment

mutual

def lines (names : Names) (depth : Nat) : Stmt → List Line
  | .assign target value attrs =>
    remarks depth attrs ++ [{ depth, text := names.get target.name ++ " = " ++ expr names value }]
  | .choose branches otherwise attrs =>
    remarks depth attrs ++ linesOfBranches names depth "if " branches
      ++ linesOfOtherwise names depth otherwise
  | .repeat times body attrs =>
    remarks depth attrs
      ++ { depth, text := "for _ in range(int(" ++ expr names times ++ ")):" }
        :: linesOfBody names (depth + 1) body
  | .loop mode condition body attrs =>
    remarks depth attrs
      ++ { depth, text := loopHeader mode (expr names condition) }
        :: linesOfBody names (depth + 1) body
  | .count counter first last step body attrs =>
    remarks depth attrs
      ++ { depth, text :=
            "for " ++ names.get counter.name ++ " in " ++ range names first last step ++ ":" }
        :: linesOfBody names (depth + 1) body
  | .forEach item list body attrs =>
    remarks depth attrs
      ++ { depth, text := "for " ++ names.get item.name ++ " in " ++ expr names list ++ ":" }
        :: linesOfBody names (depth + 1) body
  | .flow choice attrs => remarks depth attrs ++ [{ depth, text := flowWord choice }]
  | .wait time attrs =>
    remarks depth attrs
      ++ [{ depth, text := "time.sleep(" ++ grouped time (expr names time) ++ " / 1000)" }]
  | .print text attrs => remarks depth attrs ++ [{ depth, text := "print(" ++ expr names text ++ ")" }]

def linesOfBranches (names : Names) (depth : Nat) (word : String) :
    List (Expr × List Stmt) → List Line
  | [] => []
  | (condition, body) :: rest =>
    { depth, text := word ++ expr names condition ++ ":" }
      :: (linesOfBody names (depth + 1) body ++ linesOfBranches names depth "elif " rest)

def linesOfOtherwise (names : Names) (depth : Nat) : Option (List Stmt) → List Line
  | none => []
  | some body => { depth, text := "else:" } :: linesOfBody names (depth + 1) body

def linesOfBody (names : Names) (depth : Nat) : List Stmt → List Line
  | [] => [{ depth, text := "pass" }]
  | s :: rest => lines names depth s ++ linesOf names depth rest

def linesOf (names : Names) (depth : Nat) : List Stmt → List Line
  | [] => []
  | s :: rest => lines names depth s ++ linesOf names depth rest

end

/-! ## Programs -/

def usesMath : Expr → Bool
  | .unary .root .. | .unary .ln .. | .unary .log10 .. | .unary .exp .. => true
  | _ => false

def usesTime : Stmt → Bool
  | .wait .. => true
  | _ => false

def usesRange : Stmt → Bool
  | .count _ first last step _ _ => (wholeBounds? first last step).isNone
  | _ => false

def rootLines (names : Names) : Root → List Line
  | .statements body => linesOfBody names 0 body
  | .value e => [{ depth := 0, text := expr names e }]

def prelude (options : Options) (roots : List Root) : String :=
  let math := if roots.any fun r => r.exprs.any usesMath then "import math\n" else ""
  let time := if roots.any fun r => r.stmts.any usesTime then "import time\n" else ""
  let imports := math ++ time
  (if imports.isEmpty then "" else imports ++ "\n")
    ++ (if roots.any fun r => r.stmts.any usesRange then
          Line.render options.indent rangeHelper ++ "\n"
        else "")

def source (options : Options) (p : Program) : String :=
  let roots := Source.activeRoots options p
  let names := Names.assign reserved (variablesOf roots)
  prelude options roots
    ++ "\n".intercalate (roots.map fun r => Line.render options.indent (rootLines names r))

def phrase (options : Options) : Phrase → String
  | .statement s => Line.render options.indent (lines .none 0 s)
  | .value e => expr .none e

end Blockwork.Python
