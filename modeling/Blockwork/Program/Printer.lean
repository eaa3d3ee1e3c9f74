import Blockwork.Json.Printer
import Blockwork.Program.Stmt
import Blockwork.Source.Layout
import Blockwork.Source.Literal

/-! # Programs as text

* `Expr.render` and `Stmt.lines` write a program in a short form of its own, for people to read.
* `Program.render` writes a whole program.
-/

namespace Blockwork

set_option autoImplicit false

def BinaryOp.sign : BinaryOp → String
  | .add => "+"
  | .minus => "-"
  | .multiply => "*"
  | .divide => "/"
  | .power => "^"
  | .eq => "=="
  | .neq => "!="
  | .lt => "<"
  | .lte => "<="
  | .gt => ">"
  | .gte => ">="
  | .and => "and"
  | .or => "or"

def commas (texts : List String) : String :=
  ", ".intercalate texts

namespace Expr

def grouped : Expr → String → String
  | .binary .., shown => "(" ++ shown ++ ")"
  | _, shown => shown

def renderUnary (op : UnaryOp) (plain grouped : String) : String :=
  match op with
  | .not => "not " ++ grouped
  | .neg => "-" ++ grouped
  | .pow10 => "10 ^ " ++ grouped
  | .root => "sqrt(" ++ plain ++ ")"
  | .abs => "abs(" ++ plain ++ ")"
  | .ln => "ln(" ++ plain ++ ")"
  | .log10 => "log10(" ++ plain ++ ")"
  | .exp => "exp(" ++ plain ++ ")"

mutual

def render : Expr → String
  | .var v => v.name
  | .number literal value _ => Source.numberLiteral literal value
  | .boolean value _ => Json.boolText value
  | .text value _ => Source.quote value
  | .binary op left right _ =>
    left.grouped (render left) ++ " " ++ op.sign ++ " " ++ right.grouped (render right)
  | .unary op operand _ => renderUnary op (render operand) (operand.grouped (render operand))
  | .list _ items _ => "[" ++ commas (renderAll items) ++ "]"
  | .length operand _ => "length(" ++ render operand ++ ")"
  | .join items _ => "join(" ++ commas (renderAll items) ++ ")"

def renderAll : List Expr → List String
  | [] => []
  | e :: rest => render e :: renderAll rest

end

end Expr

namespace Stmt

def braced (depth : Nat) (header : String) (body : List Line) : List Line :=
  { depth, text := header ++ " \x7b" } :: (body ++ [{ depth, text := "\x7d" }])

def loopWord : LoopMode → String
  | .while => "while"
  | .until => "until"

def flowWord : Flow → String
  | .break => "break"
  | .continue => "continue"

mutual

def lines (depth : Nat) : Stmt → List Line
  | .assign target value _ => [{ depth, text := target.name ++ " := " ++ value.render }]
  | .choose branches otherwise _ =>
    linesOfBranches depth "if " branches ++ linesOfOtherwise depth otherwise
  | .repeat times body _ =>
    braced depth ("repeat " ++ times.render ++ " times") (linesOf (depth + 1) body)
  | .loop mode condition body _ =>
    braced depth (loopWord mode ++ " " ++ condition.render) (linesOf (depth + 1) body)
  | .count counter first last step body _ =>
    braced depth
      ("for " ++ counter.name ++ " from " ++ first.render ++ " to " ++ last.render ++ " by " ++ step.render)
      (linesOf (depth + 1) body)
  | .forEach item list body _ =>
    braced depth ("for each " ++ item.name ++ " in " ++ list.render) (linesOf (depth + 1) body)
  | .flow choice _ => [{ depth, text := flowWord choice }]
  | .wait time _ => [{ depth, text := "wait " ++ time.render ++ " ms" }]
  | .print text _ => [{ depth, text := "print(" ++ text.render ++ ")" }]

def linesOfBranches (depth : Nat) (word : String) : List (Expr × List Stmt) → List Line
  | [] => []
  | (condition, body) :: rest =>
    braced depth (word ++ condition.render) (linesOf (depth + 1) body)
      ++ linesOfBranches depth "else if " rest

def linesOfOtherwise (depth : Nat) : Option (List Stmt) → List Line
  | none => []
  | some body => braced depth "else" (linesOf (depth + 1) body)

def linesOf (depth : Nat) : List Stmt → List Line
  | [] => []
  | s :: rest => lines depth s ++ linesOf depth rest

end

def renderAll (body : List Stmt) : String :=
  Line.render 2 (linesOf 0 body)

def renderLines (s : Stmt) : String :=
  Line.render 2 (lines 0 s)

def render (s : Stmt) : String :=
  String.ofList (Text.dropBlankEnd s.renderLines.toList)

end Stmt

def Phrase.render : Phrase → String
  | .statement s => s.render
  | .value e => e.render

def Root.render : Root → String
  | .statements body => Stmt.renderAll body
  | .value e => Line.render 2 [{ depth := 0, text := e.render }]

def Program.render (p : Program) : String :=
  "\n".intercalate (p.roots.map Root.render)

end Blockwork
