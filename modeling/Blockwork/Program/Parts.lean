import Blockwork.Program.Stmt

/-! # Parts of programs

* `Stmt.vars` are the variables of a statement in the order in which they occur: its own variable,
  its expressions, its body.
* `Stmt.all` are a statement and all statements inside it, `Stmt.exprs` the expressions right in it.
* `Expr.parts` are an expression and all expressions inside it.
* `Program.variables` are the variables of a program, each at its first occurrence.
-/

namespace Blockwork

set_option autoImplicit false

namespace Expr

mutual

def vars : Expr → List Var
  | .var v => [v]
  | .number .. | .boolean .. | .text .. => []
  | .binary _ left right _ => vars left ++ vars right
  | .unary _ operand _ => vars operand
  | .list _ items _ => varsIn items
  | .length operand _ => vars operand
  | .join items _ => varsIn items

def varsIn : List Expr → List Var
  | [] => []
  | e :: rest => vars e ++ varsIn rest

end

mutual

def parts : Expr → List Expr
  | .var v => [.var v]
  | .number literal value attrs => [.number literal value attrs]
  | .boolean value attrs => [.boolean value attrs]
  | .text value attrs => [.text value attrs]
  | .binary op left right attrs => .binary op left right attrs :: (parts left ++ parts right)
  | .unary op operand attrs => .unary op operand attrs :: parts operand
  | .list element items attrs => .list element items attrs :: partsIn items
  | .length operand attrs => .length operand attrs :: parts operand
  | .join items attrs => .join items attrs :: partsIn items

def partsIn : List Expr → List Expr
  | [] => []
  | e :: rest => parts e ++ partsIn rest

end

end Expr

namespace Stmt

mutual

def vars : Stmt → List Var
  | .assign target value _ => target :: value.vars
  | .choose branches otherwise _ => varsInBranches branches ++ varsInOtherwise otherwise
  | .repeat times body _ => times.vars ++ varsIn body
  | .loop _ condition body _ => condition.vars ++ varsIn body
  | .count counter first last step body _ =>
    counter :: (first.vars ++ last.vars ++ step.vars ++ varsIn body)
  | .forEach item list body _ => item :: (list.vars ++ varsIn body)
  | .flow .. => []
  | .wait time _ => time.vars
  | .print text _ => text.vars

def varsInBranches : List (Expr × List Stmt) → List Var
  | [] => []
  | (condition, body) :: rest => condition.vars ++ varsIn body ++ varsInBranches rest

def varsInOtherwise : Option (List Stmt) → List Var
  | none => []
  | some body => varsIn body

def varsIn : List Stmt → List Var
  | [] => []
  | s :: rest => vars s ++ varsIn rest

end

def exprs : Stmt → List Expr
  | .assign _ value _ => [value]
  | .choose branches _ _ => branches.map Prod.fst
  | .repeat times _ _ => [times]
  | .loop _ condition _ _ => [condition]
  | .count _ first last step _ _ => [first, last, step]
  | .forEach _ list _ _ => [list]
  | .flow .. => []
  | .wait time _ => [time]
  | .print text _ => [text]

mutual

def all : Stmt → List Stmt
  | .assign target value attrs => [.assign target value attrs]
  | .choose branches otherwise attrs =>
    .choose branches otherwise attrs :: (allInBranches branches ++ allInOtherwise otherwise)
  | .repeat times body attrs => .repeat times body attrs :: allIn body
  | .loop mode condition body attrs => .loop mode condition body attrs :: allIn body
  | .count counter first last step body attrs =>
    .count counter first last step body attrs :: allIn body
  | .forEach item list body attrs => .forEach item list body attrs :: allIn body
  | .flow choice attrs => [.flow choice attrs]
  | .wait time attrs => [.wait time attrs]
  | .print text attrs => [.print text attrs]

def allInBranches : List (Expr × List Stmt) → List Stmt
  | [] => []
  | (_, body) :: rest => allIn body ++ allInBranches rest

def allInOtherwise : Option (List Stmt) → List Stmt
  | none => []
  | some body => allIn body

def allIn : List Stmt → List Stmt
  | [] => []
  | s :: rest => all s ++ allIn rest

end

end Stmt

namespace Root

def vars : Root → List Var
  | .statements body => Stmt.varsIn body
  | .value e => e.vars

def stmts : Root → List Stmt
  | .statements body => Stmt.allIn body
  | .value _ => []

def exprs : Root → List Expr
  | .statements body => (Stmt.allIn body).flatMap fun s => s.exprs.flatMap Expr.parts
  | .value e => e.parts

end Root

def firstOccurrences (seen : List String) : List Var → List Var
  | [] => []
  | v :: rest =>
    if seen.contains v.name then firstOccurrences seen rest
    else v :: firstOccurrences (v.name :: seen) rest

def variablesOf (roots : List Root) : List Var :=
  firstOccurrences [] (roots.flatMap Root.vars)

def Program.variables (p : Program) : List Var :=
  variablesOf p.roots

end Blockwork
