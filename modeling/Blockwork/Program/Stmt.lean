import Blockwork.Program.Expr

/-! # Statements

* `Stmt` is the type of statements. Every node keeps the attributes of the block it came from.
* `Stmt.makeAssign` and the like make nodes whose parts fit together.
-/

namespace Blockwork

set_option autoImplicit false

inductive Stmt where
  | assign (target : Var) (value : Expr) (attrs : Attributes)
  /-- The first branch whose condition holds, or else the last one. -/
  | choose (branches : List (Expr × List Stmt)) (otherwise : Option (List Stmt)) (attrs : Attributes)
  | repeat (times : Expr) (body : List Stmt) (attrs : Attributes)
  | loop (mode : LoopMode) (condition : Expr) (body : List Stmt) (attrs : Attributes)
  /-- Counts from one bound to the other, both included. -/
  | count (counter : Var) (first last step : Expr) (body : List Stmt) (attrs : Attributes)
  | forEach (item : Var) (list : Expr) (body : List Stmt) (attrs : Attributes)
  | flow (flow : Flow) (attrs : Attributes)
  | wait (time : Expr) (attrs : Attributes)
  | print (text : Expr) (attrs : Attributes)

namespace Stmt

def attrs : Stmt → Attributes
  | assign _ _ a | choose _ _ a | Stmt.repeat _ _ a | loop _ _ _ a | count _ _ _ _ _ a => a
  | forEach _ _ _ a | flow _ a | wait _ a | print _ a => a

def id (s : Stmt) : String :=
  s.attrs.id

def kind : Stmt → String
  | assign .. => "ASSIGN_STMT"
  | choose .. => "IF_STMT"
  | Stmt.repeat .. => "REPEAT_TIMES_STMT"
  | loop .. => "WHILE_UNTIL_STMT"
  | count .. => "FOR_STMT"
  | forEach .. => "FOR_EACH_STMT"
  | flow .. => "FLOW_CONTROL_STMT"
  | wait .. => "WAIT_TIME_STMT"
  | print .. => "PRINT_STMT"

/-! ## Making nodes -/

def makeAssign (target : Var) (value : Expr) (attrs : Attributes) : Except Defect Stmt :=
  if target.type.accepts value.type then .ok (.assign target value attrs)
  else .error (.assignedValue value.type target.type)

def checkConditions : List Expr → Except Defect Unit
  | [] => .ok ()
  | c :: rest =>
    if Ty.boolean.accepts c.type then checkConditions rest else .error (.condition c.type)

def makeChoose (conditions : List Expr) (bodies : List (List Stmt)) (otherwise : Option (List Stmt))
    (attrs : Attributes) : Except Defect Stmt :=
  if conditions.isEmpty then .error .noBranch
  else if conditions.length ≠ bodies.length then
    .error (.unpaired conditions.length bodies.length)
  else do
    checkConditions conditions
    return .choose (conditions.zip bodies) otherwise attrs

def makeRepeat (times : Expr) (body : List Stmt) (attrs : Attributes) : Except Defect Stmt :=
  if Ty.number.accepts times.type then .ok (.repeat times body attrs)
  else .error (.repeatCount times.type)

def makeLoop (mode : LoopMode) (condition : Expr) (body : List Stmt) (attrs : Attributes) :
    Except Defect Stmt :=
  if Ty.boolean.accepts condition.type then .ok (.loop mode condition body attrs)
  else .error (.loopCondition condition.type)

def makeCount (counter : Var) (first last step : Expr) (body : List Stmt) (attrs : Attributes) :
    Except Defect Stmt :=
  if !Ty.number.accepts counter.type then .error (.counter counter.type)
  else if !Ty.number.accepts first.type then .error (.bound "FROM" first.type)
  else if !Ty.number.accepts last.type then .error (.bound "TO" last.type)
  else if !Ty.number.accepts step.type then .error (.bound "BY" step.type)
  else .ok (.count counter first last step body attrs)

def makeForEach (item : Var) (list : Expr) (body : List Stmt) (attrs : Attributes) :
    Except Defect Stmt :=
  if (Ty.list item.type).accepts list.type then .ok (.forEach item list body attrs)
  else .error (.iterated list.type (.list item.type))

def makeWait (time : Expr) (attrs : Attributes) : Except Defect Stmt :=
  if Ty.number.accepts time.type then .ok (.wait time attrs) else .error (.waitTime time.type)

end Stmt

/-! ## Programs -/

inductive Phrase where
  | statement (s : Stmt)
  | value (e : Expr)

namespace Phrase

def kind : Phrase → String
  | statement s => s.kind
  | value e => e.kind

def id : Phrase → String
  | statement s => s.id
  | value e => e.id

def isStatement : Phrase → Bool
  | statement _ => true
  | value _ => false

end Phrase

/-- One of the things that lie on a workspace: statements in their order, or a value that nothing
uses. -/
inductive Root where
  | statements (body : List Stmt)
  | value (e : Expr)

def Root.isDisabled : Root → Bool
  | .statements [] => false
  | .statements (s :: _) => s.attrs.disabled
  | .value e => e.attrs.disabled

structure Program where
  roots : List Root

def Program.isEmpty (p : Program) : Bool :=
  p.roots.isEmpty

end Blockwork
