import Blockwork.Proofs.Triples

/-! # Rules as steps

Some rules do a step only if a type is named, or only if a value is a variable. Here each of these steps
is a reading of its own, and the rules are equal to straight lines of steps.
-/

namespace Blockwork

set_option autoImplicit false

def Expr.isOpen : Expr → Bool
  | .var _ | .list .. => true
  | _ => false

namespace Reading

def bindDeclared (name : String) (declared : Option Ty) (blockId : String) : Reading Unit :=
  match declared with
  | some t => do
    let _ ← Reading.bind name t blockId
  | none => pure ()

def linkTo (name : String) (value : Expr) (t : Ty) (blockId : String) : Reading Unit :=
  match value with
  | .var source =>
    if t.isConcrete then pure () else modify fun env => env.equate name source.name blockId
  | _ => pure ()

/-- Links a variable to the list whose elements it runs over, if the list is a variable and while the type
of the elements is open. -/
def linkElements (name : String) (list : Expr) (t : Ty) (blockId : String) : Reading Unit :=
  match list with
  | .var source =>
    if t.isConcrete then pure () else modify fun env => env.elementOf name source.name blockId
  | _ => pure ()

def linkBoth (left right : Expr) (t : Ty) (blockId : String) : Reading Unit :=
  match left with
  | .var v => linkTo v.name right t blockId
  | _ => pure ()

def learn (v : Var) (t : Ty) : Reading Unit :=
  if t = v.type then pure ()
  else do
    let _ ← Reading.bind v.name t v.attrs.id

def share (op : BinaryOp) (left right : Expr) (blockId : String) : Reading Unit :=
  if op.isEquality then do
    let shared ← unify left.type right.type right.id
    constrain left shared
    constrain right shared
    linkBoth left right shared blockId
  else pure ()

theorem constrain_var (v : Var) (expected : Ty) :
    constrain (.var v) expected = (do
      let t ← unify expected v.type v.attrs.id
      learn v t) := by
  rw [constrain]
  refine bind_congr fun t => ?_
  unfold learn
  by_cases h : t = v.type <;> simp [h]

theorem constrain_list (element : Ty) (items : List Expr) (attrs : Attributes) (expected : Ty) :
    constrain (.list element items attrs) expected = (do
      let t ← unify expected (.list element) attrs.id
      constrainAll items t.elementOrCaptured) := by
  rw [constrain]
  unfold unify
  cases h : Ty.unify? expected (.list element) with
  | none => rfl
  | some t =>
    -- What is known about a list is known about its elements.
    obtain ⟨u, rfl, -⟩ := (Ty.unify?_refines_right h).exists_list
    rfl

theorem constrain_of_closed {e : Expr} (h : e.isOpen = false) (expected : Ty) :
    constrain e expected = (do
      let _ ← unify expected e.type e.id) := by
  cases e with
  | var => cases h
  | list => cases h
  | _ => rfl

end Reading

namespace Block

open Reading (constrain node)

theorem unless_bind {α : Type} (c : Bool) (step : Reading Unit) (rest : Reading α) :
    (if c = true then pure () else step) >>= (fun _ => rest) =
      if c = false then step >>= fun _ => rest else rest := by
  cases c <;> simp

variable (b : Block) (inner : Inner b)

theorem readVar_eq :
    b.readVar = (do
      let name ← Reading.ofExcept b.requiredName
      let declared ← Reading.ofExcept (b.declaredType "datatype")
      Reading.bindDeclared name declared b.id
      let t ← Reading.lookup name
      let v ← node (Var.make name t b.nodeAttrs)
      return .var v) := by
  unfold readVar
  refine bind_congr fun name => bind_congr fun declared => ?_
  cases declared with
  | none => simp [Reading.bindDeclared]
  | some t => simp [Reading.bindDeclared]

theorem readAssign_eq :
    b.readAssign inner = (do
      let name ← Reading.ofExcept b.requiredName
      let declared ← Reading.ofExcept (b.declaredType "datatype")
      let value ← b.valueIn inner "VALUE" .captured
      Reading.bindDeclared name declared b.id
      let target ← Reading.lookup name
      let t ← Reading.unify target value.type b.id
      let _ ← Reading.bind name t b.id
      constrain value t
      Reading.linkTo name value t b.id
      let target ← node (Var.make name t b.varAttrs)
      node (Stmt.makeAssign target value b.nodeAttrs)) := by
  unfold readAssign
  refine bind_congr fun name => bind_congr fun declared => bind_congr fun value => ?_
  cases declared <;> cases value <;> simp [Reading.bindDeclared, Reading.linkTo, unless_bind]

theorem readBinary_eq :
    b.readBinary inner = (do
      let op ← Reading.ofExcept (b.requiredWord "OP" (BinaryOp.ofWord? b.tag))
      let left ← b.valueIn inner "A" op.operandType
      let right ← b.valueIn inner "B" op.operandType
      Reading.share op left right b.id
      node (Expr.makeBinary op left right b.nodeAttrs)) := by
  unfold readBinary
  refine bind_congr fun op => bind_congr fun left => bind_congr fun right => ?_
  unfold Reading.share
  cases op.isEquality with
  | false => simp
  | true =>
    cases left <;> cases right <;> simp [Reading.linkBoth, Reading.linkTo, unless_bind]

theorem readForEach_eq :
    b.readForEach inner = (do
      let name ← Reading.ofExcept b.requiredName
      let known ← Reading.lookup name
      let list ← b.valueIn inner "LIST" (.list known)
      let t ← Reading.bind name list.type.elementOrCaptured b.id
      Reading.linkElements name list t b.id
      let body ← b.statementsIn inner "DO"
      let item ← node (Var.make name t b.varAttrs)
      node (Stmt.makeForEach item list body b.nodeAttrs)) := by
  unfold readForEach
  refine bind_congr fun name => bind_congr fun known => bind_congr fun list => bind_congr fun t => ?_
  cases list <;> simp [Reading.linkElements, unless_bind]

def readLast (hasElse : Bool) : Reading (Option (List Stmt)) :=
  if hasElse then do
    let body ← b.statementsIn inner "ELSE"
    return some body
  else pure none

theorem readChoose_eq :
    b.readChoose inner = (do
      let further ← Reading.ofExcept (b.boundedCount "elseif" (b.values.length - 1))
      let otherwise ← Reading.ofExcept (b.declaredCount "else")
      let (conditions, bodies) ← b.readBranches inner (List.range (further.getD 0 + 1))
      let last ← b.readLast inner (0 < otherwise.getD 0 || (b.statement? "ELSE").isSome)
      Reading.ofExcept (b.refuseOthers ((List.range (further.getD 0 + 1)).map conditionSlot)
        ((List.range (further.getD 0 + 1)).map branchSlot ++ ["ELSE"]))
      node (Stmt.makeChoose conditions bodies last b.nodeAttrs)) := by
  unfold readChoose readLast
  refine bind_congr fun further => bind_congr fun otherwise => bind_congr fun pair => ?_
  cases (decide (0 < otherwise.getD 0) || (b.statement? "ELSE").isSome) <;> simp

end Block

end Blockwork
