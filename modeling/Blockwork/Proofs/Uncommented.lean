import Blockwork.Proofs.ArduinoForms
import Blockwork.Proofs.PythonForms

/-! # Programs without comments

* `Program.uncommented` is a program without the comments of its nodes.
* `Program.check_uncommented` says that the check does not look at comments.
* `Python.rootLayout_uncommented` and `Arduino.sketchShapes_uncommented` say that no form depends on them.
-/

namespace Blockwork

set_option autoImplicit false

def Attributes.uncommented (attrs : Attributes) : Attributes :=
  { attrs with comment := none }

@[simp] theorem Attributes.id_uncommented (attrs : Attributes) : attrs.uncommented.id = attrs.id := rfl

def Var.uncommented (v : Var) : Var :=
  { v with attrs := v.attrs.uncommented }

@[simp] theorem Var.name_uncommented (v : Var) : v.uncommented.name = v.name := rfl

@[simp] theorem Var.type_uncommented (v : Var) : v.uncommented.type = v.type := rfl

@[simp] theorem Var.check_uncommented (v : Var) : v.uncommented.check = v.check := rfl

namespace Expr

mutual

def uncommented : Expr → Expr
  | .var v => .var v.uncommented
  | .number literal value attrs => .number literal value attrs.uncommented
  | .boolean value attrs => .boolean value attrs.uncommented
  | .text value attrs => .text value attrs.uncommented
  | .binary op left right attrs => .binary op (uncommented left) (uncommented right) attrs.uncommented
  | .unary op operand attrs => .unary op (uncommented operand) attrs.uncommented
  | .list element items attrs => .list element (uncommentedIn items) attrs.uncommented
  | .length operand attrs => .length (uncommented operand) attrs.uncommented
  | .join items attrs => .join (uncommentedIn items) attrs.uncommented

def uncommentedIn : List Expr → List Expr
  | [] => []
  | e :: rest => uncommented e :: uncommentedIn rest

end

end Expr

namespace Stmt

mutual

def uncommented : Stmt → Stmt
  | .assign target value attrs => .assign target.uncommented value.uncommented attrs.uncommented
  | .choose branches otherwise attrs =>
    .choose (uncommentedInBranches branches) (uncommentedInOtherwise otherwise) attrs.uncommented
  | .repeat times body attrs => .repeat times.uncommented (uncommentedIn body) attrs.uncommented
  | .loop mode condition body attrs => .loop mode condition.uncommented (uncommentedIn body) attrs.uncommented
  | .count counter first last step body attrs =>
    .count counter.uncommented first.uncommented last.uncommented step.uncommented (uncommentedIn body) attrs.uncommented
  | .forEach item list body attrs =>
    .forEach item.uncommented list.uncommented (uncommentedIn body) attrs.uncommented
  | .flow choice attrs => .flow choice attrs.uncommented
  | .wait time attrs => .wait time.uncommented attrs.uncommented
  | .print text attrs => .print text.uncommented attrs.uncommented

def uncommentedInBranches : List (Expr × List Stmt) → List (Expr × List Stmt)
  | [] => []
  | (condition, body) :: rest => (condition.uncommented, uncommentedIn body) :: uncommentedInBranches rest

def uncommentedInOtherwise : Option (List Stmt) → Option (List Stmt)
  | none => none
  | some body => some (uncommentedIn body)

def uncommentedIn : List Stmt → List Stmt
  | [] => []
  | s :: rest => uncommented s :: uncommentedIn rest

end

end Stmt

def Root.uncommented : Root → Root
  | .statements body => .statements (Stmt.uncommentedIn body)
  | .value e => .value e.uncommented

/-- The program without the comments of its nodes. -/
def Program.uncommented (p : Program) : Program :=
  { roots := p.roots.map Root.uncommented }

/-! ## Expressions -/

namespace Python

attribute [local simp] Expr.uncommented

@[simp] theorem grouped_uncommented (e : Expr) (text : String) : grouped e.uncommented text = grouped e text := by
  cases e <;> simp [grouped]

@[simp] theorem joined_uncommented (e : Expr) (text : String) : joined e.uncommented text = joined e text := by
  cases e <;> simp [joined]

end Python

namespace Arduino

attribute [local simp] Expr.uncommented

@[simp] theorem grouped_uncommented (e : Expr) (text : String) : grouped e.uncommented text = grouped e text := by
  cases e <;> simp [grouped]

@[simp] theorem binary_uncommented (op : BinaryOp) (left right : Expr) (s t : String) :
    binary op left.uncommented right.uncommented s t = binary op left right s t := by
  have hdividend : ∀ (e : Expr) (text : String), dividend e.uncommented text = dividend e text := by
    intro e text
    cases e <;> simp [dividend, grouped]
  cases op <;> simp [binary, hdividend]

@[simp] theorem unary_uncommented (op : UnaryOp) (operand : Expr) (text : String) :
    unary op operand.uncommented text = unary op operand text := by
  have hsigned : signed operand.uncommented text = signed operand text := by
    cases operand <;> simp [signed, grouped]
  cases op <;> simp [unary, hsigned]

@[simp] theorem joined_uncommented (e : Expr) (text : String) : joined e.uncommented text = joined e text := by
  cases e <;> simp [joined]

end Arduino

namespace Expr

attribute [local simp] uncommented uncommentedIn check checkElements checkAll vars varsIn parts partsIn
attribute [local simp] Python.expr Python.exprs Python.joinedItems Arduino.expr Arduino.exprs Arduino.joinedItems

@[simp] theorem id_uncommented (e : Expr) : e.uncommented.id = e.id := by
  cases e <;> rfl

@[simp] theorem type_uncommented (e : Expr) : e.uncommented.type = e.type := by
  cases e <;> rfl

theorem uncommentedIn_eq_map (items : List Expr) : uncommentedIn items = items.map uncommented := by
  induction items with
  | nil => rfl
  | cons e rest ih => simp [ih]

theorem Checks.uncommented {e : Expr} (h : e.Checks) : e.uncommented.Checks := by
  cases e <;> simp_all [Checks, uncommentedIn_eq_map]

/-- What is made of an expression does not depend on its comments. -/
structure Alike (e : Expr) : Prop where
  check : e.uncommented.check = e.check
  vars : e.uncommented.vars = e.vars.map Var.uncommented
  parts : e.uncommented.parts = e.parts.map uncommented
  python : ∀ names, Python.expr names e.uncommented = Python.expr names e
  arduino : ∀ names, Arduino.expr names e.uncommented = Arduino.expr names e

structure AllAlike (items : List Expr) : Prop where
  elements : ∀ element, checkElements element (uncommentedIn items) = checkElements element items
  check : checkAll (uncommentedIn items) = checkAll items
  vars : varsIn (uncommentedIn items) = (varsIn items).map Var.uncommented
  parts : partsIn (uncommentedIn items) = (partsIn items).map uncommented
  python : ∀ names, Python.exprs names (uncommentedIn items) = Python.exprs names items
  pythonJoined : ∀ names, Python.joinedItems names (uncommentedIn items) = Python.joinedItems names items
  arduino : ∀ names, Arduino.exprs names (uncommentedIn items) = Arduino.exprs names items
  arduinoJoined : ∀ names, Arduino.joinedItems names (uncommentedIn items) = Arduino.joinedItems names items

attribute [local simp] Alike.check Alike.vars Alike.parts Alike.python Alike.arduino AllAlike.elements AllAlike.check
  AllAlike.vars AllAlike.parts AllAlike.python AllAlike.pythonJoined AllAlike.arduino AllAlike.arduinoJoined

mutual

theorem alike : (e : Expr) → e.Alike
  | .var _ | .number .. | .boolean .. | .text .. => ⟨rfl, rfl, rfl, fun _ => rfl, fun _ => rfl⟩
  | .binary _ left right _ => by
    have hleft := alike left
    have hright := alike right
    constructor <;> simp [hleft, hright]
  | .unary _ operand _ | .length operand _ => by
    have h := alike operand
    constructor <;> simp [h]
  | .list _ items _ | .join items _ => by
    have h := allAlike items
    constructor <;> simp [h]

theorem allAlike : (items : List Expr) → AllAlike items
  | [] => ⟨fun _ => rfl, rfl, rfl, rfl, fun _ => rfl, fun _ => rfl, fun _ => rfl, fun _ => rfl⟩
  | e :: rest => by
    have h := alike e
    have hrest := allAlike rest
    constructor <;> simp [h, hrest]

end

@[simp] theorem checkAs_uncommented (expected : Ty) (e : Expr) :
    e.uncommented.checkAs expected = e.checkAs expected := by
  simp [checkAs, e.alike.check]

end Expr

/-! ## Statements -/

open Source (Names)

theorem Python.wholeBounds?_uncommented (first last step : Expr) :
    wholeBounds? first.uncommented last.uncommented step.uncommented = wholeBounds? first last step := by
  have hwhole : ∀ e : Expr, wholeLiteral? e.uncommented = wholeLiteral? e := by
    intro e
    cases e <;> rfl
  simp [wholeBounds?, hwhole]

theorem Arduino.countsDown_uncommented (first last : Expr) :
    countsDown first.uncommented last.uncommented = countsDown first last := by
  cases first <;> cases last <;> rfl

theorem Arduino.var_uncommented (names : Names) (v : Var) : var names v.uncommented = var names v := rfl

namespace Stmt

attribute [local simp] uncommented uncommentedInBranches uncommentedInOtherwise uncommentedIn check checkBranches
  checkOtherwise checkAll vars varsInBranches varsInOtherwise varsIn all allInBranches allInOtherwise allIn
attribute [local simp] Python.shape Python.branchShapes Python.lastShapes Python.shapes Python.range
  Python.wholeBounds?_uncommented Arduino.shape Arduino.branchShapes Arduino.lastShapes Arduino.shapes
  Arduino.countsDown_uncommented Arduino.var_uncommented
attribute [local simp] Expr.Alike.check Expr.Alike.vars Expr.Alike.python Expr.Alike.arduino Expr.alike

/-- What is made of a statement does not depend on its comments. -/
structure Alike (s : Stmt) : Prop where
  check : s.uncommented.check = s.check
  vars : s.uncommented.vars = s.vars.map Var.uncommented
  all : s.uncommented.all = s.all.map uncommented
  python : ∀ names, Python.shape names s.uncommented = Python.shape names s
  arduino : ∀ names depth, Arduino.shape names depth s.uncommented = Arduino.shape names depth s

structure BranchesAlike (branches : List (Expr × List Stmt)) : Prop where
  check : checkBranches (uncommentedInBranches branches) = checkBranches branches
  vars : varsInBranches (uncommentedInBranches branches) = (varsInBranches branches).map Var.uncommented
  all : allInBranches (uncommentedInBranches branches) = (allInBranches branches).map uncommented
  python : ∀ names word, Python.branchShapes names word (uncommentedInBranches branches) =
    Python.branchShapes names word branches
  arduino : ∀ names depth word, Arduino.branchShapes names depth word (uncommentedInBranches branches) =
    Arduino.branchShapes names depth word branches

structure LastAlike (otherwise : Option (List Stmt)) : Prop where
  check : checkOtherwise (uncommentedInOtherwise otherwise) = checkOtherwise otherwise
  vars : varsInOtherwise (uncommentedInOtherwise otherwise) = (varsInOtherwise otherwise).map Var.uncommented
  all : allInOtherwise (uncommentedInOtherwise otherwise) = (allInOtherwise otherwise).map uncommented
  python : ∀ names, Python.lastShapes names (uncommentedInOtherwise otherwise) = Python.lastShapes names otherwise
  arduino : ∀ names depth, Arduino.lastShapes names depth (uncommentedInOtherwise otherwise) =
    Arduino.lastShapes names depth otherwise

structure AllAlike (body : List Stmt) : Prop where
  check : checkAll (uncommentedIn body) = checkAll body
  vars : varsIn (uncommentedIn body) = (varsIn body).map Var.uncommented
  all : allIn (uncommentedIn body) = (allIn body).map uncommented
  python : ∀ names, Python.shapes names (uncommentedIn body) = Python.shapes names body
  arduino : ∀ names depth, Arduino.shapes names depth (uncommentedIn body) = Arduino.shapes names depth body

attribute [local simp] Alike.check Alike.vars Alike.all Alike.python Alike.arduino BranchesAlike.check
  BranchesAlike.vars BranchesAlike.all BranchesAlike.python BranchesAlike.arduino LastAlike.check LastAlike.vars
  LastAlike.all LastAlike.python LastAlike.arduino AllAlike.check AllAlike.vars AllAlike.all AllAlike.python
  AllAlike.arduino

mutual

theorem alike : (s : Stmt) → s.Alike
  | .assign .. | .flow .. | .wait .. | .print .. => by constructor <;> simp
  | .choose branches otherwise _ => by
    have h := branchesAlike branches
    have hlast := lastAlike otherwise
    constructor <;> simp [h, hlast]
  | .repeat _ body _ | .loop _ _ body _ | .count _ _ _ _ body _ | .forEach _ _ body _ => by
    have h := allAlike body
    constructor <;> simp [h]

theorem branchesAlike : (branches : List (Expr × List Stmt)) → BranchesAlike branches
  | [] => ⟨rfl, rfl, rfl, fun _ _ => rfl, fun _ _ _ => rfl⟩
  | (_, body) :: rest => by
    have h := allAlike body
    have hrest := branchesAlike rest
    constructor <;> simp [h, hrest]

theorem lastAlike : (otherwise : Option (List Stmt)) → LastAlike otherwise
  | none => ⟨rfl, rfl, rfl, fun _ => rfl, fun _ _ => rfl⟩
  | some body => by
    have h := allAlike body
    constructor <;> simp [h]

theorem allAlike : (body : List Stmt) → AllAlike body
  | [] => ⟨rfl, rfl, rfl, fun _ => rfl, fun _ _ => rfl⟩
  | s :: rest => by
    have h := alike s
    have hrest := allAlike rest
    constructor <;> simp [h, hrest]

end

theorem exprs_uncommented (s : Stmt) : s.uncommented.exprs = s.exprs.map Expr.uncommented := by
  have hbranches : ∀ branches : List (Expr × List Stmt),
      (uncommentedInBranches branches).map Prod.fst = branches.map fun branch => branch.1.uncommented := by
    intro branches
    induction branches with
    | nil => rfl
    | cons branch rest ih => simp [ih]
  cases s <;> simp [exprs, hbranches]

end Stmt

/-! ## Programs -/

namespace Root

theorem check_uncommented (root : Root) : root.uncommented.check = root.check := by
  cases root with
  | statements body => exact (Stmt.allAlike body).check
  | value e => simp [uncommented, check, e.alike.check]

theorem vars_uncommented (root : Root) : root.uncommented.vars = root.vars.map Var.uncommented := by
  cases root with
  | statements body => exact (Stmt.allAlike body).vars
  | value e => exact e.alike.vars

theorem stmts_uncommented (root : Root) : root.uncommented.stmts = root.stmts.map Stmt.uncommented := by
  cases root with
  | statements body => exact (Stmt.allAlike body).all
  | value e => rfl

theorem exprs_uncommented (root : Root) : root.uncommented.exprs = root.exprs.map Expr.uncommented := by
  cases root with
  | statements body =>
    simp [uncommented, exprs, (Stmt.allAlike body).all, List.flatMap_map, List.map_flatMap, Stmt.exprs_uncommented,
      (Expr.alike _).parts]
  | value e => exact e.alike.parts

theorem isDisabled_uncommented (root : Root) : root.uncommented.isDisabled = root.isDisabled := by
  cases root with
  | statements body =>
    cases body with
    | nil => rfl
    | cons s rest => cases s <;> rfl
  | value e => cases e <;> rfl

theorem comments_uncommented (root : Root) : root.uncommented.comments = [] := by
  have hnone : ∀ s : Stmt, s.uncommented.attrs.comment = none := by
    intro s
    cases s <;> rfl
  simp [comments, stmts_uncommented, hnone]

theorem Writable.uncommented {root : Root} (h : root.Writable) : root.uncommented.Writable := by
  have heverywhere : ∀ {e : Expr}, e.Everywhere Python.Writable → e.uncommented.Everywhere Python.Writable := by
    intro e he part hpart
    rw [e.alike.parts] at hpart
    obtain ⟨q, hq, rfl⟩ := List.mem_map.mp hpart
    exact ⟨(he q hq).checks.uncommented, fun heq => by cases q <;> cases heq; exact (he _ hq).denotes rfl⟩
  refine ⟨?_, ?_, ?_⟩
  · intro hnil
    rcases root with (_ | ⟨s, rest⟩) | e
    · exact h.ne_nil rfl
    · cases hnil
    · cases hnil
  · rw [stmts_uncommented, List.forall_mem_map]
    intro s hs
    refine ⟨?_, fun otherwise attrs hchoose => ?_⟩
    · rw [Stmt.exprs_uncommented, List.forall_mem_map]
      exact fun e he => heverywhere ((h.stmts s hs).exprs e he)
    · rcases s with _ | ⟨_ | ⟨branch, rest⟩, otherwise, attrs⟩ <;> cases hchoose
      exact (h.stmts _ hs).branched _ _ rfl
  · rw [exprs_uncommented, List.forall_mem_map]
    exact fun e he => heverywhere (h.exprs e he)

end Root

theorem Program.check_uncommented (p : Program) : p.uncommented.check = p.check := by
  obtain ⟨roots⟩ := p
  change (roots.map Root.uncommented).forM Root.check = roots.forM Root.check
  induction roots with
  | nil => rfl
  | cons root rest ih => simp [Root.check_uncommented]

theorem Source.activeRoots_uncommented (options : Source.Options) (p : Program) :
    Source.activeRoots options p.uncommented = (Source.activeRoots options p).map Root.uncommented := by
  simp [activeRoots, Program.uncommented, List.filter_map, Function.comp_def, Root.isDisabled_uncommented]

theorem variablesOf_uncommented (roots : List Root) :
    variablesOf (roots.map Root.uncommented) = (variablesOf roots).map Var.uncommented := by
  have hfirst : ∀ (vars : List Var) (seen : List String),
      firstOccurrences seen (vars.map Var.uncommented) = (firstOccurrences seen vars).map Var.uncommented := by
    intro vars
    induction vars with
    | nil => exact fun _ => rfl
    | cons v rest ih =>
      intro seen
      by_cases hseen : v.name ∈ seen <;> simp [firstOccurrences, hseen, ih]
  rw [variablesOf, variablesOf, ← hfirst, List.flatMap_map, List.map_flatMap]
  simp only [Root.vars_uncommented]

theorem Source.names_uncommented (reserved : List String) (roots : List Root) :
    Names.assign reserved (variablesOf (roots.map Root.uncommented)) = Names.assign reserved (variablesOf roots) := by
  simp [Names.assign, variablesOf_uncommented, Function.comp_def]

namespace Python

theorem rootLayout_uncommented (names : Names) (root : Root) : rootLayout names root.uncommented = rootLayout names root := by
  cases root with
  | statements body => simp [rootLayout, rootShapes, Root.uncommented, (Stmt.allAlike body).python]
  | value e => simp [rootLayout, rootShapes, Root.uncommented, e.alike.python]

theorem prelude_uncommented (options : Source.Options) (roots : List Root) :
    prelude options (roots.map Root.uncommented) = prelude options roots := by
  have hmath : ∀ e : Expr, usesMath e.uncommented = usesMath e := by
    intro e
    cases e with
    | unary op => cases op <;> rfl
    | _ => rfl
  have htime : ∀ s : Stmt, usesTime s.uncommented = usesTime s := by
    intro s
    cases s <;> rfl
  have hrange : ∀ s : Stmt, usesRange s.uncommented = usesRange s := by
    intro s
    cases s <;> simp [Stmt.uncommented, usesRange, wholeBounds?_uncommented]
  simp [prelude, Root.exprs_uncommented, Root.stmts_uncommented, Function.comp_def, hmath, htime, hrange]

end Python

theorem Arduino.sketchShapes_uncommented (options : Source.Options) (p : Program) :
    sketchShapes options p.uncommented = sketchShapes options p := by
  have hshapes : ∀ names root, rootShapes names (Root.uncommented root) = rootShapes names root := by
    intro names root
    cases root with
    | statements body => exact (Stmt.allAlike body).arduino names 1
    | value e => simp [rootShapes, Root.uncommented]
  have hlist : ∀ e : Expr, isList e.uncommented = isList e := by
    intro e
    cases e <;> rfl
  have hdeclaration : ∀ names v, declaration names (Var.uncommented v) = declaration names v := fun _ _ => rfl
  simp only [sketchShapes, Source.activeRoots_uncommented, Source.names_uncommented, List.mapM_map]
  simp [variablesOf_uncommented, headingLines, usesVector, Root.exprs_uncommented, Function.comp_def, hshapes, hlist,
    hdeclaration]

end Blockwork
