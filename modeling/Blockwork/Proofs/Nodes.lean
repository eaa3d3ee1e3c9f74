import Blockwork.Proofs.Outcomes
import Blockwork.Proofs.Syntax

/-! # Nodes of programs in their order

A program is taken as a forest of nodes of one type. Right below a node stand the nodes that it is made of: first the
variable that a statement sets, then its expressions, and its body last.
-/

namespace Blockwork

set_option autoImplicit false

variable {e : Expr} {s : Stmt}

/-- A node of a program: a variable that a statement sets, an expression or a statement. -/
inductive Node where
  | target (v : Var)
  | value (e : Expr)
  | statement (s : Stmt)

def Expr.operands : Expr → List Expr
  | .var _ | .number .. | .boolean .. | .text .. => []
  | .binary _ left right _ => [left, right]
  | .unary _ operand _ | .length operand _ => [operand]
  | .list _ items _ | .join items _ => items

def Stmt.nodes : Stmt → List Node
  | .assign target value _ => [.target target, .value value]
  | .choose branches otherwise _ =>
    branches.flatMap (fun branch => .value branch.1 :: branch.2.map .statement) ++
      (otherwise.getD []).map .statement
  | .repeat times body _ => .value times :: body.map .statement
  | .loop _ condition body _ => .value condition :: body.map .statement
  | .count counter first last step body _ =>
    .target counter :: .value first :: .value last :: .value step :: body.map .statement
  | .forEach item list body _ => .target item :: .value list :: body.map .statement
  | .flow .. => []
  | .wait time _ => [.value time]
  | .print text _ => [.value text]

namespace Node

variable {n : Node}

/-- The nodes right below a node. -/
def children : Node → List Node
  | target _ => []
  | value e => e.operands.map value
  | statement s => s.nodes

theorem sizeOf_operands {operand : Expr} (h : operand ∈ e.operands) : sizeOf operand < sizeOf e := by
  cases e with
  | var | number | boolean | text => cases h
  | binary => grind [Expr.operands, Expr.binary.sizeOf_spec]
  | unary => grind [Expr.operands, Expr.unary.sizeOf_spec]
  | length => grind [Expr.operands, Expr.length.sizeOf_spec]
  | list => grind [Expr.operands, → List.sizeOf_lt_of_mem, Expr.list.sizeOf_spec]
  | join => grind [Expr.operands, → List.sizeOf_lt_of_mem, Expr.join.sizeOf_spec]

theorem sizeOf_statements {body : List Stmt} (h : n ∈ body.map statement) : sizeOf n ≤ sizeOf body := by
  obtain ⟨s, hs, rfl⟩ := List.mem_map.mp h
  have hlt := List.sizeOf_lt_of_mem hs
  simp only [statement.sizeOf_spec]
  omega

theorem sizeOf_branches {branches : List (Expr × List Stmt)}
    (h : n ∈ branches.flatMap fun branch => value branch.1 :: branch.2.map statement) :
    sizeOf n ≤ sizeOf branches := by
  obtain ⟨⟨condition, body⟩, hbranch, h⟩ := List.mem_flatMap.mp h
  have hlt := List.sizeOf_lt_of_mem hbranch
  simp only [Prod.mk.sizeOf_spec] at hlt
  rcases List.mem_cons.mp h with rfl | h
  · simp only [value.sizeOf_spec]
    omega
  · have hle := sizeOf_statements h
    dsimp only at hle
    omega

theorem sizeOf_nodes (h : n ∈ s.nodes) : sizeOf n ≤ sizeOf s := by
  cases s with
  | choose branches otherwise attrs =>
    simp only [Stmt.choose.sizeOf_spec]
    rcases List.mem_append.mp h with h | h
    · have hle := sizeOf_branches h
      omega
    · cases otherwise with
      | none => cases h
      | some body =>
        have hle := sizeOf_statements h
        simp only [Option.getD_some, Option.some.sizeOf_spec] at hle ⊢
        omega
  | assign => grind [Stmt.nodes, Stmt.assign.sizeOf_spec, Node.target.sizeOf_spec, Node.value.sizeOf_spec]
  | «repeat» => grind [Stmt.nodes, → sizeOf_statements, Stmt.repeat.sizeOf_spec, Node.value.sizeOf_spec]
  | loop => grind [Stmt.nodes, → sizeOf_statements, Stmt.loop.sizeOf_spec, Node.value.sizeOf_spec]
  | count =>
    grind [Stmt.nodes, → sizeOf_statements, Stmt.count.sizeOf_spec, Node.target.sizeOf_spec, Node.value.sizeOf_spec]
  | forEach =>
    grind [Stmt.nodes, → sizeOf_statements, Stmt.forEach.sizeOf_spec, Node.target.sizeOf_spec, Node.value.sizeOf_spec]
  | flow => cases h
  | wait => grind [Stmt.nodes, Stmt.wait.sizeOf_spec, Node.value.sizeOf_spec]
  | print => grind [Stmt.nodes, Stmt.print.sizeOf_spec, Node.value.sizeOf_spec]

theorem sizeOf_children {child : Node} (h : child ∈ n.children) : sizeOf child < sizeOf n := by
  cases n with
  | target v => cases h
  | value e =>
    obtain ⟨operand, hoperand, rfl⟩ := List.mem_map.mp h
    have hlt := sizeOf_operands hoperand
    simp only [value.sizeOf_spec]
    omega
  | statement s =>
    have hle := sizeOf_nodes h
    simp only [statement.sizeOf_spec]
    omega

def preorder (n : Node) : List Node :=
  n :: n.children.attach.flatMap fun child => preorder child.1
termination_by sizeOf n
decreasing_by exact sizeOf_children child.2

theorem preorder_eq (n : Node) : n.preorder = n :: n.children.flatMap preorder := by
  rw [preorder, List.flatMap_subtype (by intro child h; rfl), List.unattach_attach]

theorem induct {motive : Node → Prop} (h : ∀ n, (∀ child ∈ n.children, motive child) → motive n) (n : Node) :
    motive n :=
  h n fun child _ => induct h child
termination_by sizeOf n
decreasing_by exact sizeOf_children ‹_›

theorem preorder_flatMap {α : Type} {own gathered : Node → List α}
    (h : ∀ n, gathered n = own n ++ n.children.flatMap gathered) (n : Node) :
    n.preorder.flatMap own = gathered n := by
  induction n using induct with
  | h n ih =>
    rw [preorder_eq, List.flatMap_cons, h n, List.flatMap_assoc]
    congr 1
    exact List.flatMap_congr ih

/-! ## Variables -/

/-- The variable that a node sets or reads by itself. -/
def var? : Node → Option Var
  | target v | value (.var v) => some v
  | _ => none

/-- The variables of a node and of the nodes below it. -/
def vars : Node → List Var
  | target v => [v]
  | value e => e.vars
  | statement s => s.vars

theorem vars_values (items : List Expr) : (items.map value).flatMap vars = Expr.varsIn items := by
  induction items with
  | nil => rfl
  | cons e rest ih => rw [List.map_cons, List.flatMap_cons, ih, Expr.varsIn, vars]

theorem vars_statements (body : List Stmt) : (body.map statement).flatMap vars = Stmt.varsIn body := by
  induction body with
  | nil => rfl
  | cons s rest ih => rw [List.map_cons, List.flatMap_cons, ih, Stmt.varsIn, vars]

theorem vars_branches (branches : List (Expr × List Stmt)) :
    (branches.flatMap fun branch => value branch.1 :: branch.2.map statement).flatMap vars =
      Stmt.varsInBranches branches := by
  induction branches with
  | nil => rfl
  | cons branch rest ih =>
    rw [List.flatMap_cons, List.flatMap_append, ih, List.flatMap_cons, vars_statements, Stmt.varsInBranches, vars]

attribute [local simp] vars var? children Expr.vars Expr.operands Stmt.vars Stmt.nodes Stmt.varsInOtherwise

theorem vars_eq (n : Node) : n.vars = n.var?.toList ++ n.children.flatMap vars := by
  cases n with
  | target v => simp
  | value e => cases e <;> simp [← vars_values]
  | statement s =>
    cases s with
    | choose branches otherwise attrs =>
      cases otherwise <;> simp [vars_branches, vars_statements]
    | _ => simp [vars_statements]

theorem filterMap_preorder (n : Node) : n.preorder.filterMap var? = n.vars := by
  rw [List.filterMap_eq_flatMap_toList]
  exact preorder_flatMap vars_eq n

end Node

def Root.tops : Root → List Node
  | .statements body => body.map .statement
  | .value e => [.value e]

/-- All nodes of roots, each before those below it. -/
def nodesOf (roots : List Root) : List Node :=
  (roots.flatMap Root.tops).flatMap Node.preorder

def Program.nodes (p : Program) : List Node :=
  nodesOf p.roots

theorem Root.vars_tops (root : Root) : root.tops.flatMap Node.vars = root.vars := by
  cases root with
  | statements body => exact Node.vars_statements body
  | value e =>
    rw [tops, List.flatMap_singleton]
    rfl

theorem vars_eq_nodesOf (roots : List Root) : roots.flatMap Root.vars = (nodesOf roots).filterMap Node.var? := by
  rw [nodesOf, List.filterMap_flatMap]
  simp only [Node.filterMap_preorder]
  rw [List.flatMap_assoc]
  simp only [Root.vars_tops]

/-! ## Expressions and statements -/

theorem Expr.mem_parts_iff {part : Expr} (e : Expr) :
    part ∈ e.parts ↔ part = e ∨ ∃ operand ∈ e.operands, part ∈ operand.parts := by
  cases e <;> simp [parts, operands, mem_partsIn]

theorem Stmt.value_mem_nodes : .value e ∈ s.nodes ↔ e ∈ s.exprs := by
  cases s <;> simp [nodes, exprs]

theorem Stmt.exists_all_iff {P : Stmt → Prop} (s : Stmt) :
    (∃ part ∈ s.all, P part) ↔ P s ∨ ∃ t, .statement t ∈ s.nodes ∧ ∃ part ∈ t.all, P part := by
  cases s with
  | choose branches otherwise attrs =>
    simp only [all, nodes, List.mem_cons, List.mem_append, mem_allInBranches, mem_allInOtherwise]
    cases otherwise <;> simp <;> grind
  | _ => simp [all, nodes, mem_allIn] <;> grind

namespace Node

theorem exists_preorder_iff {own gathered : Node → Prop}
    (h : ∀ n, gathered n ↔ own n ∨ ∃ child ∈ n.children, gathered child) (n : Node) :
    (∃ m ∈ n.preorder, own m) ↔ gathered n := by
  induction n using induct with
  | h n ih =>
    rw [preorder_eq, h n, List.exists_mem_cons_iff]
    simp only [List.mem_flatMap]
    grind

/-- The expressions of a node and of the nodes below it. -/
def exprs : Node → List Expr
  | target _ => []
  | value e => e.parts
  | statement s => s.all.flatMap fun part => part.exprs.flatMap Expr.parts

/-- The statements of a node and of the nodes below it. -/
def stmts : Node → List Stmt
  | statement s => s.all
  | target _ | value _ => []

theorem value_mem_preorder (n : Node) : value e ∈ n.preorder ↔ e ∈ n.exprs := by
  rw [← @exists_preorder_iff (· = value e) (e ∈ ·.exprs) ?_ n]
  · simp
  · intro n
    cases n with
    | target v => simp [exprs, children]
    | value e' => simp [exprs, children, Expr.mem_parts_iff e', eq_comm]
    | statement s =>
      simp only [exprs, children, List.mem_flatMap, reduceCtorEq, false_or]
      rw [Stmt.exists_all_iff]
      constructor
      · rintro (⟨e', he', h⟩ | ⟨t, ht, h⟩)
        · exact ⟨.value e', Stmt.value_mem_nodes.mpr he', h⟩
        · exact ⟨.statement t, ht, List.mem_flatMap.mpr (by simpa using h)⟩
      · rintro ⟨child, hchild, h⟩
        cases child with
        | target v => cases h
        | value e' => exact .inl ⟨e', Stmt.value_mem_nodes.mp hchild, h⟩
        | statement t => exact .inr ⟨t, hchild, by simpa using h⟩

end Node

theorem Stmt.allIn_eq (body : List Stmt) : allIn body = body.flatMap all := by
  induction body with
  | nil => rfl
  | cons s rest ih => rw [allIn, ih, List.flatMap_cons]

theorem Root.exprs_tops (root : Root) : root.tops.flatMap Node.exprs = root.exprs := by
  cases root with
  | statements body =>
    rw [tops, exprs, Stmt.allIn_eq, List.flatMap_assoc, List.flatMap_map]
    rfl
  | value e =>
    rw [tops, List.flatMap_singleton]
    rfl

theorem value_mem_nodesOf {roots : List Root} : .value e ∈ nodesOf roots ↔ e ∈ roots.flatMap Root.exprs := by
  simp only [nodesOf, List.mem_flatMap, Node.value_mem_preorder, ← Root.exprs_tops]
  grind

end Blockwork
