import Mathlib.Data.List.Forall2
import Blockwork.Program.ToBlocks
import Blockwork.Proofs.Refinement

/-! # Where nodes come from

A node comes from a block that has the tag of the node, the texts of the node in its fields, and in its
slots the blocks from which the parts of the node come. Types are not compared, unless the mutation of
the block names one.
-/

namespace Blockwork

set_option autoImplicit false

open List (Forall₂ mem_cons_self range)

/-! ## Lists that are related member by member -/

section Lists

variable {α β : Type} {R : α → β → Prop} {xs : List α} {ys : List β}

theorem exists_of_mem_left (h : Forall₂ R xs ys) {x : α} (hx : x ∈ xs) : ∃ y ∈ ys, R x y := by
  induction h with
  | nil => cases hx
  | cons hxy _ ih =>
    rcases List.mem_cons.mp hx with rfl | hx
    · exact ⟨_, mem_cons_self, hxy⟩
    · obtain ⟨y, hy, hR⟩ := ih hx
      exact ⟨y, List.mem_cons_of_mem _ hy, hR⟩

theorem exists_of_mem_right (h : Forall₂ R xs ys) {y : β} (hy : y ∈ ys) : ∃ x ∈ xs, R x y := by
  induction h with
  | nil => cases hy
  | cons hxy _ ih =>
    rcases List.mem_cons.mp hy with rfl | hy
    · exact ⟨_, mem_cons_self, hxy⟩
    · obtain ⟨x, hx, hR⟩ := ih hy
      exact ⟨x, List.mem_cons_of_mem _ hx, hR⟩

theorem exists_between {γ : Type} {S : γ → β → Prop} {zs : List γ}
    (h : Forall₂ (fun x z => ∃ y, S z y ∧ R x y) xs zs) :
    ∃ ys, Forall₂ S zs ys ∧ Forall₂ R xs ys := by
  induction h with
  | nil => exact ⟨[], .nil, .nil⟩
  | cons hxz _ ih =>
    obtain ⟨y, hS, hR⟩ := hxz
    obtain ⟨ys, hSs, hRs⟩ := ih
    exact ⟨y :: ys, .cons hS hSs, .cons hR hRs⟩

theorem forall₂_of_common {γ : Type} {S : α → γ → Prop} {T : γ → β → Prop} {zs : List γ}
    (hT : ∀ x y z, R x y → S x z → T z y) (h : Forall₂ R xs ys) (h' : Forall₂ S xs zs) :
    Forall₂ T zs ys := by
  induction h generalizing zs with
  | nil =>
    cases h'
    exact .nil
  | cons hR _ ih =>
    cases h' with
    | cons hS hrest => exact .cons (hT _ _ _ hR hS) (ih hrest)

theorem forall₂_of_mem {S : α → β → Prop} (h : Forall₂ R xs ys) (hS : ∀ x ∈ xs, ∀ y ∈ ys, R x y → S x y) :
    Forall₂ S xs ys := by
  induction h with
  | nil => exact .nil
  | cons hxy _ ih =>
    refine .cons (hS _ mem_cons_self _ mem_cons_self hxy) (ih fun x hx y hy => ?_)
    exact hS x (List.mem_cons_of_mem _ hx) y (List.mem_cons_of_mem _ hy)

theorem forall₂_of_path {γ δ : Type} {P : α → β → Prop} {Q : α → γ → Prop} {R : γ → δ → Prop} {V : β → δ → Prop}
    {as : List α} {bs : List β} {cs : List γ} {ds : List δ} (hV : ∀ c ∈ cs, ∀ a b d, P a b → Q a c → R c d → V b d)
    (hP : Forall₂ P as bs) (hQ : Forall₂ Q as cs) (hR : Forall₂ R cs ds) : Forall₂ V bs ds := by
  induction hQ generalizing bs ds with
  | nil =>
    cases hP
    cases hR
    exact .nil
  | cons hQ _ ih =>
    cases hP with | cons hP hPs => ?_
    cases hR with | cons hR hRs => ?_
    refine .cons (hV _ mem_cons_self _ _ _ hP hQ hR) (ih (fun c hc => ?_) hPs hRs)
    exact hV c (List.mem_cons_of_mem _ hc)

end Lists

/-! ## What a block says by itself -/

namespace Block

/-- The block names a variable. -/
structure Names (b : Block) (name : String) : Prop where
  field : b.field? "VAR" = some name
  visible : (Text.strip name.toList).isEmpty = false

def Declares (b : Block) (key : String) (t : Ty) : Prop :=
  b.declaredType key = .ok none ∨ b.declaredType key = .ok (some t)

/-- The only block in a value slot. -/
structure Plugged (b : Block) (slot : String) (child : Block) : Prop where
  value : b.value? slot = some child
  alone : child.next = none

/-- The items of a block are in its slots for items, and no other slot is filled. -/
structure Holds (b : Block) (children : List Block) : Prop where
  slots : b.itemSlots = .ok ((range children.length).map itemSlot)
  plugged : Forall₂ b.Plugged ((range children.length).map itemSlot) children

/-- The branches of a choice: so many conditions are asked for, there is a last branch or not, and no
other slot is filled. -/
structure Branches (b : Block) (count : Nat) (hasElse : Bool) : Prop where
  further : ∃ n, b.boundedCount "elseif" (b.values.length - 1) = .ok n ∧ count = n.getD 0 + 1
  last : ∃ n, b.declaredCount "else" = .ok n ∧ hasElse = (0 < n.getD 0 || (b.statement? "ELSE").isSome)
  slots : b.refuseOthers ((range count).map conditionSlot)
    ((range count).map branchSlot ++ ["ELSE"]) = .ok ()

def body (b : Block) (slot : String) : List Block :=
  chainFrom (b.statement? slot)

end Block

/-! ## Nodes -/

/-- An expression comes from a block. -/
inductive Expr.ComesFrom : Expr → Block → Prop where
  | var {b : Block} {v : Var} (tag : b.tag = Tag.var.name) (name : b.Names v.name)
      (declared : b.Declares "datatype" v.type) (attrs : v.attrs = b.nodeAttrs) :
      ComesFrom (.var v) b
  | number {b : Block} {literal : String} {value : Binary64} (tag : b.tag = Tag.number.name)
      (field : b.field? "NUM" = some literal) (denotes : Numeral.value literal = .ok value) :
      ComesFrom (.number literal value b.nodeAttrs) b
  | boolean {b : Block} {value : Bool} (tag : b.tag = Tag.boolean.name)
      (field : b.field? "BOOL" = some (truthWord value)) : ComesFrom (.boolean value b.nodeAttrs) b
  | text {b : Block} {value : String} (tag : b.tag = Tag.text.name)
      (field : b.field? "TEXT" = some value) : ComesFrom (.text value b.nodeAttrs) b
  | binary {b left right : Block} {op : BinaryOp} {l r : Expr} (tag : b.tag = op.tag)
      (field : b.field? "OP" = some op.word)
      (pluggedLeft : b.Plugged "A" left) (pluggedRight : b.Plugged "B" right)
      (fromLeft : ComesFrom l left) (fromRight : ComesFrom r right) :
      ComesFrom (.binary op l r b.nodeAttrs) b
  | unary {b operand : Block} {op : UnaryOp} {e : Expr} (tag : b.tag = op.tag)
      (field : ∀ word, op.word? = some word → b.field? "OP" = some word)
      (plugged : b.Plugged op.slot operand) (fromOperand : ComesFrom e operand) :
      ComesFrom (.unary op e b.nodeAttrs) b
  | list {b : Block} {children : List Block} {element : Ty} {items : List Expr}
      (tag : b.tag = Tag.list.name) (declared : b.Declares "list_type" element)
      (holds : b.Holds children) (fromItems : Forall₂ ComesFrom items children) :
      ComesFrom (.list element items b.nodeAttrs) b
  | length {b list : Block} {e : Expr} (tag : b.tag = Tag.length.name)
      (plugged : b.Plugged "VALUE" list) (fromList : ComesFrom e list) : ComesFrom (.length e b.nodeAttrs) b
  | join {b : Block} {children : List Block} {items : List Expr} (tag : b.tag = Tag.join.name)
      (holds : b.Holds children) (fromItems : Forall₂ ComesFrom items children) :
      ComesFrom (.join items b.nodeAttrs) b

/-- A statement comes from a block, without what comes next after it. -/
inductive Stmt.ComesFrom : Stmt → Block → Prop where
  | assign {b child : Block} {target : Var} {e : Expr} (tag : b.tag = Tag.assign.name)
      (name : b.Names target.name) (declared : b.Declares "datatype" target.type)
      (attrs : target.attrs = b.varAttrs) (plugged : b.Plugged "VALUE" child)
      (fromValue : e.ComesFrom child) : ComesFrom (.assign target e b.nodeAttrs) b
  | choose {b : Block} {children : List Block} {branches : List (Expr × List Stmt)}
      {otherwise : Option (List Stmt)} (tag : b.tag = Tag.choose.name)
      (has : b.Branches branches.length otherwise.isSome)
      (plugged : Forall₂ b.Plugged ((range branches.length).map Block.conditionSlot) children)
      (fromConditions : Forall₂ Expr.ComesFrom (branches.map Prod.fst) children)
      (fromBodies : Forall₂ (Forall₂ ComesFrom) (branches.map Prod.snd)
        ((range branches.length).map fun i => b.body (Block.branchSlot i)))
      (fromOtherwise : Forall₂ ComesFrom (otherwise.getD []) (b.body "ELSE")) :
      ComesFrom (.choose branches otherwise b.nodeAttrs) b
  | repeat' {b child : Block} {times : Expr} {body : List Stmt} (tag : b.tag = Tag.repeat.name)
      (plugged : b.Plugged "TIMES" child) (fromTimes : times.ComesFrom child)
      (fromBody : Forall₂ ComesFrom body (b.body "DO")) :
      ComesFrom (.repeat times body b.nodeAttrs) b
  | loop {b child : Block} {mode : LoopMode} {condition : Expr} {body : List Stmt}
      (tag : b.tag = Tag.loop.name) (field : b.field? "MODE" = some mode.word)
      (plugged : b.Plugged "BOOL" child) (fromCondition : condition.ComesFrom child)
      (fromBody : Forall₂ ComesFrom body (b.body "DO")) :
      ComesFrom (.loop mode condition body b.nodeAttrs) b
  | count {b first last step : Block} {counter : Var} {e₁ e₂ e₃ : Expr} {body : List Stmt}
      (tag : b.tag = Tag.count.name) (name : b.Names counter.name) (type : counter.type = .number)
      (attrs : counter.attrs = b.varAttrs) (pluggedFirst : b.Plugged "FROM" first)
      (pluggedLast : b.Plugged "TO" last) (pluggedStep : b.Plugged "BY" step) (fromFirst : e₁.ComesFrom first)
      (fromLast : e₂.ComesFrom last) (fromStep : e₃.ComesFrom step)
      (fromBody : Forall₂ ComesFrom body (b.body "DO")) :
      ComesFrom (.count counter e₁ e₂ e₃ body b.nodeAttrs) b
  | forEach {b child : Block} {item : Var} {list : Expr} {body : List Stmt}
      (tag : b.tag = Tag.forEach.name) (name : b.Names item.name) (attrs : item.attrs = b.varAttrs)
      (plugged : b.Plugged "LIST" child) (fromList : list.ComesFrom child)
      (fromBody : Forall₂ ComesFrom body (b.body "DO")) :
      ComesFrom (.forEach item list body b.nodeAttrs) b
  | flow {b : Block} {choice : Flow} (tag : b.tag = Tag.flow.name)
      (field : b.field? "FLOW" = some choice.word) : ComesFrom (.flow choice b.nodeAttrs) b
  | wait {b child : Block} {time : Expr} (tag : b.tag = Tag.wait.name)
      (plugged : b.Plugged "WAIT" child) (fromTime : time.ComesFrom child) :
      ComesFrom (.wait time b.nodeAttrs) b
  | print {b child : Block} {text : Expr} (tag : b.tag = Tag.print.name)
      (plugged : b.Plugged "TEXT" child) (fromText : text.ComesFrom child) :
      ComesFrom (.print text b.nodeAttrs) b

theorem Stmt.comesFrom_choose {b : Block} {children : List Block} {n : Nat} {conditions : List Expr}
    {bodies : List (List Stmt)} {otherwise : Option (List Stmt)} (tag : b.tag = Tag.choose.name)
    (has : b.Branches n otherwise.isSome)
    (plugged : Forall₂ b.Plugged ((range n).map Block.conditionSlot) children)
    (fromConditions : Forall₂ Expr.ComesFrom conditions children)
    (fromBodies : Forall₂ (Forall₂ ComesFrom) bodies
      ((range n).map fun i => b.body (Block.branchSlot i)))
    (fromOtherwise : Forall₂ ComesFrom (otherwise.getD []) (b.body "ELSE")) :
    (Stmt.choose (conditions.zip bodies) otherwise b.nodeAttrs).ComesFrom b := by
  have hconditions : conditions.length = n := by
    rw [fromConditions.length_eq, ← plugged.length_eq, List.length_map, List.length_range]
  have hbodies : bodies.length = n := by
    rw [fromBodies.length_eq, List.length_map, List.length_range]
  have hlen : (conditions.zip bodies).length = n := by
    rw [List.length_zip, hconditions, hbodies, Nat.min_self]
  have hfst : (conditions.zip bodies).map Prod.fst = conditions :=
    List.map_fst_zip (Nat.le_of_eq (hconditions.trans hbodies.symm))
  have hsnd : (conditions.zip bodies).map Prod.snd = bodies :=
    List.map_snd_zip (Nat.le_of_eq (hbodies.trans hconditions.symm))
  subst hlen
  exact .choose tag has plugged (hfst.symm ▸ fromConditions) (hsnd.symm ▸ fromBodies) fromOtherwise

def Phrase.ComesFrom : Phrase → Block → Prop
  | .statement s, b => s.ComesFrom b
  | .value e, b => e.ComesFrom b

def Root.ComesFrom : Root → Block → Prop
  | .statements body, b => Forall₂ Stmt.ComesFrom body b.chain
  | .value e, b => e.ComesFrom b ∧ b.next = none

end Blockwork
