import Blockwork.Proofs.Reached
import Blockwork.Proofs.Texts

/-! # Slots of rendered blocks

* `Block.value?_withValue` and the like say what putting a block into a slot changes.
* `Block.value?_withValues` and `Block.value?_withValues_of_ne` say which blocks stand in numbered slots.
* `Stmt.values_branchesToBlock` and `Stmt.statement?_branchesToBlock` say where the branches of a choice are.
-/

namespace Blockwork

set_option autoImplicit false

open Block (conditionSlot branchSlot)

namespace Block

/-! ## One slot -/

@[simp] theorem value?_withValue (b : Block) (slot slot' : String) (child : Block) :
    (b.withValue slot child).value? slot' = if slot = slot' then some child else b.value? slot' :=
  Dict.get?_insert slot slot' child b.values

@[simp] theorem statement?_withStatement (b : Block) (slot slot' : String) (first : Block) :
    (b.withStatement slot first).statement? slot' =
      if slot = slot' then some first else b.statement? slot' :=
  Dict.get?_insert slot slot' first b.statements

/-- The block is the other one with more in its slots. -/
structure Extends (b' b : Block) : Prop where
  tag : b'.tag = b.tag
  attrs : b'.attrs = b.attrs
  fields : b'.fields = b.fields
  next : b'.next = b.next

theorem Extends.refl (b : Block) : b.Extends b :=
  ⟨rfl, rfl, rfl, rfl⟩

theorem Extends.trans {b'' b' b : Block} (h : b''.Extends b') (h' : b'.Extends b) : b''.Extends b :=
  ⟨h.tag.trans h'.tag, h.attrs.trans h'.attrs, h.fields.trans h'.fields, h.next.trans h'.next⟩

theorem extends_withValue (b : Block) (slot : String) (child : Block) : (b.withValue slot child).Extends b :=
  ⟨rfl, rfl, rfl, rfl⟩

@[simp] theorem link_nil : link [] = none := rfl

@[simp] theorem link_cons (b : Block) (rest : List Block) :
    link (b :: rest) = some { b with next := link rest } := rfl

variable {b : Block} {slot : String} {body : List Block}

theorem extends_withBody (b : Block) (slot : String) (body : List Block) : (b.withBody slot body).Extends b := by
  unfold withBody
  split <;> exact ⟨rfl, rfl, rfl, rfl⟩

@[simp] theorem values_withBody (b : Block) (slot : String) (body : List Block) :
    (b.withBody slot body).values = b.values := by
  unfold withBody
  split <;> rfl

theorem statement?_withBody (h : b.statement? slot = none) (slot' : String) :
    (b.withBody slot body).statement? slot' = if slot = slot' then link body else b.statement? slot' := by
  cases body with
  | nil =>
    change b.statement? slot' = if slot = slot' then none else b.statement? slot'
    split
    · next e => rw [← e, h]
    · rfl
  | cons first rest => exact statement?_withStatement b slot slot' _

theorem sorted_withBody (h : Dict.Sorted b.statements) : Dict.Sorted (b.withBody slot body).statements := by
  unfold withBody
  split
  · exact Dict.sorted_insert _ _ _ h
  · exact h

/-! ## Numbered slots -/

variable {name : Nat → String}

theorem withValues_numbered_cons (b : Block) (index : Nat) (child : Block) (rest : List Block) :
    b.withValues (numbered name index (child :: rest)) =
      (b.withValue (name index) child).withValues (numbered name (index + 1) rest) := rfl

theorem extends_withValues (b : Block) (slots : List (String × Block)) :
    (b.withValues slots).Extends b ∧ (b.withValues slots).statements = b.statements := by
  unfold withValues
  induction slots generalizing b with
  | nil => exact ⟨.refl b, rfl⟩
  | cons entry rest ih =>
    obtain ⟨hextends, hstatements⟩ := ih (b.withValue entry.1 entry.2)
    exact ⟨hextends.trans (extends_withValue b entry.1 entry.2), hstatements⟩

theorem values_withValues (b : Block) (slots : List (String × Block)) :
    (b.withValues slots).values = slots.foldl (fun d entry => Dict.insert entry.1 entry.2 d) b.values := by
  unfold withValues
  induction slots generalizing b with
  | nil => rfl
  | cons entry rest ih => exact ih (b.withValue entry.1 entry.2)

theorem sorted_withValues {slots : List (String × Block)} (h : Dict.Sorted b.values) :
    Dict.Sorted (b.withValues slots).values := by
  unfold withValues
  induction slots generalizing b with
  | nil => exact h
  | cons entry rest ih => exact ih (Dict.sorted_insert _ _ _ h)

theorem value?_withValues_of_ne {index : Nat} {children : List Block} {s : String}
    (h : ∀ k < children.length, s ≠ name (index + k)) :
    (b.withValues (numbered name index children)).value? s = b.value? s := by
  induction children generalizing b index with
  | nil => rfl
  | cons child rest ih =>
    rw [withValues_numbered_cons, ih, value?_withValue, if_neg]
    · exact fun e => h 0 (Nat.succ_pos _) e.symm
    · intro k hk
      rw [Nat.add_assoc, Nat.add_comm 1 k]
      exact h (k + 1) (Nat.succ_lt_succ hk)

theorem value?_withValues (hname : Function.Injective name) {index k : Nat} {children : List Block}
    {child : Block} (h : children[k]? = some child) :
    (b.withValues (numbered name index children)).value? (name (index + k)) = some child := by
  induction children generalizing b index k with
  | nil => cases h
  | cons first rest ih =>
    rw [withValues_numbered_cons]
    cases k with
    | zero =>
      cases h
      rw [value?_withValues_of_ne, value?_withValue]
      · exact if_pos rfl
      · intro k _ e
        have hk := hname e
        omega
    | succ k =>
      have hstep := @ih (b.withValue (name index) first) (index + 1) k h
      rwa [Nat.add_assoc, Nat.add_comm 1 k] at hstep

end Block

theorem Expr.toBlocks_eq_map (items : List Expr) : toBlocks items = items.map toBlock := by
  induction items with
  | nil => rw [toBlocks, List.map_nil]
  | cons e rest ih => rw [toBlocks, ih, List.map_cons]

theorem Expr.next_toBlock (e : Expr) : e.toBlock.next = none := by
  cases e with
  | var v => rw [toBlock, Var.toBlock]
  | list element items attrs =>
    rw [toBlock]
    exact (Block.extends_withValues _ _).1.next
  | join items attrs =>
    rw [toBlock]
    exact (Block.extends_withValues _ _).1.next
  | _ => rw [toBlock]

/-! ## Branches -/

namespace Stmt

theorem toBlocks_eq_map (body : List Stmt) : toBlocks body = body.map toBlock := by
  induction body with
  | nil => rw [toBlocks, List.map_nil]
  | cons s rest ih => rw [toBlocks, ih, List.map_cons]

theorem branchesToBlock_cons (b : Block) (index : Nat) (condition : Expr) (body : List Stmt)
    (rest : List (Expr × List Stmt)) :
    branchesToBlock b index ((condition, body) :: rest) =
      branchesToBlock ((b.withValue (conditionSlot index) condition.toBlock).withBody
        (branchSlot index) (toBlocks body)) (index + 1) rest := by
  rw [branchesToBlock]

theorem extends_branchesToBlock (b : Block) (index : Nat) (branches : List (Expr × List Stmt)) :
    (branchesToBlock b index branches).Extends b := by
  induction branches generalizing b index with
  | nil =>
    rw [branchesToBlock]
    exact .refl b
  | cons branch rest ih =>
    obtain ⟨condition, body⟩ := branch
    rw [branchesToBlock_cons]
    exact (ih _ _).trans ((Block.extends_withBody _ _ _).trans (Block.extends_withValue _ _ _))

theorem values_branchesToBlock (b : Block) (index : Nat) (branches : List (Expr × List Stmt)) :
    (branchesToBlock b index branches).values =
      (b.withValues (numbered conditionSlot index (branches.map fun branch => branch.1.toBlock))).values := by
  induction branches generalizing b index with
  | nil =>
    rw [branchesToBlock]
    rfl
  | cons branch rest ih =>
    obtain ⟨condition, body⟩ := branch
    rw [branchesToBlock_cons, ih, List.map_cons, Block.withValues_numbered_cons,
      Block.values_withValues, Block.values_withValues, Block.values_withBody]

theorem sorted_branchesToBlock {b : Block} {index : Nat} {branches : List (Expr × List Stmt)}
    (h : Dict.Sorted b.statements) : Dict.Sorted (branchesToBlock b index branches).statements := by
  induction branches generalizing b index with
  | nil =>
    rw [branchesToBlock]
    exact h
  | cons branch rest ih =>
    obtain ⟨condition, body⟩ := branch
    rw [branchesToBlock_cons]
    exact ih (Block.sorted_withBody h)

section Bodies

variable {b : Block} {index : Nat} {branches : List (Expr × List Stmt)}
  (hempty : ∀ i, index ≤ i → b.statement? (branchSlot i) = none)

include hempty

theorem statement?_branch (condition : Expr) (body : List Stmt) (slot : String) :
    ((b.withValue (conditionSlot index) condition.toBlock).withBody (branchSlot index)
      (toBlocks body)).statement? slot =
      if branchSlot index = slot then Block.link (toBlocks body) else b.statement? slot := by
  have hempty' : (b.withValue (conditionSlot index) condition.toBlock).statement?
      (branchSlot index) = none := hempty index (Nat.le_refl index)
  exact Block.statement?_withBody hempty' slot

theorem statement?_branch_of_le (condition : Expr) (body : List Stmt) (i : Nat) (hi : index + 1 ≤ i) :
    ((b.withValue (conditionSlot index) condition.toBlock).withBody (branchSlot index)
      (toBlocks body)).statement? (branchSlot i) = none := by
  rw [statement?_branch hempty, if_neg]
  · exact hempty i (Nat.le_of_succ_le hi)
  · intro e
    have hindex := Block.branchSlot_injective e
    omega

theorem statement?_branchesToBlock_of_ne {slot : String}
    (h : ∀ k < branches.length, slot ≠ branchSlot (index + k)) :
    (branchesToBlock b index branches).statement? slot = b.statement? slot := by
  induction branches generalizing b index with
  | nil => rw [branchesToBlock]
  | cons branch rest ih =>
    obtain ⟨condition, body⟩ := branch
    rw [branchesToBlock_cons, ih (statement?_branch_of_le hempty condition body), statement?_branch hempty, if_neg]
    · exact fun e => h 0 (Nat.succ_pos _) e.symm
    · intro k hk
      rw [Nat.add_assoc, Nat.add_comm 1 k]
      exact h (k + 1) (Nat.succ_lt_succ hk)

theorem statement?_branchesToBlock {k : Nat} {branch : Expr × List Stmt} (h : branches[k]? = some branch) :
    (branchesToBlock b index branches).statement? (branchSlot (index + k)) =
      Block.link (toBlocks branch.2) := by
  induction branches generalizing b index k with
  | nil => cases h
  | cons first rest ih =>
    obtain ⟨condition, body⟩ := first
    have hnext := statement?_branch_of_le hempty condition body
    rw [branchesToBlock_cons]
    cases k with
    | zero =>
      cases h
      rw [statement?_branchesToBlock_of_ne hnext, statement?_branch hempty]
      · exact if_pos rfl
      · intro k _ e
        have hk := Block.branchSlot_injective e
        omega
    | succ k =>
      have hstep := ih hnext h
      rwa [Nat.add_assoc, Nat.add_comm 1 k] at hstep

end Bodies

theorem otherwiseToBlocks_eq (otherwise : Option (List Stmt)) :
    otherwiseToBlocks otherwise = toBlocks (otherwise.getD []) := by
  cases otherwise with
  | none => rw [otherwiseToBlocks, Option.getD_none, toBlocks]
  | some body => rw [otherwiseToBlocks, Option.getD_some]

theorem extends_choose (base : Block) (branches : List (Expr × List Stmt)) (last : List Block) :
    ((branchesToBlock base 0 branches).withBody "ELSE" last).Extends base :=
  (Block.extends_withBody _ _ _).trans (extends_branchesToBlock base 0 branches)

section Choose

variable {base : Block} (hempty : base.statements = []) (branches : List (Expr × List Stmt))
  (otherwise : Option (List Stmt))

include hempty

theorem statement?_choose (slot : String) :
    ((branchesToBlock base 0 branches).withBody "ELSE" (otherwiseToBlocks otherwise)).statement? slot =
      if "ELSE" = slot then Block.link (toBlocks (otherwise.getD []))
      else (branchesToBlock base 0 branches).statement? slot := by
  have hnone : ∀ slot, base.statement? slot = none := by
    intro slot
    rw [Block.statement?, hempty]
    rfl
  have helse : (branchesToBlock base 0 branches).statement? "ELSE" = none := by
    rw [statement?_branchesToBlock_of_ne (fun i _ => hnone _), hnone]
    exact fun k _ e => Block.branchSlot_ne_else (0 + k) e.symm
  rw [Block.statement?_withBody helse, otherwiseToBlocks_eq]

theorem statement?_choose_branch {k : Nat} {branch : Expr × List Stmt} (h : branches[k]? = some branch) :
    ((branchesToBlock base 0 branches).withBody "ELSE" (otherwiseToBlocks otherwise)).statement?
      (branchSlot k) = Block.link (toBlocks branch.2) := by
  have hnone : ∀ i, 0 ≤ i → base.statement? (branchSlot i) = none := by
    intro i _
    rw [Block.statement?, hempty]
    rfl
  have hbranch := statement?_branchesToBlock hnone h
  rw [Nat.zero_add] at hbranch
  rw [statement?_choose hempty, if_neg (Block.branchSlot_ne_else k).symm, hbranch]

theorem statement?_choose_of_ne {slot : String} (helse : "ELSE" ≠ slot)
    (hslot : ∀ k < branches.length, slot ≠ branchSlot k) :
    ((branchesToBlock base 0 branches).withBody "ELSE" (otherwiseToBlocks otherwise)).statement? slot = none := by
  have hnone : ∀ slot, base.statement? slot = none := by
    intro slot
    rw [Block.statement?, hempty]
    rfl
  rw [statement?_choose hempty, if_neg helse, statement?_branchesToBlock_of_ne (fun i _ => hnone _), hnone]
  intro k hk
  rw [Nat.zero_add]
  exact hslot k hk

end Choose

end Stmt

end Blockwork
