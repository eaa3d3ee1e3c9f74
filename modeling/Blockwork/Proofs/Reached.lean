import Mathlib.Data.List.Basic
import Blockwork.Block.Basic
import Blockwork.Proofs.Dictionary

/-! # Blocks inside blocks

* `Block.reached` are a block and all blocks reached from it through value slots, statement slots and
  what comes next.
* `Block.ids` are their identifiers, and `Block.Fits` says that identifiers are new.
* `Block.Ordered` says that the dictionaries of a block have ascending keys, and `Block.Solid` that its mutation is
  not empty.
-/

namespace Blockwork.Block

set_option autoImplicit false

variable {b c : Block} {slot : String}

mutual

/-- A block and all blocks reached from it. -/
def reached : Block → List Block
  | b@{ values, statements, next, .. } =>
    b :: (reachedSlots values ++ reachedSlots statements ++ reachedNext next)

def reachedSlots : List (String × Block) → List Block
  | [] => []
  | (_, b) :: rest => reached b ++ reachedSlots rest

def reachedNext : Option Block → List Block
  | none => []
  | some b => reached b

end

def ids (b : Block) : List String :=
  b.reached.map id

theorem reached_eq (b : Block) :
    b.reached = b :: (reachedSlots b.values ++ reachedSlots b.statements ++ reachedNext b.next) := by
  cases b
  rw [reached]

theorem mem_reached_self (b : Block) : b ∈ b.reached := by
  rw [reached_eq]
  exact List.mem_cons_self

theorem id_mem_ids (b : Block) : b.id ∈ b.ids :=
  List.mem_map_of_mem (mem_reached_self b)

theorem reached_subset_reachedSlots {slots : List (String × Block)} (h : (slot, c) ∈ slots) :
    c.reached ⊆ reachedSlots slots := by
  induction slots with
  | nil => cases h
  | cons entry rest ih =>
    obtain ⟨name, d⟩ := entry
    rw [reachedSlots]
    rcases List.mem_cons.mp h with e | h
    · cases e
      exact List.subset_append_left _ _
    · exact List.Subset.trans (ih h) (List.subset_append_right _ _)

theorem reached_value (h : b.value? slot = some c) : c.reached ⊆ b.reached := by
  intro d hd
  have hd' := reached_subset_reachedSlots (Dict.mem_of_get? h) hd
  rw [reached_eq]
  simp only [List.mem_cons, List.mem_append]
  exact .inr (.inl (.inl hd'))

theorem reached_statement (h : b.statement? slot = some c) : c.reached ⊆ b.reached := by
  intro d hd
  have hd' := reached_subset_reachedSlots (Dict.mem_of_get? h) hd
  rw [reached_eq]
  simp only [List.mem_cons, List.mem_append]
  exact .inr (.inl (.inr hd'))

theorem reached_next (h : b.next = some c) : c.reached ⊆ b.reached := by
  intro d hd
  rw [reached_eq, h, reachedNext]
  simp only [List.mem_cons, List.mem_append]
  exact .inr (.inr hd)

/-! ## Chains -/

theorem chain_eq (b : Block) : b.chain = b :: chainFrom b.next := by
  cases b
  rw [chain]

@[simp] theorem chainFrom_none : chainFrom none = [] := by
  rw [chainFrom]

@[simp] theorem chainFrom_some (b : Block) : chainFrom (some b) = b.chain := by
  rw [chainFrom]

theorem sizeOf_next_lt (h : b.next = some c) : sizeOf c < sizeOf b := by
  cases b
  simp only at h
  subst h
  simp only [Block.mk.sizeOf_spec, Option.some.sizeOf_spec]
  omega

theorem reached_of_mem_chain {b : Block} (h : c ∈ b.chain) : c.reached ⊆ b.reached := by
  rw [chain_eq] at h
  rcases List.mem_cons.mp h with rfl | h
  · exact List.Subset.refl _
  · cases hn : b.next with
    | none =>
      rw [hn, chainFrom_none] at h
      cases h
    | some d =>
      rw [hn, chainFrom_some] at h
      exact List.Subset.trans (reached_of_mem_chain h) (reached_next hn)
termination_by sizeOf b
decreasing_by exact sizeOf_next_lt hn

theorem reached_of_mem_body (h : c ∈ chainFrom (b.statement? slot)) : c.reached ⊆ b.reached := by
  cases hs : b.statement? slot with
  | none =>
    rw [hs, chainFrom_none] at h
    cases h
  | some first =>
    rw [hs, chainFrom_some] at h
    exact List.Subset.trans (reached_of_mem_chain h) (reached_statement hs)

theorem ids_subset (h : c.reached ⊆ b.reached) : c.ids ⊆ b.ids :=
  List.map_subset id h

/-! ## Identifiers that are new -/

/-- The identifiers are different from each other and from those that are taken. -/
structure Fits (taken ids : List String) : Prop where
  nodup : ids.Nodup
  new : ∀ id ∈ ids, id ∉ taken

theorem Fits.left {taken ids ids' : List String} (h : Fits taken (ids ++ ids')) : Fits taken ids :=
  ⟨(List.nodup_append.mp h.nodup).1, fun id hid => h.new id (List.mem_append_left _ hid)⟩

theorem Fits.right {taken ids ids' : List String} (h : Fits taken (ids ++ ids')) :
    Fits (ids.reverse ++ taken) ids' := by
  obtain ⟨-, hnodup, hdisjoint⟩ := List.nodup_append'.mp h.nodup
  refine ⟨hnodup, fun id hid htaken => ?_⟩
  rcases List.mem_append.mp htaken with hmem | htaken
  · exact hdisjoint (List.mem_reverse.mp hmem) hid
  · exact h.new id (List.mem_append_right _ hid) htaken

/-! ## What every block has that was read -/

/-- The dictionaries of the block have ascending keys. -/
structure Ordered (b : Block) : Prop where
  fields : Dict.Sorted b.fields
  values : Dict.Sorted b.values
  statements : Dict.Sorted b.statements
  mutation : Dict.Sorted (b.attrs.mutation.getD [])

instance (b : Block) : Decidable b.Ordered :=
  decidable_of_iff
    (Dict.Sorted b.fields ∧ Dict.Sorted b.values ∧ Dict.Sorted b.statements ∧
      Dict.Sorted (b.attrs.mutation.getD []))
    ⟨fun h => ⟨h.1, h.2.1, h.2.2.1, h.2.2.2⟩, fun h => ⟨h.fields, h.values, h.statements, h.mutation⟩⟩

/-- The mutation, if there is one, has an attribute. -/
def Solid (b : Block) : Prop :=
  b.attrs.mutation ≠ some []

instance (b : Block) : Decidable b.Solid :=
  inferInstanceAs (Decidable (_ ≠ _))

end Blockwork.Block
