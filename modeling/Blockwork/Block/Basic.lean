import Blockwork.Dict

/-! # Blocks

A workspace is a forest of blocks. A block has a tag, attributes, named fields that hold texts, named
slots that hold other blocks, and perhaps a block that comes next after it. Nothing about a block is
checked here: any tag, field and slot may occur.
-/

namespace Blockwork

set_option autoImplicit false

structure Position where
  x : Int64
  y : Int64
deriving DecidableEq

structure Comment where
  text : String
  pinned : Bool := false
  width : Option UInt32 := none
  height : Option UInt32 := none
deriving DecidableEq

/-- Attributes of one block that its tag asks for, such as the count of its items. -/
abbrev Mutation := Dict String

structure Attributes where
  id : String
  position : Option Position := none
  disabled : Bool := false
  collapsed : Bool := false
  inline : Option Bool := none
  deletable : Option Bool := none
  movable : Option Bool := none
  mutation : Option Mutation := none
  comment : Option Comment := none
deriving DecidableEq

namespace Attributes

def mutation? (a : Attributes) (key : String) : Option String :=
  a.mutation.bind (Dict.get? key)

def writtenComment (a : Attributes) : Option Comment :=
  a.comment.filter fun c => !c.text.isEmpty

end Attributes

/-- A block. Slots are dictionaries: ascending names, each once. -/
structure Block where
  tag : String
  attrs : Attributes
  fields : List (String × String) := []
  values : List (String × Block) := []
  statements : List (String × Block) := []
  next : Option Block := none

namespace Block

def id (b : Block) : String :=
  b.attrs.id

def field? (b : Block) (name : String) : Option String :=
  Dict.get? name b.fields

def value? (b : Block) (slot : String) : Option Block :=
  Dict.get? slot b.values

def statement? (b : Block) (slot : String) : Option Block :=
  Dict.get? slot b.statements

def withField (b : Block) (name value : String) : Block :=
  { b with fields := Dict.insert name value b.fields }

def withValue (b : Block) (slot : String) (child : Block) : Block :=
  { b with values := Dict.insert slot child b.values }

def withStatement (b : Block) (slot : String) (first : Block) : Block :=
  { b with statements := Dict.insert slot first b.statements }

mutual

def chain : Block → List Block
  | b@{ next, .. } => b :: chainFrom next

def chainFrom : Option Block → List Block
  | none => []
  | some b => chain b

end

/-! ## Equality -/

mutual

def decEq : (a b : Block) → Decidable (a = b)
  | ⟨tag, attrs, fields, values, statements, next⟩, ⟨tag', attrs', fields', values', statements', next'⟩ =>
    if h : tag = tag' ∧ attrs = attrs' ∧ fields = fields' then
      match decEqSlots values values', decEqSlots statements statements', decEqNext next next' with
      | isTrue h₁, isTrue h₂, isTrue h₃ =>
        isTrue (by obtain ⟨rfl, rfl, rfl⟩ := h; subst h₁ h₂ h₃; rfl)
      | isFalse n, _, _ => isFalse (by rintro ⟨⟩; exact n rfl)
      | _, isFalse n, _ => isFalse (by rintro ⟨⟩; exact n rfl)
      | _, _, isFalse n => isFalse (by rintro ⟨⟩; exact n rfl)
    else isFalse (by rintro ⟨⟩; exact h ⟨rfl, rfl, rfl⟩)

def decEqSlots : (a b : List (String × Block)) → Decidable (a = b)
  | [], [] => isTrue rfl
  | [], _ :: _ => isFalse nofun
  | _ :: _, [] => isFalse nofun
  | (k, v) :: as, (k', v') :: bs =>
    if h : k = k' then
      match decEq v v', decEqSlots as bs with
      | isTrue h₁, isTrue h₂ => isTrue (by subst h h₁ h₂; rfl)
      | isFalse n, _ => isFalse (by rintro ⟨⟩; exact n rfl)
      | _, isFalse n => isFalse (by rintro ⟨⟩; exact n rfl)
    else isFalse (by rintro ⟨⟩; exact h rfl)

def decEqNext : (a b : Option Block) → Decidable (a = b)
  | none, none => isTrue rfl
  | none, some _ => isFalse nofun
  | some _, none => isFalse nofun
  | some a, some b =>
    match decEq a b with
    | isTrue h => isTrue (by subst h; rfl)
    | isFalse n => isFalse (by rintro ⟨⟩; exact n rfl)

end

instance : DecidableEq Block := decEq

/-! ## Children are smaller -/

theorem sizeOf_lt_of_get? {key : String} {d : List (String × Block)} {b : Block}
    (h : Dict.get? key d = some b) : sizeOf b < sizeOf d := by
  induction d with
  | nil => cases h
  | cons entry rest ih =>
    obtain ⟨k, v⟩ := entry
    unfold Dict.get? at h
    split at h
    · cases h
      simp only [List.cons.sizeOf_spec, Prod.mk.sizeOf_spec]
      omega
    · have := ih h
      simp only [List.cons.sizeOf_spec]
      omega

theorem sizeOf_value_lt {b child : Block} {slot : String} (h : b.value? slot = some child) :
    sizeOf child < sizeOf b := by
  have := sizeOf_lt_of_get? h
  cases b
  simp only [Block.mk.sizeOf_spec] at *
  omega

theorem sizeOf_statement_lt {b child : Block} {slot : String} (h : b.statement? slot = some child) :
    sizeOf child < sizeOf b := by
  have := sizeOf_lt_of_get? h
  cases b
  simp only [Block.mk.sizeOf_spec] at *
  omega

end Block

end Blockwork
