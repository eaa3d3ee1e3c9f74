/-! # Dictionaries

A dictionary is a list of pairs with keys in ascending order, each key once. Keys are compared
character by character.
-/

namespace Blockwork

set_option autoImplicit false

/-- Pairs with ascending keys. -/
abbrev Dict (α : Type) := List (String × α)

namespace Dict

variable {α : Type}

def insert (key : String) (value : α) : Dict α → Dict α
  | [] => [(key, value)]
  | (k, v) :: rest =>
    if key = k then (key, value) :: rest
    else if key < k then (key, value) :: (k, v) :: rest
    else (k, v) :: insert key value rest

def get? (key : String) : Dict α → Option α
  | [] => none
  | (k, v) :: rest => if k = key then some v else get? key rest

def contains (key : String) (d : Dict α) : Bool :=
  (get? key d).isSome

/-- The dictionary of a list of pairs; a later pair replaces an earlier one of the same key. -/
def ofList (pairs : List (String × α)) : Dict α :=
  pairs.foldl (fun d (key, value) => insert key value d) []

def keys (d : Dict α) : List String :=
  d.map Prod.fst

def Sorted (d : Dict α) : Prop :=
  d.keys.Pairwise (· < ·)

/-! ## Laws -/

theorem get?_insert (key key' : String) (value : α) (d : Dict α) :
    get? key' (insert key value d) = if key = key' then some value else get? key' d := by
  induction d with
  | nil => rfl
  | cons pair rest ih =>
    obtain ⟨k, v⟩ := pair
    simp only [insert]
    split
    · next h => subst h; simp only [get?]; split <;> rfl
    · split
      · rfl
      · simp only [get?, ih]
        grind

theorem mem_keys_insert (key key' : String) (value : α) (d : Dict α) :
    key' ∈ keys (insert key value d) ↔ key' = key ∨ key' ∈ keys d := by
  induction d with
  | nil => simp [insert, keys]
  | cons pair rest ih =>
    obtain ⟨k, v⟩ := pair
    simp only [insert]
    split
    · next h => subst h; simp [keys]
    · split
      · simp [keys]
      · simp only [keys, List.map_cons, List.mem_cons] at ih ⊢
        grind

theorem sorted_insert (key : String) (value : α) (d : Dict α) (h : Sorted d) :
    Sorted (insert key value d) := by
  induction d with
  | nil => simp [insert, Sorted, keys]
  | cons pair rest ih =>
    obtain ⟨k, v⟩ := pair
    have hk : ∀ k' ∈ keys rest, k < k' := (List.pairwise_cons.mp h).1
    have hrest : Sorted rest := (List.pairwise_cons.mp h).2
    simp only [insert]
    split
    · next e => subst e; exact h
    · next ne =>
      split
      · next lt =>
        refine List.pairwise_cons.mpr ⟨fun k' hk' => ?_, h⟩
        rcases List.mem_cons.mp hk' with rfl | hk'
        · exact lt
        · exact String.lt_trans lt (hk k' hk')
      · next nlt =>
        refine List.pairwise_cons.mpr ⟨fun k' hk' => ?_, ih hrest⟩
        rcases (mem_keys_insert key k' value rest).mp hk' with rfl | hk'
        · exact String.not_le.mp fun le => ne (String.le_antisymm le (String.not_lt.mp nlt))
        · exact hk k' hk'

theorem sorted_ofList (pairs : List (String × α)) : Sorted (ofList pairs) := by
  suffices ∀ d : Dict α, Sorted d →
      Sorted (pairs.foldl (fun d (key, value) => insert key value d) d) from
    this [] List.Pairwise.nil
  induction pairs with
  | nil => exact fun _ h => h
  | cons pair rest ih => exact fun d h => ih _ (sorted_insert pair.1 pair.2 d h)

end Dict

end Blockwork
