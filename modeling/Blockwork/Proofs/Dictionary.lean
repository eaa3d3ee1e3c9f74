import Mathlib.Data.List.Nodup
import Mathlib.Data.List.Perm.Subperm
import Blockwork.Dict

/-! # Members of dictionaries

* `Dict.mem_of_get?` and `Dict.get?_of_mem` relate look-ups and members.
* `Dict.Sorted.length_le` compares dictionaries by their keys.
* `Dict.collect` is the dictionary of what is there under some keys.
* `Dict.ofList_of_sorted` says that pairs with ascending keys are collected as they stand.
-/

namespace Blockwork.Dict

set_option autoImplicit false

variable {α : Type}

instance (d : Dict α) : Decidable (Sorted d) :=
  inferInstanceAs (Decidable (List.Pairwise _ _))

variable {key : String} {value : α}

theorem mem_of_get? {d : Dict α} (h : get? key d = some value) : (key, value) ∈ d := by
  induction d with
  | nil => cases h
  | cons pair rest ih =>
    obtain ⟨k, v⟩ := pair
    unfold get? at h
    split at h
    · next e =>
      cases h
      exact e ▸ List.mem_cons_self
    · exact List.mem_cons_of_mem _ (ih h)

theorem mem_keys_of_get? {d : Dict α} (h : get? key d = some value) : key ∈ keys d :=
  List.mem_map_of_mem (mem_of_get? h)

theorem get?_eq_none_iff {d : Dict α} : get? key d = none ↔ key ∉ keys d := by
  induction d with
  | nil => simp [get?, keys]
  | cons pair rest ih =>
    obtain ⟨k, v⟩ := pair
    simp only [get?, keys, List.map_cons, List.mem_cons, not_or] at ih ⊢
    split
    · next e => simp [e]
    · next ne =>
      rw [ih]
      exact ⟨fun h => ⟨fun e => ne e.symm, h⟩, And.right⟩

theorem isSome_get?_iff {d : Dict α} : (get? key d).isSome = true ↔ key ∈ keys d := by
  rw [Option.isSome_iff_ne_none, Ne, get?_eq_none_iff, not_not]

theorem get?_append (key : String) (d d' : Dict α) : get? key (d ++ d') = (get? key d).or (get? key d') := by
  induction d with
  | nil => rfl
  | cons pair rest ih =>
    rw [List.cons_append, get?, get?, ih]
    split <;> rfl

theorem Sorted.nodup_keys {d : Dict α} (h : Sorted d) : (keys d).Nodup := by
  refine List.Pairwise.imp ?_ h
  rintro key _ hlt rfl
  exact String.lt_irrefl key hlt

theorem get?_of_mem {d : Dict α} (hd : (keys d).Nodup) (h : (key, value) ∈ d) : get? key d = some value := by
  induction d with
  | nil => cases h
  | cons pair rest ih =>
    obtain ⟨k, v⟩ := pair
    obtain ⟨hk, hrest⟩ := List.nodup_cons.mp hd
    rw [get?]
    rcases List.mem_cons.mp h with e | h
    · cases e
      exact if_pos rfl
    · have hne : k ≠ key := by
        rintro rfl
        have hmem : k ∈ keys rest := List.mem_map.mpr ⟨(k, value), h, rfl⟩
        exact hk hmem
      rw [if_neg hne]
      exact ih hrest h

theorem Sorted.get?_of_mem {d : Dict α} (hd : Sorted d) (h : (key, value) ∈ d) : get? key d = some value :=
  Dict.get?_of_mem hd.nodup_keys h

theorem sizeOf_lt_of_get? [SizeOf α] {d : Dict α} (h : get? key d = some value) : sizeOf value < sizeOf d := by
  have hmem := List.sizeOf_lt_of_mem (mem_of_get? h)
  simp only [Prod.mk.sizeOf_spec] at hmem
  omega

theorem Sorted.length_le {β : Type} {d : Dict α} {d' : Dict β} (h : Sorted d)
    (hkeys : keys d ⊆ keys d') : d.length ≤ d'.length := by
  have hle := (List.subperm_of_subset h.nodup_keys hkeys).length_le
  simpa only [keys, List.length_map] using hle

theorem eq_nil_of_keys {d : Dict α} (hkeys : keys d ⊆ []) : d = [] :=
  List.map_eq_nil_iff.mp (List.subset_nil.mp hkeys)

theorem Sorted.eq_singleton {d : Dict α} (hd : Sorted d)
    (hkeys : keys d ⊆ [key]) (h : get? key d = some value) : d = [(key, value)] := by
  have hmem : (key, value) ∈ d := mem_of_get? h
  have hlength : d.length ≤ 1 := @Sorted.length_le α α d [(key, value)] hd hkeys
  match d, hlength, hmem with
  | [pair], _, hmem => rw [List.mem_singleton.mp hmem]

/-! ## Dictionaries made of what is there -/

def collect (keys : List String) (f : String → Option α) : Dict α :=
  keys.flatMap fun key => ((f key).map fun value => (key, value)).toList

theorem get?_collect (keys : List String) (f : String → Option α) (key : String) :
    get? key (collect keys f) = if key ∈ keys then f key else none := by
  unfold collect
  induction keys with
  | nil => rfl
  | cons k keys ih =>
    rw [List.flatMap_cons, get?_append, ih]
    by_cases hk : key = k
    · subst hk
      cases f key <;> simp [get?]
    · have hk' : k ≠ key := fun e => hk e.symm
      cases f k <;> simp [get?, hk, hk']

theorem keys_collect (keys : List String) (f : String → Option α) : (Dict.keys (collect keys f)).Sublist keys := by
  unfold collect Dict.keys
  induction keys with
  | nil => exact List.Sublist.slnil
  | cons k keys ih =>
    rw [List.flatMap_cons, List.map_append, ← List.singleton_append]
    refine List.Sublist.append ?_ ih
    cases f k with
    | none => exact List.nil_sublist _
    | some value => exact List.Sublist.refl _

theorem sorted_collect {keys : List String} (f : String → Option α) (h : keys.Pairwise (· < ·)) :
    Sorted (collect keys f) :=
  h.sublist (keys_collect keys f)

/-! ## Pairs that ascend already -/

theorem insert_of_lt {d : Dict α} (value : α) (h : ∀ k ∈ keys d, k < key) :
    insert key value d = d ++ [(key, value)] := by
  induction d with
  | nil => rfl
  | cons pair rest ih =>
    obtain ⟨k, v⟩ := pair
    obtain ⟨hk, hrest⟩ := List.forall_mem_cons.mp h
    have hne : key ≠ k := fun e => String.lt_irrefl k (e ▸ hk)
    have hnlt : ¬key < k := fun hlt => String.lt_irrefl k (String.lt_trans hk hlt)
    rw [insert, if_neg hne, if_neg hnlt, ih hrest, List.cons_append]

theorem insert_of_sorted {d rest : Dict α} (h : Sorted (d ++ (key, value) :: rest)) :
    insert key value d = d ++ [(key, value)] := by
  refine insert_of_lt value fun k hk => ?_
  have hsorted : (keys d ++ key :: keys rest).Pairwise (· < ·) := by
    simpa only [Sorted, keys, List.map_append, List.map_cons] using h
  exact (List.pairwise_append.mp hsorted).2.2 k hk key List.mem_cons_self

theorem foldl_insert_of_sorted {d pairs : Dict α} (h : Sorted (d ++ pairs)) :
    pairs.foldl (fun d (key, value) => insert key value d) d = d ++ pairs := by
  induction pairs generalizing d with
  | nil => rw [List.foldl_nil, List.append_nil]
  | cons pair rest ih =>
    obtain ⟨key, value⟩ := pair
    have hinsert := insert_of_sorted h
    have hassoc : d ++ (key, value) :: rest = (d ++ [(key, value)]) ++ rest := by simp
    rw [hassoc] at h ⊢
    have hfirst := ih h
    rw [← hinsert] at hfirst ⊢
    exact hfirst

theorem ofList_of_sorted {pairs : Dict α} (h : Sorted pairs) : ofList pairs = pairs :=
  foldl_insert_of_sorted h

end Blockwork.Dict
