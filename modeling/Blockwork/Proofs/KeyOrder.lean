import Blockwork.Json.Parser
import Blockwork.Proofs.Dictionary

/-! # Ascending keys

An object is a dictionary, so its members have ascending keys. The type of values does not say so.
-/

namespace Blockwork

set_option autoImplicit false

namespace Json

/-! ## Values with ascending keys -/

/-- The members of every object have ascending keys. -/
inductive Ordered : Json → Prop where
  | null : Ordered .null
  | bool (b : Bool) : Ordered (.bool b)
  | number (n : Number) : Ordered (.number n)
  | text (s : String) : Ordered (.text s)
  | array {items : List Json} (hitems : ∀ v ∈ items, Ordered v) : Ordered (.array items)
  | object {members : List (String × Json)} (hsorted : Dict.Sorted members)
    (hmembers : ∀ m ∈ members, Ordered m.2) : Ordered (.object members)

theorem ordered_array_iff {items : List Json} : (array items).Ordered ↔ ∀ v ∈ items, v.Ordered := by
  refine ⟨fun h => ?_, .array⟩
  cases h with
  | array hitems => exact hitems

theorem ordered_object_iff {members : List (String × Json)} :
    (object members).Ordered ↔ Dict.Sorted members ∧ ∀ m ∈ members, m.2.Ordered := by
  refine ⟨fun h => ?_, fun h => .object h.1 h.2⟩
  cases h with
  | object hsorted hmembers => exact ⟨hsorted, hmembers⟩

mutual

def decOrdered : (v : Json) → Decidable v.Ordered
  | .null => isTrue .null
  | .bool b => isTrue (.bool b)
  | .number n => isTrue (.number n)
  | .text s => isTrue (.text s)
  | .array items =>
    match decOrderedItems items with
    | isTrue h => isTrue (.array h)
    | isFalse n => isFalse fun h => n (ordered_array_iff.mp h)
  | .object members =>
    if hsorted : Dict.Sorted members then
      match decOrderedMembers members with
      | isTrue h => isTrue (.object hsorted h)
      | isFalse n => isFalse fun h => n (ordered_object_iff.mp h).2
    else isFalse fun h => hsorted (ordered_object_iff.mp h).1

def decOrderedItems : (items : List Json) → Decidable (∀ v ∈ items, v.Ordered)
  | [] => isTrue fun _ h => absurd h List.not_mem_nil
  | v :: vs =>
    match decOrdered v, decOrderedItems vs with
    | isTrue h, isTrue hs => isTrue (List.forall_mem_cons.mpr ⟨h, hs⟩)
    | isFalse n, _ => isFalse fun h => n (List.forall_mem_cons.mp h).1
    | _, isFalse n => isFalse fun h => n (List.forall_mem_cons.mp h).2

def decOrderedMembers : (members : List (String × Json)) → Decidable (∀ m ∈ members, m.2.Ordered)
  | [] => isTrue fun _ h => absurd h List.not_mem_nil
  | (_, v) :: rest =>
    match decOrdered v, decOrderedMembers rest with
    | isTrue h, isTrue hs => isTrue (List.forall_mem_cons.mpr ⟨h, hs⟩)
    | isFalse n, _ => isFalse fun h => n (List.forall_mem_cons.mp h).1
    | _, isFalse n => isFalse fun h => n (List.forall_mem_cons.mp h).2

end
instance : DecidablePred Ordered := decOrdered

theorem get?_eq (key : String) (v : Json) : v.get? key = Dict.get? key v.members := by
  cases v <;> rfl

variable {v x : Json} {key : String}

theorem Ordered.sorted_members (h : v.Ordered) : Dict.Sorted v.members := by
  cases h with
  | object hsorted _ => exact hsorted
  | _ => exact List.Pairwise.nil

theorem Ordered.get? (h : v.Ordered) (hx : v.get? key = some x) : x.Ordered := by
  cases h with
  | object _ hmembers => exact hmembers (key, x) (Dict.mem_of_get? hx)
  | _ => cases hx

theorem Ordered.get?_iff (h : v.Ordered) : v.get? key = some x ↔ (key, x) ∈ v.members := by
  rw [get?_eq]
  exact ⟨Dict.mem_of_get?, h.sorted_members.get?_of_mem⟩

theorem sizeOf_get?_lt (h : v.get? key = some x) : sizeOf x < sizeOf v := by
  cases v with
  | object members =>
    have hlt := Dict.sizeOf_lt_of_get? h
    simp only [Json.object.sizeOf_spec]
    omega
  | _ => cases h

/-! ## Texts that were read -/

def Frame.Ordered : Frame → Prop
  | .array items => ∀ v ∈ items, v.Ordered
  | .object members _ => (Json.object members).Ordered

def Expect.Ordered : Expect → Prop
  | .firstKey members | .key members | .colon members _ => (Json.object members).Ordered
  | .finish v => v.Ordered
  | .value | .item | .more => True

structure Machine.Ordered (m : Machine) : Prop where
  stack : ∀ frame ∈ m.stack, frame.Ordered
  expect : m.expect.Ordered

theorem Ordered.insert {members : List (String × Json)} (h : (Json.object members).Ordered) (hv : v.Ordered) :
    (Json.object (Dict.insert key v members)).Ordered := by
  cases h with
  | object hsorted hmembers =>
    have hsorted' := Dict.sorted_insert key v members hsorted
    refine .object hsorted' fun m hm => ?_
    have hget := hsorted'.get?_of_mem hm
    rw [Dict.get?_insert] at hget
    split at hget
    · cases hget
      exact hv
    · exact hmembers _ (Dict.mem_of_get? hget)

namespace Machine

variable {stack : List Frame} {t : Token} {m : Machine}

theorem ordered_put {v : Json} (hstack : ∀ frame ∈ stack, frame.Ordered) (hv : v.Ordered) : (put stack v).Ordered := by
  match stack, hstack with
  | [], _ => exact ⟨by simp [put], hv⟩
  | .array items :: rest, hstack =>
    have hframe : (Frame.array (v :: items)).Ordered := by
      have := hstack _ List.mem_cons_self
      simp_all [Frame.Ordered]
    exact ⟨by simp_all [put], trivial⟩
  | .object members key :: rest, hstack =>
    have hframe : (Frame.object (Dict.insert key v members) key).Ordered :=
      Json.Ordered.insert (hstack _ List.mem_cons_self) hv
    exact ⟨by simp_all [put], trivial⟩

theorem ordered_value (hstack : ∀ frame ∈ stack, frame.Ordered) (h : value stack t = some m) : m.Ordered := by
  unfold value at h
  split at h
  case h_5 | h_6 =>
    split at h
    · cases h
      refine ⟨?_, ?_⟩
      · intro frame hframe
        rcases List.mem_cons.mp hframe with rfl | hframe
        · first
          | exact fun v hv => absurd hv List.not_mem_nil
          | exact .object List.Pairwise.nil fun m hm => absurd hm List.not_mem_nil
        · exact hstack frame hframe
      · first
        | trivial
        | exact .object List.Pairwise.nil fun m hm => absurd hm List.not_mem_nil
    · cases h
  case h_7 => cases h
  all_goals
    cases h
    exact ordered_put hstack (by constructor)

theorem ordered_more (hstack : ∀ frame ∈ stack, frame.Ordered) (h : more stack t = some m) : m.Ordered := by
  unfold more at h
  split at h
  · cases h
    exact ⟨hstack, trivial⟩
  · cases h
    have hitems := hstack _ List.mem_cons_self
    refine ordered_put (fun frame hframe => hstack frame (List.mem_cons_of_mem _ hframe)) ?_
    exact .array fun v hv => hitems v (List.mem_reverse.mp hv)
  · cases h
    exact ⟨hstack, hstack _ List.mem_cons_self⟩
  · cases h
    exact ordered_put (fun frame hframe => hstack frame (List.mem_cons_of_mem _ hframe)) (hstack _ List.mem_cons_self)
  · cases h

theorem Ordered.step {m' : Machine} (hm : m.Ordered) (h : m.step t = some m') : m'.Ordered := by
  obtain ⟨stack, expect⟩ := m
  obtain ⟨hstack, hexpect⟩ := hm
  unfold Machine.step at h
  split at h
  · exact ordered_value hstack h
  · exact ordered_more hstack h
  · exact ordered_value hstack h
  · exact ordered_more hstack h
  · cases h
    exact ⟨hstack, by simp_all [Expect.Ordered]⟩
  · cases h
    exact ⟨hstack, by simp_all [Expect.Ordered]⟩
  · split at h
    · cases h
      refine ⟨fun frame hframe => ?_, trivial⟩
      rcases List.mem_cons.mp hframe with rfl | hframe
      · simp_all [Frame.Ordered, Expect.Ordered]
      · exact hstack frame (by simp_all)
    · cases h
  · exact ordered_more hstack h
  · cases h

theorem Ordered.run {m' : Machine} {tokens : List Token} (hm : m.Ordered)
    (h : tokens.foldlM Machine.step m = some m') : m'.Ordered := by
  induction tokens generalizing m with
  | nil =>
    cases h
    exact hm
  | cons t tokens ih =>
    rw [List.foldlM_cons] at h
    obtain ⟨m₁, hstep, hrest⟩ := Option.bind_eq_some_iff.mp h
    exact ih (hm.step hstep) hrest

end Machine

theorem ordered_of_parse? {s : String} (h : parse? s = some v) : v.Ordered := by
  obtain ⟨tokens, -, h⟩ := Option.bind_eq_some_iff.mp h
  obtain ⟨m, hrun, h⟩ := Option.bind_eq_some_iff.mp h
  have hstart : Machine.start.Ordered := ⟨fun frame hframe => absurd hframe List.not_mem_nil, trivial⟩
  have hm := hstart.run hrun
  unfold Machine.result? at h
  split at h
  · next hexpect =>
    cases h
    have := hm.expect
    rwa [hexpect] at this
  · cases h

end Json

end Blockwork
