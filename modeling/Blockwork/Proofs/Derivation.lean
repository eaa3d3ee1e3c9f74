import Blockwork.Proofs.Origin
import Blockwork.Proofs.TypeNames

/-! # Attributes that a program decides

An attribute of the mutation is set unless the one that is there says the same. It says the same exactly
if it is read as what the program says.
-/

namespace Blockwork

set_option autoImplicit false

open Text (trim strip natText)

namespace Attributes

variable {a : Attributes} {key value : String}

theorem mutation?_eq (a : Attributes) (key : String) : a.mutation? key = Dict.get? key (a.mutation.getD []) := by
  unfold mutation?
  cases a.mutation <;> rfl

theorem derive_of_keeps {kept : String} (h : a.mutation? key = some kept)
    (hkeeps : keeps key kept value = true) : a.derive key value = a := by
  rw [mutation?_eq] at h
  simp only [derive, h, hkeeps, if_true]

theorem derive_of_not_keeps (h : ∀ kept, a.mutation? key = some kept → keeps key kept value = false) :
    a.derive key value = { a with mutation := some (Dict.insert key value (a.mutation.getD [])) } := by
  simp only [mutation?_eq] at h
  cases hkept : Dict.get? key (a.mutation.getD []) with
  | none => simp only [derive, hkept]
  | some kept => simp only [derive, hkept, h kept hkept, Bool.false_eq_true, if_false]

theorem derive_cases (a : Attributes) (key value : String) :
    (∃ kept, a.mutation? key = some kept ∧ keeps key kept value = true ∧ a.derive key value = a) ∨
    ((∀ kept, a.mutation? key = some kept → keeps key kept value = false) ∧
      a.derive key value = { a with mutation := some (Dict.insert key value (a.mutation.getD [])) }) := by
  by_cases h : ∃ kept, a.mutation? key = some kept ∧ keeps key kept value = true
  · obtain ⟨kept, hkept, hkeeps⟩ := h
    exact .inl ⟨kept, hkept, hkeeps, derive_of_keeps hkept hkeeps⟩
  · have hnot : ∀ kept, a.mutation? key = some kept → keeps key kept value = false := by
      intro kept hkept
      exact Bool.eq_false_iff.mpr fun hkeeps => h ⟨kept, hkept, hkeeps⟩
    exact .inr ⟨hnot, derive_of_not_keeps hnot⟩

theorem exists_mutation?_derive (a : Attributes) (hself : keeps key value value = true) :
    ∃ kept, (a.derive key value).mutation? key = some kept ∧ keeps key kept value = true := by
  rcases a.derive_cases key value with ⟨kept, hkept, hkeeps, e⟩ | ⟨-, e⟩
  · rw [e]
    exact ⟨kept, hkept, hkeeps⟩
  · rw [e]
    refine ⟨value, ?_, hself⟩
    rw [mutation?_eq, Option.getD_some, Dict.get?_insert, if_pos rfl]

theorem mutation?_derive_of_ne (a : Attributes) (value : String) {key' : String} (h : key ≠ key') :
    (a.derive key value).mutation? key' = a.mutation? key' := by
  rcases a.derive_cases key value with ⟨kept, -, -, e⟩ | ⟨-, e⟩
  · rw [e]
  · rw [e, mutation?_eq, Option.getD_some, Dict.get?_insert, if_neg h, mutation?_eq]

theorem mutation?_derive_of_keeps {key' value' : String}
    (hkeeps : ∀ kept, a.mutation? key = some kept → keeps key kept value = true)
    (h : a.mutation? key' = some value') : (a.derive key value).mutation? key' = some value' := by
  rcases a.derive_cases key value with ⟨kept, -, -, e⟩ | ⟨hnot, -⟩
  · rw [e]
    exact h
  · rw [mutation?_derive_of_ne a value, h]
    rintro rfl
    have htrue := hkeeps value' h
    rw [hnot value' h] at htrue
    cases htrue

theorem derive_derive (a : Attributes) (hself : keeps key value value = true) :
    (a.derive key value).derive key value = a.derive key value := by
  obtain ⟨kept, hkept, hkeeps⟩ := a.exists_mutation?_derive hself
  exact derive_of_keeps hkept hkeeps

theorem derive_eq (a : Attributes) (key value : String) : ∃ mutation, a.derive key value = { a with mutation } := by
  rcases a.derive_cases key value with ⟨kept, -, -, e⟩ | ⟨-, e⟩
  · exact ⟨a.mutation, e⟩
  · exact ⟨_, e⟩

theorem mutation?_deriveType_of_ne (a : Attributes) (t : Ty) {key' : String} (h : key ≠ key') :
    (a.deriveType key t).mutation? key' = a.mutation? key' := by
  unfold deriveType
  split
  · exact a.mutation?_derive_of_ne _ h
  · rfl

end Attributes

/-! ## What is read from an attribute -/

theorem Text.isEmpty_trim (s : String) : (trim s).isEmpty = (strip s.toList).isEmpty := by
  unfold trim
  rw [Bool.eq_iff_iff, String.isEmpty_iff, List.isEmpty_iff]
  constructor
  · intro h
    have hlist := congrArg String.toList h
    rwa [String.toList_ofList] at hlist
  · intro h
    rw [h]

namespace Block

variable {b : Block} {key kept : String}

theorem writtenAttribute?_of_mutation? (h : b.attrs.mutation? key = some kept) :
    b.writtenAttribute? key =
      if (strip kept.toList).isEmpty then none else some (trim kept) := by
  unfold writtenAttribute?
  rw [h]
  dsimp only
  rw [Text.isEmpty_trim]

theorem declaredType_of_mutation? (h : b.attrs.mutation? key = some kept) :
    b.declaredType key =
      if (strip kept.toList).isEmpty then .ok none
      else
        match Ty.ofName kept with
        | .known t => .ok (some t)
        | .unknown => .error (.invalidField ("mutation." ++ key) (trim kept) b.id)
        | .broken => .error (.brokenTypeName (trim kept) b.id) := by
  unfold declaredType
  rw [writtenAttribute?_of_mutation? h]
  by_cases hblank : (strip kept.toList).isEmpty = true
  · rw [if_pos hblank, if_pos hblank]
  · rw [if_neg hblank, if_neg hblank]
    cases hname : Ty.ofName kept <;> simp only [Ty.ofName_trim, hname]

theorem declaredCount_of_mutation? (h : b.attrs.mutation? key = some kept) :
    b.declaredCount key =
      if (strip kept.toList).isEmpty then .ok none
      else
        match countOf? kept with
        | some n => .ok (some n.toNat)
        | none => .error (.invalidField ("mutation." ++ key) (trim kept) b.id) := by
  unfold declaredCount
  rw [writtenAttribute?_of_mutation? h]
  by_cases hblank : (strip kept.toList).isEmpty = true
  · rw [if_pos hblank, if_pos hblank]
  · rw [if_neg hblank, if_neg hblank]
    unfold countOf?
    cases hread : Text.readUInt64? (trim kept) with
    | none => simp only [hread]
    | some n => simp only [hread]

section Congr

variable {b' : Block} (h : b'.attrs.mutation? key = b.attrs.mutation? key)

include h

theorem writtenAttribute?_congr : b'.writtenAttribute? key = b.writtenAttribute? key := by
  unfold writtenAttribute?
  rw [h]

theorem declaredType_congr {declared : Option Ty} (hdeclared : b.declaredType key = .ok declared) :
    b'.declaredType key = .ok declared := by
  unfold declaredType at hdeclared ⊢
  rw [writtenAttribute?_congr h]
  cases hwritten : b.writtenAttribute? key with
  | none =>
    rw [hwritten] at hdeclared
    exact hdeclared
  | some name =>
    rw [hwritten] at hdeclared
    dsimp only at hdeclared ⊢
    cases hname : Ty.ofName name with
    | known t =>
      rw [hname] at hdeclared
      exact hdeclared
    | unknown =>
      rw [hname] at hdeclared
      cases hdeclared
    | broken =>
      rw [hname] at hdeclared
      cases hdeclared

theorem declaredCount_congr {count : Option Nat} (hcount : b.declaredCount key = .ok count) :
    b'.declaredCount key = .ok count := by
  unfold declaredCount at hcount ⊢
  rw [writtenAttribute?_congr h]
  cases hwritten : b.writtenAttribute? key with
  | none =>
    rw [hwritten] at hcount
    exact hcount
  | some text =>
    rw [hwritten] at hcount
    dsimp only at hcount ⊢
    cases hread : Text.readUInt64? text with
    | some n =>
      rw [hread] at hcount
      exact hcount
    | none =>
      rw [hread] at hcount
      cases hcount

end Congr

theorem keeps_type_iff {name : String} {t : Ty} (hkey : key = "datatype" ∨ key = "list_type")
    (hname : t.name? = some name) (h : b.attrs.mutation? key = some kept) :
    keeps key kept name = true ↔ b.Declares key t := by
  have hread : Ty.ofName? name = some t := by
    rw [Ty.ofName?, Ty.ofName_of_name? hname]
    rfl
  unfold keeps Declares
  rw [if_pos hkey, hread, declaredType_of_mutation? h]
  cases (strip kept.toList).isEmpty with
  | true => simp
  | false =>
    unfold Ty.ofName?
    cases Ty.ofName kept with
    | known u => simp [Ty.Reading.type?]
    | unknown => simp [Ty.Reading.type?]
    | broken => simp [Ty.Reading.type?]

theorem countOf?_of_blank (h : (strip kept.toList).isEmpty = true) : countOf? kept = none := by
  unfold countOf? trim
  rw [List.isEmpty_iff.mp h]
  rfl

theorem keeps_count_iff {n : Nat} (hkey : ¬(key = "datatype" ∨ key = "list_type")) (helse : key ≠ "else")
    (hn : n < UInt64.size) (h : b.attrs.mutation? key = some kept) :
    keeps key kept (natText n) = true ↔ b.declaredCount key = .ok (some n) := by
  unfold keeps
  rw [if_neg hkey, if_neg helse, Text.countOf?_natText hn, declaredCount_of_mutation? h]
  cases hblank : (strip kept.toList).isEmpty with
  | true => simp [countOf?_of_blank hblank]
  | false =>
    cases countOf? kept with
    | none => simp
    | some m =>
      have hm : m = UInt64.ofNat n ↔ m.toNat = n := by
        rw [← UInt64.toNat_inj, UInt64.toNat_ofNat_of_lt' hn]
      simp [hm]

theorem keeps_else_iff {value : String} (h : b.attrs.mutation? "else" = some kept) :
    keeps "else" kept value = true ↔ ∃ n, b.declaredCount "else" = .ok (some n) := by
  unfold keeps
  rw [if_neg (by decide), if_pos rfl, declaredCount_of_mutation? h]
  cases hblank : (strip kept.toList).isEmpty with
  | true => simp [countOf?_of_blank hblank]
  | false => cases countOf? kept <;> simp

/-! ## Attributes that were set say the same -/

theorem keeps_name_self {name : String} {t : Ty} (hkey : key = "datatype" ∨ key = "list_type")
    (hname : t.name? = some name) : keeps key name name = true := by
  have hread : Ty.ofName? name = some t := by
    rw [Ty.ofName?, Ty.ofName_of_name? hname]
    rfl
  unfold keeps
  rw [if_pos hkey, hread]
  simp

theorem keeps_natText_self {n : Nat} (hkey : ¬(key = "datatype" ∨ key = "list_type")) (helse : key ≠ "else")
    (hn : n < UInt64.size) : keeps key (natText n) (natText n) = true := by
  unfold keeps
  rw [if_neg hkey, if_neg helse, Text.countOf?_natText hn]
  simp

variable {a : Attributes}

theorem deriveType_deriveType {t : Ty} (hkey : key = "datatype" ∨ key = "list_type") :
    (a.deriveType key t).deriveType key t = a.deriveType key t := by
  unfold Attributes.deriveType
  cases hname : t.name? with
  | none => rfl
  | some name => exact a.derive_derive (keeps_name_self hkey hname)

theorem Declares.deriveType {b' : Block} {t : Ty} (h : b.Declares key t)
    (hkey : key = "datatype" ∨ key = "list_type") (ha : a.mutation? key = b.attrs.mutation? key)
    (hb' : b'.attrs.mutation? key = (a.deriveType key t).mutation? key) : b'.Declares key t := by
  unfold Attributes.deriveType at hb'
  cases hname : t.name? with
  | none =>
    rw [hname] at hb'
    exact h.imp (declaredType_congr (hb'.trans ha)) (declaredType_congr (hb'.trans ha))
  | some name =>
    rw [hname] at hb'
    obtain ⟨kept, hkept, hkeeps⟩ := a.exists_mutation?_derive (keeps_name_self hkey hname)
    exact (keeps_type_iff hkey hname (hb'.trans hkept)).mp hkeeps

theorem declaredCount_of_derive {n : Nat} (hkey : ¬(key = "datatype" ∨ key = "list_type")) (helse : key ≠ "else")
    (hn : n < UInt64.size) (hb : b.attrs.mutation? key = (a.derive key (natText n)).mutation? key) :
    b.declaredCount key = .ok (some n) := by
  obtain ⟨kept, hkept, hkeeps⟩ := a.exists_mutation?_derive (keeps_natText_self hkey helse hn)
  exact (keeps_count_iff hkey helse hn (hb.trans hkept)).mp hkeeps

end Block

end Blockwork
