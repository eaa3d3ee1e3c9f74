import Blockwork.Proofs.Derivation
import Blockwork.Proofs.Dictionary
import Blockwork.Proofs.Outcomes

/-! # Counts and slots that a block asks for

* `Block.boundedCount_ok_iff` and `Block.refuseOthers_ok_iff` say when a count and the slots of a block
  are taken.
* `Block.itemSlots_ok_iff` says how many items a block has.
-/

namespace Blockwork.Block

set_option autoImplicit false

variable {b : Block} {key : String} {n : Nat}

theorem declaredCount_lt (h : b.declaredCount key = .ok (some n)) : n < UInt64.size := by
  unfold declaredCount at h
  split at h
  · cases h
  · split at h
    · next m _ =>
      cases h
      exact m.toNat_lt
    · cases h

theorem boundedCount_ok_iff {limit : Nat} {count : Option Nat} :
    b.boundedCount key limit = .ok count ↔
      b.declaredCount key = .ok count ∧ ∀ n, count = some n → n ≤ limit := by
  unfold boundedCount
  rw [Except.bind_ok_iff]
  constructor
  · rintro ⟨declared, hdeclared, h⟩
    cases declared with
    | none =>
      cases h
      exact ⟨hdeclared, fun n hn => nomatch hn⟩
    | some m =>
      by_cases hm : limit < m
      · simp only [if_pos hm] at h
        cases h
      · simp only [if_neg hm] at h
        cases h
        refine ⟨hdeclared, fun n hn => ?_⟩
        cases hn
        omega
  · rintro ⟨hdeclared, hlimit⟩
    refine ⟨count, hdeclared, ?_⟩
    cases count with
    | none => rfl
    | some m =>
      have hm : ¬limit < m := Nat.not_lt.mpr (hlimit m rfl)
      simp only [if_neg hm]
      rfl

theorem refuseOthers_ok_iff {values statements : List String} :
    b.refuseOthers values statements = .ok () ↔
      Dict.keys b.values ⊆ values ∧ Dict.keys b.statements ⊆ statements := by
  have hfind : ∀ keys expected : List String,
      keys.find? (fun slot => !expected.contains slot) = none ↔ keys ⊆ expected := by
    intro keys expected
    rw [List.find?_eq_none]
    exact forall₂_congr fun slot _ => by simp
  rw [← hfind, ← hfind]
  unfold refuseOthers
  split
  · next slot hslot =>
    constructor
    · intro h
      cases h
    · rintro ⟨hvalues, hstatements⟩
      rw [hvalues, hstatements] at hslot
      cases hslot
  · next hnone => exact ⟨fun _ => Option.or_eq_none_iff.mp hnone, fun _ => rfl⟩

theorem itemSlots_ok_iff :
    b.itemSlots = .ok ((List.range n).map itemSlot) ↔
      b.itemCount = .ok n ∧ b.refuseOthers ((List.range n).map itemSlot) [] = .ok () := by
  unfold itemSlots
  rw [Except.bind_ok_iff]
  constructor
  · rintro ⟨m, hm, h⟩
    obtain ⟨_, hothers, h⟩ := Except.bind_ok_iff.mp h
    have hslots : (List.range m).map itemSlot = (List.range n).map itemSlot := Except.ok.inj h
    have hlength := congrArg List.length hslots
    rw [List.length_map, List.length_map, List.length_range, List.length_range] at hlength
    subst hlength
    exact ⟨hm, hothers⟩
  · rintro ⟨hn, hothers⟩
    refine ⟨n, hn, ?_⟩
    dsimp only
    rw [hothers]
    rfl

theorem declaredCount_of_itemCount (h : b.itemCount = .ok n) {m : Nat}
    (hm : b.declaredCount "items" = .ok (some m)) : m = n := by
  unfold itemCount at h
  obtain ⟨count, hcount, h⟩ := Except.bind_ok_iff.mp h
  rw [(boundedCount_ok_iff.mp hcount).1] at hm
  cases hm
  exact Except.ok.inj h

theorem itemCount_of_declaredCount (h : b.declaredCount "items" = .ok (some n))
    (hn : n ≤ b.values.length) : b.itemCount = .ok n := by
  have hbounded : b.boundedCount "items" b.values.length = .ok (some n) := by
    refine boundedCount_ok_iff.mpr ⟨h, fun m hm => ?_⟩
    cases hm
    exact hn
  unfold itemCount
  rw [hbounded]
  rfl

end Blockwork.Block
