import Mathlib.Order.Bounds.Basic
import Blockwork.Proofs.Refinement

/-! # Unification computes least upper bounds

Types are ordered by what is known about them: `a ≤ b` if `b` refines `a`. Two types unify to the type that knows what
both of them know and nothing else, and they clash if no type knows it.
-/

namespace Blockwork.Ty

set_option autoImplicit false

instance : PartialOrder Ty where
  le a b := b.Refines a
  le_refl := Refines.refl
  le_trans _ _ _ hab hbc := hbc.trans hab
  le_antisymm _ _ hab hba := hba.antisymm hab

theorem le_iff_refines {a b : Ty} : a ≤ b ↔ b.Refines a :=
  Iff.rfl

variable {a b c d t : Ty}

theorem mem_upperBounds_pair : t ∈ upperBounds {a, b} ↔ t.Refines a ∧ t.Refines b := by
  simp [upperBounds, le_iff_refines]

/-! ## Outcomes of unification -/

theorem unify_ok_iff : unify a b = .ok c ↔ unify? a b = some c := by
  unfold unify
  cases unify? a b <;> simp

theorem unify_error_iff {clash : Clash} :
    unify a b = .error clash ↔ unify? a b = none ∧ clash = { expected := a, found := b } := by
  unfold unify
  cases unify? a b <;> simp [eq_comm]

theorem isLUB_of_unify? (h : unify? a b = some c) : IsLUB {a, b} c := by
  constructor
  · exact mem_upperBounds_pair.mpr ⟨unify?_refines_left h, unify?_refines_right h⟩
  · intro t ht
    obtain ⟨hta, htb⟩ := mem_upperBounds_pair.mp ht
    exact hta.of_unify? htb h

theorem exists_unify?_of_mem_upperBounds (h : t ∈ upperBounds {a, b}) : ∃ c, unify? a b = some c := by
  obtain ⟨hta, htb⟩ := mem_upperBounds_pair.mp h
  obtain ⟨c, hc, -⟩ := hta.unify? htb
  exact ⟨c, hc⟩

theorem unify?_eq_some_iff : unify? a b = some c ↔ IsLUB {a, b} c := by
  refine ⟨isLUB_of_unify?, fun h => ?_⟩
  obtain ⟨d, hd⟩ := exists_unify?_of_mem_upperBounds h.1
  rw [hd, (isLUB_of_unify? hd).unique h]

theorem unify?_eq_none_iff : unify? a b = none ↔ ¬BddAbove {a, b} := by
  constructor
  · rintro h ⟨t, ht⟩
    obtain ⟨c, hc⟩ := exists_unify?_of_mem_upperBounds ht
    rw [h] at hc
    cases hc
  · intro h
    cases hc : unify? a b with
    | none => rfl
    | some c => exact absurd ⟨c, (isLUB_of_unify? hc).1⟩ h

/-! ## Three types -/

theorem isLUB_insert_iff {s : Set Ty} (h : IsLUB s d) : IsLUB (insert c s) t ↔ IsLUB {c, d} t := by
  have hbounds : upperBounds (insert c s) = upperBounds {c, d} := by
    rw [upperBounds_insert, upperBounds_insert, h.upperBounds_eq, upperBounds_singleton]
  unfold IsLUB
  rw [hbounds]

/-- Unifying two types and then the third one gives the least type that refines all three. -/
theorem unify_unify_iff : (∃ d, unify a b = .ok d ∧ unify c d = .ok t) ↔ IsLUB {c, a, b} t := by
  simp only [unify_ok_iff, unify?_eq_some_iff]
  constructor
  · rintro ⟨d, hd, ht⟩
    exact (isLUB_insert_iff hd).mpr ht
  · intro h
    have hbound : t ∈ upperBounds {a, b} := upperBounds_mono_set (Set.subset_insert c {a, b}) h.1
    obtain ⟨d, hd⟩ := exists_unify?_of_mem_upperBounds hbound
    have hlub := isLUB_of_unify? hd
    exact ⟨d, hlub, (isLUB_insert_iff hlub).mp h⟩

/-- Unification computes least upper bounds, and fails with the two types where they have no upper bound. So it is
commutative, idempotent and associative as far as it succeeds, and a placeholder adds nothing. -/
theorem unify_computes_lub (a b : Ty) :
    (∀ c, unify a b = .ok c ↔ IsLUB {a, b} c) ∧
    (∀ clash, unify a b = .error clash ↔ ¬BddAbove {a, b} ∧ clash = { expected := a, found := b }) ∧
    (∀ c, unify a b = .ok c ↔ unify b a = .ok c) ∧
    unify a a = .ok a ∧ unify .captured a = .ok a ∧ unify a .captured = .ok a ∧
    ∀ c t, (∃ d, unify a b = .ok d ∧ unify d c = .ok t) ↔ ∃ d, unify b c = .ok d ∧ unify a d = .ok t := by
  have hcomm : ∀ a b c : Ty, unify a b = .ok c ↔ unify b a = .ok c := by
    intro a b c
    rw [unify_ok_iff, unify_ok_iff, unify?_comm]
  refine ⟨fun c => ?_, fun clash => ?_, hcomm a b, ?_, ?_, ?_, fun c t => ?_⟩
  · rw [unify_ok_iff, unify?_eq_some_iff]
  · rw [unify_error_iff, unify?_eq_none_iff]
  · rw [unify_ok_iff, unify?_eq_left (.refl a)]
  · rw [unify_ok_iff, unify?_captured_left]
  · rw [unify_ok_iff, unify?_captured_right]
  · simp only [hcomm _ c t]
    rw [unify_unify_iff, unify_unify_iff, Set.insert_comm c a, Set.pair_comm c b]

end Blockwork.Ty
