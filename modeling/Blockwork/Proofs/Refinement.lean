import Blockwork.Ty.Name

/-! # Refinement of types

`Ty.Refines` is a partial order with the placeholder at the bottom, and `Ty.unify?` computes least
upper bounds where there are any.
-/

namespace Blockwork.Ty

set_option autoImplicit false

/-! ## The order -/

theorem Refines.refl (a : Ty) : a.Refines a := by
  induction a with
  | number => exact .number
  | boolean => exact .boolean
  | text => exact .text
  | list element ih => exact .list ih
  | captured => exact .captured _

variable {a b c : Ty}

theorem Refines.of_eq (h : a = b) : a.Refines b :=
  h ▸ Refines.refl a

theorem Refines.trans (h₁ : a.Refines b) (h₂ : b.Refines c) : a.Refines c := by
  induction h₂ generalizing a with
  | captured => exact .captured a
  | number => exact h₁
  | boolean => exact h₁
  | text => exact h₁
  | list _ ih =>
    cases h₁ with
    | list h => exact .list (ih h)

theorem Refines.antisymm (h₁ : a.Refines b) (h₂ : b.Refines a) : a = b := by
  induction h₁ with
  | captured a =>
    cases h₂
    rfl
  | number => rfl
  | boolean => rfl
  | text => rfl
  | list _ ih =>
    cases h₂ with
    | list h => rw [ih h]

theorem refines_list_iff : (list a).Refines (list b) ↔ a.Refines b := by
  refine ⟨fun h => ?_, .list⟩
  cases h with
  | list h => exact h

theorem Refines.exists_list (h : a.Refines (.list b)) : ∃ c : Ty, a = .list c ∧ c.Refines b := by
  cases h with
  | list h => exact ⟨_, rfl, h⟩

theorem Refines.eq_of_isConcrete (h : a.Refines b) (hb : b.isConcrete = true) : a = b := by
  induction h with
  | captured a => cases hb
  | number => rfl
  | boolean => rfl
  | text => rfl
  | list _ ih => rw [ih hb]

theorem Refines.isConcrete (h : a.Refines b) (hb : b.isConcrete = true) : a.isConcrete = true := by
  rw [h.eq_of_isConcrete hb]
  exact hb

theorem Refines.elementOrCaptured (h : a.Refines b) : a.elementOrCaptured.Refines b.elementOrCaptured := by
  cases h with
  | captured => exact .captured _
  | number => exact .captured _
  | boolean => exact .captured _
  | text => exact .captured _
  | list h => exact h

/-! ## Least upper bounds -/

@[simp] theorem unify?_captured_left (b : Ty) : unify? captured b = some b := by
  cases b <;> rfl

@[simp] theorem unify?_captured_right (a : Ty) : unify? a captured = some a := by
  cases a <;> rfl

@[simp] theorem unify?_list (a b : Ty) : unify? (list a) (list b) = (unify? a b).map list := rfl

theorem unify?_comm (a b : Ty) : unify? a b = unify? b a := by
  induction a generalizing b with
  | list a ih =>
    cases b with
    | list b => rw [unify?_list, unify?_list, ih]
    | _ => rfl
  | _ => cases b <;> rfl

theorem unify?_refines_left (h : unify? a b = some c) : c.Refines a := by
  induction a generalizing b c with
  | captured => exact .captured c
  | list a ih =>
    cases b with
    | captured =>
      cases h
      exact .refl _
    | list b =>
      obtain ⟨d, hd, rfl⟩ := Option.map_eq_some_iff.mp h
      exact .list (ih hd)
    | _ => cases h
  | _ => cases b <;> cases h <;> exact .refl _

theorem unify?_refines_right (h : unify? a b = some c) : c.Refines b := by
  rw [unify?_comm] at h
  exact unify?_refines_left h

theorem Refines.unify? (ha : c.Refines a) (hb : c.Refines b) : ∃ d, Ty.unify? a b = some d ∧ c.Refines d := by
  induction ha generalizing b with
  | captured c => exact ⟨b, unify?_captured_left b, hb⟩
  | list ha ih =>
    cases hb with
    | captured => exact ⟨_, rfl, .list ha⟩
    | list hb =>
      obtain ⟨d, hd, hc⟩ := ih hb
      exact ⟨.list d, by rw [unify?_list, hd]; rfl, .list hc⟩
  | _ => cases hb <;> exact ⟨_, rfl, .refl _⟩

theorem Refines.of_unify? {d : Ty} (ha : c.Refines a) (hb : c.Refines b)
    (h : Ty.unify? a b = some d) : c.Refines d := by
  obtain ⟨d', hd', hc⟩ := ha.unify? hb
  rw [h] at hd'
  cases hd'
  exact hc

theorem unify?_mono {a' b' c' : Ty} (ha : a'.Refines a) (hb : b'.Refines b)
    (h : unify? a b = some c) (h' : unify? a' b' = some c') : c'.Refines c :=
  ((unify?_refines_left h').trans ha).of_unify? ((unify?_refines_right h').trans hb) h

theorem unify?_eq_left (h : a.Refines b) : unify? a b = some a := by
  obtain ⟨d, hd, had⟩ := (Refines.refl a).unify? h
  rw [hd, had.antisymm (unify?_refines_left hd)]

theorem unify?_eq_right (h : b.Refines a) : unify? a b = some b := by
  rw [unify?_comm, unify?_eq_left h]

theorem accepts_iff : a.accepts b = true ↔ ∃ c, unify? a b = some c :=
  Option.isSome_iff_exists

theorem accepts_of_unify? (h : unify? a b = some c) : a.accepts b = true :=
  accepts_iff.mpr ⟨c, h⟩

theorem Refines.accepts (ha : c.Refines a) (hb : c.Refines b) : a.accepts b = true := by
  obtain ⟨d, hd, -⟩ := ha.unify? hb
  exact accepts_of_unify? hd

theorem Refines.accepted (h : b.Refines a) : a.accepts b = true :=
  h.accepts (.refl b)

theorem refines_of_accepts (h : a.accepts b = true) (hb : b.isConcrete = true) : b.Refines a := by
  obtain ⟨c, hc⟩ := accepts_iff.mp h
  rw [← (unify?_refines_right hc).eq_of_isConcrete hb]
  exact unify?_refines_left hc

theorem eq_of_accepts (h : a.accepts b = true) (ha : a.isConcrete = true) (hb : b.isConcrete = true) : b = a :=
  (refines_of_accepts h hb).eq_of_isConcrete ha

theorem refines_of_unify? (h : unify? a b = some c) (ha : a.isConcrete = true) : a.Refines b := by
  rw [← (unify?_refines_left h).eq_of_isConcrete ha]
  exact unify?_refines_right h

theorem list_refines {t : Ty} (h : unify? (list a) b = some c) (ht : t.Refines b.elementOrCaptured) :
    (list t).Refines b := by
  cases b with
  | captured => exact .captured _
  | list b => exact .list ht
  | _ => cases h

end Blockwork.Ty
