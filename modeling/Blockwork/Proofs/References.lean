import Mathlib.Logic.Relation
import Blockwork.Proofs.Arrangement

/-! # References that can be followed

A record can hold references to other records. They can be followed if they lead from record to record
without ambiguity and never back.
-/

namespace Blockwork

set_option autoImplicit false

variable {o : Place} {id : String}

namespace Json

/-- The object has an identifier and a tag, its fields and its mutation hold scalars, and its parts are
objects or references. -/
structure Shaped (v : Json) : Prop where
  id : ∃ id, v.getText? "id" = some id
  tag : ∃ tag, v.getText? "type" = some tag
  scalars : ∀ part ∈ ["fields", "mutation"], ∀ name x, (v.get? part).bind (get? name) = some x →
    (Block.scalarText? x).isSome = true
  parts : ∀ s t, v.part? s = some t → t.isObject = true ∨ ∃ id, t = .text id

def Refers (records : List Json) (i j : Nat) : Prop :=
  ∃ o id v, o.tree = i ∧ ReferenceAt records o id ∧ records[j]? = some v ∧ v.getText? "id" = some id

/-- The identifiers of block objects are distinct, and references lead from record to record without
ambiguity and without end. -/
structure Resolvable (records : List Json) : Prop where
  distinct : ∀ o o' v v' id, BlockAt records o v → BlockAt records o' v' → v.getText? "id" = some id →
    v'.getText? "id" = some id → o = o'
  known : ∀ o id, ReferenceAt records o id → ∃ (i : Nat) (v : Json), records[i]? = some v ∧ v.getText? "id" = some id
  unshared : ∀ (i : Nat) v id, records[i]? = some v → v.getText? "id" = some id →
    ∀ o o', ReferenceAt records o id → ReferenceAt records o' id → o = o'
  acyclic : ∀ i, ¬Relation.TransGen (Refers records) i i

theorem ReferenceAt.exists_parent {records : List Json} (h : ReferenceAt records o id) :
    ∃ (o' : Place) (s : Step), o = o'.step s := by
  induction o using Place.induct with
  | root i => exact absurd rfl h.1
  | step o' s _ => exact ⟨o', s, rfl⟩

end Json

namespace Block

/-! ## Documents that were read -/

section Arranged

variable {records : List Json} {bs : List Block} {f : Place → Place}

theorem Arranged.blockAt_parent {s : Step} {t : Json} (h : (o.step s).find? Json.part? records = some t) :
    ∃ v, Json.BlockAt records o v := by
  rw [Place.find?_step] at h
  obtain ⟨v, hv, hpart⟩ := Option.bind_eq_some_iff.mp h
  exact ⟨v, hv, .inr (Json.isObject_of_part? hpart)⟩

theorem Arranged.length_steps (h : Arranged records bs f) {v : Json} (hv : Json.BlockAt records o v) :
    (f o).steps.length = (f ⟨o.tree, []⟩).steps.length + o.steps.length := by
  induction o using Place.induct generalizing v with
  | root i => rfl
  | step o s ih =>
    obtain ⟨w, hw⟩ := Arranged.blockAt_parent hv.1
    have hlength := ih hw
    rw [h.nested o s v hv]
    simp only [Place.step, List.length_append, List.length_singleton]
    omega

theorem Arranged.eq_of_id (h : Arranged records bs f) (hnodup : (bs.flatMap ids).Nodup) {o' : Place} {v v' : Json}
    (hv : Json.BlockAt records o v) (hv' : Json.BlockAt records o' v') (hid : v.getText? "id" = some id)
    (hid' : v'.getText? "id" = some id) : o = o' := by
  obtain ⟨b, hb, -, hown, -⟩ := h.head o v hv
  obtain ⟨b', hb', -, hown', -⟩ := h.head o' v' hv'
  have heq : f o = f o' := place_eq_of_id_eq hnodup hb hb' ((hown id hid).trans (hown' id hid').symm)
  exact h.bijective.injOn ⟨v, hv⟩ ⟨v', hv'⟩ heq

theorem Arranged.exists_record (h : Arranged records bs f) (hshaped : ∀ o v, Json.BlockAt records o v → v.Shaped)
    {s : Step} (hid : Json.ReferenceAt records (o.step s) id) :
    ∃ (i : Nat) (v : Json), records[i]? = some v ∧ v.getText? "id" = some id ∧ f ⟨i, []⟩ = (f o).step s := by
  obtain ⟨i, b, hlt, heq, hb, rfl⟩ := h.reference o s id hid
  have hi : records[i]? = some records[i] := List.getElem?_eq_getElem hlt
  have hv : Json.BlockAt records ⟨i, []⟩ records[i] := ⟨by rw [Place.find?_root, hi], .inl rfl⟩
  obtain ⟨own, hown⟩ := (hshaped _ _ hv).id
  obtain ⟨b', hb', -, hown', -⟩ := h.head _ _ hv
  cases hb.symm.trans hb'
  rw [hown' own hown]
  exact ⟨i, _, hi, hown, heq⟩

theorem Arranged.index_eq (h : Arranged records bs f) (hnodup : (bs.flatMap ids).Nodup) {i j : Nat} {v w : Json}
    (hi : records[i]? = some v) (hj : records[j]? = some w) (hv : v.getText? "id" = some id)
    (hw : w.getText? "id" = some id) : i = j := by
  have hroot : ∀ {i : Nat} {v : Json}, records[i]? = some v → Json.BlockAt records ⟨i, []⟩ v := fun hi =>
    ⟨by rw [Place.find?_root, hi], .inl rfl⟩
  exact congrArg Place.tree (h.eq_of_id hnodup (hroot hi) (hroot hj) hv hw)

theorem Arranged.depth_lt (h : Arranged records bs f) (hnodup : (bs.flatMap ids).Nodup)
    (hshaped : ∀ o v, Json.BlockAt records o v → v.Shaped) {i j : Nat} (hij : Json.Refers records i j) :
    (f ⟨i, []⟩).steps.length < (f ⟨j, []⟩).steps.length := by
  obtain ⟨o, id, w, rfl, hid, hj, hw⟩ := hij
  obtain ⟨o', s, rfl⟩ := hid.exists_parent
  obtain ⟨v, hv⟩ := Arranged.blockAt_parent hid.2
  obtain ⟨k, u, hk, hu, heq⟩ := h.exists_record hshaped hid
  obtain rfl := h.index_eq hnodup hj hk hw hu
  have hlength := h.length_steps hv
  rw [heq]
  simp only [Place.step, List.length_append, List.length_singleton]
  omega

theorem Arranged.resolvable (h : Arranged records bs f) (hnodup : (bs.flatMap ids).Nodup)
    (hshaped : ∀ o v, Json.BlockAt records o v → v.Shaped) : Json.Resolvable records := by
  refine ⟨fun o o' v v' id hv hv' => h.eq_of_id hnodup hv hv', ?_, ?_, ?_⟩
  · intro o id hid
    obtain ⟨o', s, rfl⟩ := hid.exists_parent
    obtain ⟨i, v, hi, hv, -⟩ := h.exists_record hshaped hid
    exact ⟨i, v, hi, hv⟩
  · intro _ _ id _ _ o o' hid hid'
    obtain ⟨p, s, rfl⟩ := hid.exists_parent
    obtain ⟨p', s', rfl⟩ := hid'.exists_parent
    obtain ⟨i, v, hi, hv, heq⟩ := h.exists_record hshaped hid
    obtain ⟨j, w, hj, hw, heq'⟩ := h.exists_record hshaped hid'
    obtain rfl := h.index_eq hnodup hi hj hv hw
    obtain ⟨hplace, rfl⟩ := Place.step_inj (heq.symm.trans heq')
    rw [h.bijective.injOn (Arranged.blockAt_parent hid.2) (Arranged.blockAt_parent hid'.2) hplace]
  · intro i hcycle
    have hdeeper : ∀ {j}, Relation.TransGen (Json.Refers records) i j →
        (f ⟨i, []⟩).steps.length < (f ⟨j, []⟩).steps.length := by
      intro j hij
      induction hij with
      | single hij => exact h.depth_lt hnodup hshaped hij
      | tail _ hjk ih => exact Nat.lt_trans ih (h.depth_lt hnodup hshaped hjk)
    exact Nat.lt_irrefl _ (hdeeper hcycle)

end Arranged

end Block

end Blockwork
