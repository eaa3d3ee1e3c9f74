import Blockwork.Block.Equivalence
import Blockwork.Proofs.Derivation
import Blockwork.Proofs.Rendering

/-! # How blocks are found again

* `Block.Restores` collects what makes a block be found again in another one, apart from what comes next.
* `Attributes.Extends.derive` says that setting an attribute loses nothing that was said.
-/

namespace Blockwork

set_option autoImplicit false

namespace Block

/-! ## Slots -/

theorem equivalentNext_some {a r : Block} (h : a.equivalent r = true) : equivalentNext (some a) (some r) = true := by
  rw [equivalentNext]
  exact h

theorem equivalentNext_none : equivalentNext none none = true := by
  rw [equivalentNext]

theorem exists_of_equivalentNext {a : Block} {rendered : Option Block}
    (h : equivalentNext (some a) rendered = true) :
    ∃ r, rendered = some r ∧ a.equivalent r = true := by
  cases rendered with
  | none => simp [equivalentNext] at h
  | some r =>
    rw [equivalentNext] at h
    exact ⟨r, rfl, h⟩

theorem isSome_of_equivalentNext {given rendered : Option Block}
    (h : equivalentNext given rendered = true) : given.isSome = rendered.isSome := by
  cases given <;> cases rendered <;> simp [equivalentNext] at h ⊢

theorem equivalentSlots_of_forall {given rendered : Dict Block}
    (h : ∀ entry ∈ given, ∃ r, Dict.get? entry.1 rendered = some r ∧ entry.2.equivalent r = true) :
    equivalentSlots given rendered = true := by
  induction given with
  | nil => rw [equivalentSlots]
  | cons entry rest ih =>
    obtain ⟨name, b⟩ := entry
    obtain ⟨⟨r, hr, heq⟩, hrest⟩ := List.forall_mem_cons.mp h
    rw [equivalentSlots]
    simp only [hr, heq, ih hrest, Bool.and_self]

theorem sameAttribute_self (key value : String) : sameAttribute key value value = true := by
  unfold sameAttribute Text.sameLetters
  split <;> simp

def Found (given rendered : Dict Block) : Prop :=
  ∀ slot, equivalentNext (Dict.get? slot given) (Dict.get? slot rendered) = true

namespace Found

variable {given rendered : Dict Block}

theorem equivalentSlots (hgiven : Dict.Sorted given) (h : Found given rendered) :
    equivalentSlots given rendered = true := by
  refine equivalentSlots_of_forall fun entry hentry => ?_
  have hslot := h entry.1
  rw [hgiven.get?_of_mem hentry] at hslot
  exact exists_of_equivalentNext hslot

theorem mem_keys_iff (h : Found given rendered) (slot : String) :
    slot ∈ Dict.keys given ↔ slot ∈ Dict.keys rendered := by
  rw [← Dict.isSome_get?_iff, ← Dict.isSome_get?_iff, isSome_of_equivalentNext (h slot)]

theorem length_eq (hgiven : Dict.Sorted given) (hrendered : Dict.Sorted rendered)
    (h : Found given rendered) : given.length = rendered.length :=
  Nat.le_antisymm (hgiven.length_le fun slot => (h.mem_keys_iff slot).mp)
    (hrendered.length_le fun slot => (h.mem_keys_iff slot).mpr)

end Found

end Block

/-! ## Attributes -/

namespace Attributes

/-- The attributes are the other ones, perhaps with further ones in the mutation. -/
structure Extends (r a : Attributes) : Prop where
  id : r.id = a.id
  disabled : r.disabled = a.disabled
  collapsed : r.collapsed = a.collapsed
  inline : r.inline = a.inline
  comment : r.writtenComment = a.writtenComment
  mutation : ∀ key value, a.mutation? key = some value → r.mutation? key = some value

theorem writtenComment_writtenComment (a : Attributes) :
    ({ a with comment := a.writtenComment } : Attributes).writtenComment = a.writtenComment := by
  unfold writtenComment
  simp only [Option.filter_filter, Bool.and_self]

theorem extends_nodeAttrs (b : Block) : b.nodeAttrs.Extends b.attrs :=
  ⟨rfl, rfl, rfl, rfl, writtenComment_writtenComment b.attrs, fun _ _ h => h⟩

theorem Extends.derive {r a : Attributes} {key value : String} (h : r.Extends a)
    (hkeeps : ∀ kept, r.mutation? key = some kept → keeps key kept value = true) :
    (r.derive key value).Extends a := by
  obtain ⟨mutation, e⟩ := r.derive_eq key value
  refine ⟨?_, ?_, ?_, ?_, ?_, fun key' value' hvalue' => ?_⟩
  · rw [e, ← h.id]
  · rw [e, ← h.disabled]
  · rw [e, ← h.collapsed]
  · rw [e, ← h.inline]
  · rw [e, ← h.comment]
    rfl
  · exact mutation?_derive_of_keeps hkeeps (h.mutation key' value' hvalue')

theorem Extends.deriveType {r a : Attributes} {key : String} {t : Ty} (h : r.Extends a)
    (hkeeps : ∀ name kept, t.name? = some name → r.mutation? key = some kept → keeps key kept name = true) :
    (r.deriveType key t).Extends a := by
  unfold Attributes.deriveType
  split
  · next name hname => exact h.derive fun kept => hkeeps name kept hname
  · exact h

theorem Extends.equivalentAttributes {r a : Attributes} (h : r.Extends a)
    (hsorted : Dict.Sorted (a.mutation.getD [])) : Block.equivalentAttributes a r = true := by
  have hmutation : Block.reproduces a.mutation r.mutation = true := by
    unfold Block.reproduces
    refine List.all_eq_true.mpr fun entry hentry => ?_
    have ha : a.mutation? entry.1 = some entry.2 := by
      rw [mutation?_eq]
      exact hsorted.get?_of_mem hentry
    have hr : r.mutation.bind (Dict.get? entry.1) = some entry.2 := h.mutation _ _ ha
    simp only [hr, Block.sameAttribute_self]
  unfold Block.equivalentAttributes
  simp [h.id, h.disabled, h.collapsed, h.inline, h.comment, hmutation]

end Attributes

namespace Block

/-! ## Blocks -/

/-- Apart from what comes next, the block says what another one says. -/
structure Restores (r b : Block) : Prop where
  tag : r.tag = b.tag
  attrs : r.attrs.Extends b.attrs
  fields : r.fields = b.fields
  sortedValues : Dict.Sorted r.values
  sortedStatements : Dict.Sorted r.statements
  values : Found b.values r.values
  statements : Found b.statements r.statements

theorem equivalent_eq (a b : Block) :
    a.equivalent b =
      (a.tag == b.tag
        && equivalentAttributes a.attrs b.attrs
        && a.fields == b.fields
        && a.values.length == b.values.length
        && equivalentSlots a.values b.values
        && a.statements.length == b.statements.length
        && equivalentSlots a.statements b.statements
        && equivalentNext a.next b.next) := by
  cases a
  rw [equivalent]

theorem Restores.equivalent {r b : Block} (h : r.Restores b) (hb : b.Ordered)
    (hnext : equivalentNext b.next r.next = true) : b.equivalent r = true := by
  rw [equivalent_eq, h.attrs.equivalentAttributes hb.mutation,
    h.values.equivalentSlots hb.values, h.statements.equivalentSlots hb.statements,
    h.values.length_eq hb.values h.sortedValues,
    h.statements.length_eq hb.statements h.sortedStatements, hnext, h.tag, h.fields]
  simp

end Block

end Blockwork
