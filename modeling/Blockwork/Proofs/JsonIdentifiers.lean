import Mathlib
import Blockwork.Proofs.Arrangement
import Blockwork.Proofs.Texts

/-! # Repeated identifiers in JSON documents

Reading a JSON document can fail because an identifier is repeated. Identifiers that are made for records do not avoid
those of the objects inside records, and identifiers that are made for objects do not avoid those of objects that come
later. So an object inside a record can clash with an identifier that was made.
-/

namespace Blockwork

set_option autoImplicit false

open List (forall_mem_cons append_assoc contains_iff_mem)

variable {t : Json}

/-! ## Block objects inside records -/

namespace Json

theorem sizeOf_entry_lt {v : Json} {entry : Step × Json} (h : entry ∈ v.entries) : sizeOf entry.2 < sizeOf v := by
  have hslots : ∀ {key : String} {slot : String × Json}, slot ∈ v.slots key → sizeOf slot.2 < sizeOf v := by
    intro key slot hslot
    have hmem := (List.mem_filter.mp hslot).1
    cases hx : v.get? key with
    | none =>
      rw [hx] at hmem
      cases hmem
    | some x =>
      rw [hx, Option.map_some, Option.getD_some] at hmem
      refine Nat.lt_trans ?_ (sizeOf_get?_lt hx)
      cases x with
      | object members =>
        have hlt := List.sizeOf_lt_of_mem hmem
        obtain ⟨name, t⟩ := slot
        simp only [Json.members, Prod.mk.sizeOf_spec] at hlt
        simp only [Json.object.sizeOf_spec]
        omega
      | _ => cases hmem
  obtain ⟨s, t⟩ := entry
  cases s with
  | value slot => exact hslots (Step.mem_label_value.mp h)
  | statement slot => exact hslots (Step.mem_label_statement.mp h)
  | next => exact sizeOf_part?_lt (Step.mem_label_next.mp h)

/-- The block objects inside an object, in its slots and next to it, and so on inside them. -/
def inner (v : Json) : List Json :=
  v.entries.attach.flatMap fun entry => if entry.1.2.isObject then entry.1.2 :: inner entry.1.2 else []
termination_by sizeOf v
decreasing_by exact sizeOf_entry_lt entry.2

def objects (t : Json) : List Json :=
  if t.isObject then t :: t.inner else []

theorem inner_eq (v : Json) : v.inner = v.entries.flatMap fun entry => entry.2.objects := by
  rw [inner, List.flatMap_subtype (g := fun entry => entry.2.objects) fun _ _ => rfl, List.unattach_attach]

theorem mem_objects_self (h : t.isObject = true) : t ∈ t.objects := by
  rw [objects, if_pos h]
  exact List.mem_cons_self

theorem inner_subset_objects (h : t.isObject = true) : t.inner ⊆ t.objects := by
  rw [objects, if_pos h]
  exact List.subset_cons_self _ _

theorem isObject_of_mem_inner {v : Json} (h : t ∈ v.inner) : t.isObject = true := by
  rw [inner_eq] at h
  obtain ⟨entry, hentry, h⟩ := List.mem_flatMap.mp h
  rw [objects] at h
  split at h
  · next hobject =>
    rcases List.mem_cons.mp h with rfl | h
    · exact hobject
    · exact isObject_of_mem_inner h
  · cases h
termination_by sizeOf v
decreasing_by exact sizeOf_entry_lt hentry

theorem objects_subset_inner {v : Json} {entry : Step × Json} (h : entry ∈ v.entries) :
    entry.2.objects ⊆ v.inner := by
  intro t ht
  rw [inner_eq]
  exact List.mem_flatMap.mpr ⟨entry, h, ht⟩

end Json

namespace Block

variable {fault : GraphFault}

/-! ## Triples -/

/-- From every progress that satisfies `pre` the run yields a result and a progress that satisfy `post`, or it fails.
It fails for a repeated identifier only if there is a cause. -/
def Guarded {α : Type} (cause : String → Prop) (pre : Progress → Prop) (x : Building α)
    (post : α → Progress → Prop) : Prop :=
  ∀ p, pre p → (∀ a p', Yields x p a p' → post a p') ∧ ∀ id, Fails x p (.malformed id .duplicateId) → cause id

namespace Guarded

variable {α β : Type} {cause : String → Prop} {pre pre' : Progress → Prop} {x : Building α}
  {mid post : α → Progress → Prop} {after : β → Progress → Prop}

theorem pure {a : α} (h : ∀ p, pre p → post a p) : Guarded cause pre (pure a) post := by
  refine fun p hp => ⟨fun b p' hb => ?_, fun id hfails => (fails_pure_iff.mp hfails).elim⟩
  obtain ⟨rfl, rfl⟩ := yields_pure_iff.mp hb
  exact h p' hp

theorem throw {id : String} (h : ∀ p, pre p → fault = .duplicateId → cause id) :
    Guarded cause pre (throw (.malformed id fault)) post := by
  refine fun p hp => ⟨fun b p' hb => (yields_throw_iff.mp hb).elim, fun id' hfails => ?_⟩
  cases fails_throw_iff.mp hfails
  exact h p hp rfl

theorem bind {f : α → Building β} (hx : Guarded cause pre x mid) (hf : ∀ a, Guarded cause (mid a) (f a) after) :
    Guarded cause pre (x >>= f) after := by
  refine fun p hp => ⟨fun b p' hb => ?_, fun id hfails => ?_⟩
  · obtain ⟨a, p₁, ha, hb⟩ := yields_bind_iff.mp hb
    exact (hf a p₁ ((hx p hp).1 a p₁ ha)).1 b p' hb
  · rcases fails_bind_iff.mp hfails with hfails | ⟨a, p₁, ha, hfails⟩
    · exact (hx p hp).2 id hfails
    · exact (hf a p₁ ((hx p hp).1 a p₁ ha)).2 id hfails

theorem weaken (hx : Guarded cause pre x post) (h : ∀ p, pre' p → pre p) : Guarded cause pre' x post :=
  fun p hp => hx p (h p hp)

theorem lift {y : Except Error α} {inv : Progress → Prop} (h : ∀ id, y ≠ .error (.malformed id .duplicateId)) :
    Guarded cause inv (liftM y) fun _ => inv := by
  refine fun p hp => ⟨fun a p' ha => ?_, fun id hfails => (h id (fails_lift_iff.mp hfails)).elim⟩
  rw [(yields_lift_iff.mp ha).2]
  exact hp

theorem guard {c : Prop} [Decidable c] {id : String} {f : Unit → Building α}
    (hstop : ∀ p, pre p → c → cause id) (hgo : ¬c → Guarded cause pre (f ()) post) :
    Guarded cause pre (if c then MonadExcept.throw (Error.malformed id .duplicateId) >>= f else f ()) post := by
  by_cases hc : c
  · rw [if_pos hc]
    have hthrow : Guarded cause pre (MonadExcept.throw (Error.malformed id .duplicateId)) fun (_ : Unit) _ => False :=
      throw fun p hp _ => hstop p hp hc
    exact hthrow.bind fun _ _ h => h.elim
  · rw [if_neg hc]
    exact hgo hc

end Guarded

/-! ## Where identifiers come from -/

def Records.inner (records : Records) : List Json :=
  records.flatMap fun record => record.2.inner

def Records.innerIds (records : Records) (id : String) : List String :=
  explicitIds (((Dict.get? id records).map Json.inner).getD [])

/-- The identifier may have been made for an object inside a record. -/
def Made (records : Records) (id : String) : Prop :=
  (∃ n, id = generatedId n) ∧ ∃ v ∈ records.inner, v.getText? "id" = none

/-- An object inside a record writes the identifier, and so does another one, or it is the identifier of a record, or
one that was made. -/
def Clash (records : Records) (id : String) : Prop :=
  id ∈ explicitIds records.inner ∧
    (List.Duplicate id (explicitIds records.inner) ∨ id ∈ records.ids ∨ Made records id)

/-- The progress of building. Only permitted records have been used, each of them once, and the identifiers of objects
inside them have been seen or are pending. -/
structure Balanced (records : Records) (permitted pending : List String) (p : Progress) : Prop where
  nodup : p.used.Nodup
  known : p.used ⊆ records.ids
  permitted : p.used ⊆ permitted
  entered : ∀ id ∈ p.seen, id ∈ records.ids → id ∈ p.used
  origins : ∃ own, (own ++ pending).Subperm (p.used.flatMap records.innerIds) ∧
    ∀ id ∈ p.seen, id ∈ own ∨ id ∈ records.ids ∨ Made records id

section Balanced

variable {records : Records} {permitted pending : List String} {p : Progress} {id : String}

theorem explicitIds_append (vs ws : List Json) : explicitIds (vs ++ ws) = explicitIds vs ++ explicitIds ws :=
  List.filterMap_append

theorem innerIds_of_mem (hkeyed : Keyed records) {record : String × Json} (h : record ∈ records) :
    records.innerIds record.1 = explicitIds record.2.inner := by
  rw [Records.innerIds, Dict.get?_of_mem hkeyed.nodup h]
  rfl

theorem flatMap_innerIds (hkeyed : Keyed records) :
    records.ids.flatMap records.innerIds = explicitIds records.inner := by
  rw [Records.ids, Records.inner, explicitIds, List.flatMap_map, List.filterMap_flatMap]
  exact List.flatMap_congr fun record hrecord => innerIds_of_mem hkeyed hrecord

theorem Balanced.subperm (hkeyed : Keyed records) (h : Balanced records permitted pending p) :
    (p.used.flatMap records.innerIds).Subperm (explicitIds records.inner) := by
  obtain ⟨kept, hperm, hsublist⟩ := List.subperm_of_subset h.nodup h.known
  rw [← flatMap_innerIds hkeyed]
  exact (hperm.symm.flatMap_right _).subperm.trans (hsublist.flatMap _).subperm

theorem Balanced.clash (hkeyed : Keyed records) (h : Balanced records permitted (id :: pending) p)
    (hid : id ∉ records.ids) (hseen : id ∈ p.seen) : Clash records id := by
  obtain ⟨own, hsubperm, horigins⟩ := h.origins
  have hall := hsubperm.trans (h.subperm hkeyed)
  refine ⟨hall.subset (List.mem_append_right _ List.mem_cons_self), ?_⟩
  rcases horigins id hseen with hown | hrecord | hmade
  · refine .inl (List.duplicate_iff_two_le_count.mpr (Nat.le_trans ?_ (hall.count_le id)))
    have hpos := List.count_pos_iff.mpr hown
    rw [List.count_append, List.count_cons_self]
    omega
  · exact absurd hrecord hid
  · exact .inr (.inr hmade)

theorem Balanced.see_own (h : Balanced records permitted (id :: pending) p) (hid : id ∉ records.ids) :
    Balanced records permitted pending { p with seen := id :: p.seen } := by
  obtain ⟨own, hsubperm, horigins⟩ := h.origins
  refine ⟨h.nodup, h.known, h.permitted, ?_, own ++ [id], ?_, ?_⟩
  · refine forall_mem_cons.mpr ⟨fun hmem => absurd hmem hid, h.entered⟩
  · rw [append_assoc, List.singleton_append]
    exact hsubperm
  · refine forall_mem_cons.mpr ⟨.inl (by simp), fun id' hid' => ?_⟩
    exact (horigins id' hid').imp_left (List.mem_append_left _)

theorem Balanced.see_made (h : Balanced records permitted pending p) (hid : id ∉ records.ids)
    (hmade : Made records id) : Balanced records permitted pending { p with seen := id :: p.seen } := by
  obtain ⟨own, hsubperm, horigins⟩ := h.origins
  refine ⟨h.nodup, h.known, h.permitted, ?_, own, hsubperm, ?_⟩
  · exact forall_mem_cons.mpr ⟨fun hmem => absurd hmem hid, h.entered⟩
  · exact forall_mem_cons.mpr ⟨.inr (.inr hmade), horigins⟩

theorem Balanced.see_record (h : Balanced records permitted pending p) (hid : id ∈ p.used) :
    Balanced records permitted pending { p with seen := id :: p.seen } := by
  obtain ⟨own, hsubperm, horigins⟩ := h.origins
  refine ⟨h.nodup, h.known, h.permitted, ?_, own, hsubperm, ?_⟩
  · exact forall_mem_cons.mpr ⟨fun _ => hid, h.entered⟩
  · exact forall_mem_cons.mpr ⟨.inr (.inl (h.known hid)), horigins⟩

theorem Balanced.use (h : Balanced records permitted pending p) (hnew : id ∉ p.used) (hid : id ∈ records.ids)
    (hpermitted : id ∈ permitted) :
    Balanced records permitted (records.innerIds id ++ pending) { p with used := id :: p.used } := by
  obtain ⟨own, hsubperm, horigins⟩ := h.origins
  refine ⟨List.nodup_cons.mpr ⟨hnew, h.nodup⟩, List.cons_subset.mpr ⟨hid, h.known⟩,
    List.cons_subset.mpr ⟨hpermitted, h.permitted⟩, ?_, own, ?_, horigins⟩
  · exact fun id' hseen hid' => List.mem_cons_of_mem _ (h.entered id' hseen hid')
  · rw [List.flatMap_cons]
    refine List.Subperm.trans (List.Perm.subperm ?_) ((List.subperm_append_left (records.innerIds id)).mpr hsubperm)
    rw [← append_assoc, ← append_assoc]
    exact List.perm_append_comm.append_right _

theorem Balanced.permit {more : List String} (h : Balanced records permitted pending p) (hmore : permitted ⊆ more) :
    Balanced records more pending p :=
  ⟨h.nodup, h.known, List.Subset.trans h.permitted hmore, h.entered, h.origins⟩

theorem Balanced.enters (hkeyed : Keyed records) (h : Balanced records permitted pending p) {v : Json}
    (hrecord : (id, v) ∈ records) (hnew : id ∉ p.used) (hpermitted : id ∈ permitted) :
    id ∉ p.seen ∧ id ∈ id :: p.used ∧
      Balanced records permitted (explicitIds v.inner ++ pending) { p with used := id :: p.used } := by
  have hid : id ∈ records.ids := List.mem_map_of_mem hrecord
  rw [← innerIds_of_mem hkeyed hrecord]
  exact ⟨fun hseen => hnew (h.entered id hseen hid), List.mem_cons_self, h.use hnew hid hpermitted⟩

end Balanced

/-! ## Runs -/

def Consumes {α : Type} (records : Records) (permitted ids : List String) (x : Building α) : Prop :=
  ∀ pending, Guarded (Clash records) (Balanced records permitted (ids ++ pending)) x
    fun _ => Balanced records permitted pending

section Consumes

variable {α β : Type} {records : Records} {permitted ids ids' : List String} {x : Building α}

theorem consumes_pure (a : α) : Consumes records permitted [] (pure a) :=
  fun _ => Guarded.pure fun _ hp => hp

theorem consumes_throw {id : String} (h : fault ≠ .duplicateId) :
    Consumes records permitted ids (throw (.malformed id fault) : Building α) :=
  fun _ => Guarded.throw fun _ _ hfault => absurd hfault h

theorem Consumes.bind {f : α → Building β} (hx : Consumes records permitted ids x)
    (hf : ∀ a, Consumes records permitted ids' (f a)) : Consumes records permitted (ids ++ ids') (x >>= f) := by
  intro pending
  rw [append_assoc]
  exact (hx (ids' ++ pending)).bind fun a => hf a pending

theorem Consumes.map {f : α → β} (hx : Consumes records permitted ids x) :
    Consumes records permitted ids (x >>= fun a => pure (f a)) := by
  have hbind := hx.bind fun a => consumes_pure (f a)
  rw [List.append_nil] at hbind
  exact hbind

theorem consumes_lift {y : Except Error α} (h : ∀ id, y ≠ .error (.malformed id .duplicateId)) :
    Consumes records permitted [] (liftM y : Building α) :=
  fun _ => Guarded.lift h

theorem scalars_ne_duplicateId {blockId part : String} (members : List (String × Json)) (id : String) :
    scalars blockId part members ≠ .error (.malformed id .duplicateId) := by
  induction members with
  | nil => simp [scalars]
  | cons member rest ih =>
    obtain ⟨key, v⟩ := member
    rw [scalars]
    split
    · simp
    · exact ih
    · cases hrest : scalars blockId part rest with
      | ok texts =>
        intro h
        cases h
      | error e =>
        intro h
        cases h
        exact ih hrest

theorem textsAt_ne_duplicateId (v : Json) (blockId part id : String) :
    textsAt v blockId part ≠ .error (.malformed id .duplicateId) := by
  unfold textsAt
  split
  · exact scalars_ne_duplicateId _ id
  · nofun

theorem fails_see_iff {p : Progress} {id : String} {e : Error} :
    Fails (see id) p e ↔ id ∈ p.seen ∧ e = .malformed id .duplicateId := by
  unfold see
  rw [fails_get_bind_iff, fails_guard_iff, contains_iff_mem, fails_set_iff]
  simp

theorem fails_use_iff {p : Progress} {id : String} {e : Error} :
    Fails (use id) p e ↔ id ∈ p.used ∧ e = .malformed id .shared := by
  unfold use
  rw [fails_get_bind_iff, fails_guard_iff, contains_iff_mem, fails_set_iff]
  simp

variable {follow : Follow} {parent : String}

theorem consumes_buildSlots (slots : List (String × Json))
    (h : ∀ slot ∈ slots.filter (fun slot => !slot.2.isNull), Consumes records permitted (explicitIds slot.2.objects)
      (buildTarget records follow parent slot.2)) :
    Consumes records permitted
      (explicitIds ((slots.filter fun slot => !slot.2.isNull).flatMap fun slot => slot.2.objects))
      (buildSlots records follow parent slots) := by
  induction slots with
  | nil =>
    rw [buildSlots]
    exact consumes_pure []
  | cons slot rest ih =>
    obtain ⟨name, t⟩ := slot
    rw [buildSlots]
    cases hnull : t.isNull with
    | true =>
      simp only [hnull, Bool.not_true, Bool.false_eq_true, not_false_eq_true, List.filter_cons_of_neg] at h ⊢
      exact ih h
    | false =>
      simp only [hnull, Bool.not_false, List.filter_cons_of_pos, List.flatMap_cons, explicitIds_append, Bool.false_eq_true,
        if_false] at h ⊢
      obtain ⟨ht, hrest⟩ := forall_mem_cons.mp h
      exact ht.bind fun b => (ih hrest).map

theorem consumes_next (t : Option Json)
    (h : ∀ t' ∈ t, Consumes records permitted (explicitIds t'.objects) (buildTarget records follow parent t')) :
    Consumes records permitted (explicitIds (t.toList.flatMap Json.objects))
      (match t with
      | none => pure none
      | some t => some <$> buildTarget records follow parent t) := by
  cases t with
  | none => exact consumes_pure none
  | some t =>
    rw [Option.toList_some, List.flatMap_singleton]
    show Consumes records permitted (explicitIds t.objects) (some <$> buildTarget records follow parent t)
    rw [← bind_pure_comp]
    exact (h t rfl).map

theorem consumes_parts {v : Json} (hv : v.Ordered)
    (h : ∀ entry ∈ v.entries, Consumes records permitted (explicitIds entry.2.objects)
      (buildTarget records follow parent entry.2)) {f : List (String × Block) → List (String × Block) → Option Block → β} :
    Consumes records permitted (explicitIds v.inner) (do
      let values ← (partsOf records follow parent v.members).values
      let statements ← (partsOf records follow parent v.members).statements
      let next ← (partsOf records follow parent v.members).next
      return f values statements next) := by
  have hinner : v.inner = (v.slots "value-slots").flatMap (fun slot => slot.2.objects) ++
      ((v.slots "statement-slots").flatMap (fun slot => slot.2.objects) ++
        (v.part? .next).toList.flatMap Json.objects) := by
    simp only [Json.inner_eq, Json.entries, Step.label, List.flatMap_append, List.flatMap_map, append_assoc]
  rw [hinner, explicitIds_append, explicitIds_append, partsOf_eq hv.sorted_members.nodup_keys]
  simp only [← Json.get?_eq]
  refine (consumes_buildSlots _ fun slot hslot => ?_).bind fun values => ?_
  · exact h (.value slot.1, slot.2) (Step.mem_label_value.mpr hslot)
  refine (consumes_buildSlots _ fun slot hslot => ?_).bind fun statements => ?_
  · exact h (.statement slot.1, slot.2) (Step.mem_label_statement.mpr hslot)
  refine (consumes_next _ fun t ht => ?_).map
  exact h (.next, t) (Step.mem_label_next.mpr ht)

theorem guarded_assemble {v : Json} {id : String} {pending : List String} (hv : v.Ordered)
    (h : ∀ entry ∈ v.entries, Consumes records permitted (explicitIds entry.2.objects)
      (buildTarget records follow id entry.2)) :
    Guarded (Clash records)
      (fun p => (id ∈ p.seen → Clash records id) ∧
        Balanced records permitted (explicitIds v.inner ++ pending) { p with seen := id :: p.seen })
      (assemble id v (partsOf records follow id v.members)) fun _ => Balanced records permitted pending := by
  have hsee : Guarded (Clash records)
      (fun p => (id ∈ p.seen → Clash records id) ∧
        Balanced records permitted (explicitIds v.inner ++ pending) { p with seen := id :: p.seen })
      (see id) fun _ => Balanced records permitted (explicitIds v.inner ++ pending) := by
    refine fun p hp => ⟨fun _ p' hp' => ?_, fun id' hfails => ?_⟩
    · rw [(see_yields_iff.mp hp').2]
      exact hp.2
    · obtain ⟨hseen, he⟩ := fails_see_iff.mp hfails
      cases he
      exact hp.1 hseen
  unfold assemble
  refine hsee.bind fun _ => ?_
  split
  · exact consumes_throw (by simp) pending
  · refine (consumes_lift (textsAt_ne_duplicateId _ _ _) _).bind fun fields => ?_
    refine (consumes_lift (textsAt_ne_duplicateId _ _ _) _).bind fun mutation => ?_
    exact consumes_parts hv h pending

theorem guarded_nestedId {v : Json} {pending : List String} (hv : v ∈ records.inner) :
    Guarded (Clash records) (Balanced records permitted ((v.getText? "id").toList ++ pending)) (nestedId records v)
      fun id p => v.getText? "id" = some id ∧ Balanced records permitted (id :: pending) p ∨
        Made records id ∧ id ∉ records.ids ∧ id ∉ p.seen ∧ Balanced records permitted pending p := by
  intro p hp
  unfold nestedId
  cases hid : v.getText? "id" with
  | some own =>
    rw [hid] at hp
    exact Guarded.pure (fun p hp => .inl ⟨rfl, hp⟩) p hp
  | none =>
    rw [hid] at hp
    refine ⟨fun id p' h => ?_, fun id h => ?_⟩
    · obtain ⟨_, _, hset, h⟩ := yields_bind_iff.mp (yields_get_bind_iff.mp h)
      obtain ⟨rfl, rfl⟩ := yields_pure_iff.mp h
      cases yields_set_iff.mp hset
      have hfresh := generatedId_fresh_notMem p.count (records.ids ++ p.seen)
      rw [List.mem_append, not_or] at hfresh
      exact .inr ⟨⟨⟨_, rfl⟩, v, hv, hid⟩, hfresh.1, hfresh.2,
        ⟨hp.nodup, hp.known, hp.permitted, hp.entered, hp.origins⟩⟩
    · rcases fails_bind_iff.mp (fails_get_bind_iff.mp h) with h | ⟨_, _, -, h⟩
      · exact (fails_set_iff.mp h).elim
      · exact (fails_pure_iff.mp h).elim

theorem consumes_buildTarget_object (hkeyed : Keyed records) (ht : t.Ordered) (hobject : t.isObject = true)
    (hobjects : t.objects ⊆ records.inner)
    (h : ∀ id, ∀ entry ∈ t.entries, Consumes records permitted (explicitIds entry.2.objects)
      (buildTarget records follow id entry.2)) :
    Consumes records permitted (explicitIds t.objects) (buildTarget records follow parent t) := by
  intro pending
  have hids : explicitIds t.objects ++ pending = (t.getText? "id").toList ++ (explicitIds t.inner ++ pending) := by
    rw [Json.objects, if_pos hobject, ← append_assoc, explicitIds, List.filterMap_cons]
    cases t.getText? "id" <;> rfl
  have hmem : t ∈ records.inner := hobjects (Json.mem_objects_self hobject)
  rw [hids]
  cases t with
  | object members =>
    rw [buildTarget]
    refine (guarded_nestedId hmem).bind fun id => ?_
    refine Guarded.guard ?_ fun hnew => ?_
    · rintro p (⟨hown, -⟩ | ⟨-, hnew, -⟩) hid
      · exact ⟨List.mem_filterMap.mpr ⟨_, hmem, hown⟩, .inr (.inl (contains_iff_mem.mp hid))⟩
      · exact absurd (contains_iff_mem.mp hid) hnew
    · rw [contains_iff_mem] at hnew
      refine (guarded_assemble ht (h id)).weaken ?_
      rintro p (⟨-, hp⟩ | ⟨hmade, -, hseen, hp⟩)
      · exact ⟨hp.clash hkeyed hnew, hp.see_own hnew⟩
      · exact ⟨fun hmem => absurd hmem hseen, hp.see_made hnew hmade⟩
  | _ => cases hobject

theorem consumes_buildTarget {referenced : List String} (hkeyed : Keyed records)
    (hfollow : ∀ id record, Dict.get? id records = some record → id ∈ referenced →
      Consumes records permitted [] (follow id record))
    (ht : t.Ordered) (hobjects : t.objects ⊆ records.inner) (hreferences : slotReferences t ⊆ referenced) :
    Consumes records permitted (explicitIds t.objects) (buildTarget records follow parent t) := by
  induction t using Json.part_induct generalizing parent with
  | h t ih =>
    cases t with
    | text id =>
      rw [buildTarget]
      split
      · exact consumes_throw (by simp)
      · next record hrecord => exact hfollow id record hrecord (hreferences (by simp [slotReferences]))
    | object members =>
      refine consumes_buildTarget_object hkeyed ht rfl hobjects fun id entry hentry => ?_
      have hpart := ht.mem_entries_iff.mp hentry
      refine ih entry.1 entry.2 hpart (ht.part? hpart) ?_ ?_
      · exact List.Subset.trans (Json.objects_subset_inner hentry)
          (List.Subset.trans (Json.inner_subset_objects rfl) hobjects)
      · exact fun id hid => hreferences ((mem_slotReferences_step ht).mpr (.inr ⟨_, _, hpart, hid⟩))
    | _ =>
      rw [buildTarget]
      · exact consumes_throw (by simp)
      all_goals simp

end Consumes

/-! ## Records and roots -/

section Records

variable {records : Records} {permitted referenced : List String}

theorem record_inner_subset {record : String × Json} (h : record ∈ records) : record.2.inner ⊆ records.inner :=
  fun _ ht => List.mem_flatMap.mpr ⟨record, h, ht⟩

/-- What a document must be for its records to be built: their dictionaries have ascending keys, and all identifiers
that they refer to are known. -/
structure Linked (records : Records) (referenced : List String) : Prop where
  keyed : Keyed records
  ordered : ∀ record ∈ records, record.2.Ordered
  references : ∀ record ∈ records, slotReferences record.2 ⊆ referenced

theorem guarded_buildRecord (hlinked : Linked records referenced) (hpermitted : referenced ⊆ permitted)
    {limit : Nat} {path : List String} {id : String} {v : Json} (h : (id, v) ∈ records) (pending : List String) :
    Guarded (Clash records)
      (fun p => id ∉ p.seen ∧ id ∈ p.used ∧ Balanced records permitted (explicitIds v.inner ++ pending) p)
      (buildRecord records limit path id v) fun _ => Balanced records permitted pending := by
  induction limit generalizing path id v pending with
  | zero =>
    rw [buildRecord]
    exact Guarded.throw fun _ _ hfault => by cases hfault
  | succ limit ih =>
    have hv := hlinked.ordered _ h
    have hfollow : ∀ id' record, Dict.get? id' records = some record → id' ∈ referenced →
        Consumes records permitted [] (followFrom records limit (id :: path) id' record) := by
      intro id' record hrecord hreferenced pending
      have hmem := Dict.mem_of_get? hrecord
      unfold followFrom
      split
      · exact Guarded.throw fun _ _ hfault => by cases hfault
      · refine Guarded.bind (fun p hp => ⟨fun _ p' hp' => ?_, fun id'' hfails => ?_⟩) fun _ => ih hmem pending
        · obtain ⟨hnew, rfl⟩ := use_yields_iff.mp hp'
          exact hp.enters hlinked.keyed hmem hnew (hpermitted hreferenced)
        · cases (fails_use_iff.mp hfails).2
    rw [buildRecord_succ]
    refine (guarded_assemble hv fun entry hentry => ?_).weaken ?_
    · have hpart := hv.mem_entries_iff.mp hentry
      refine consumes_buildTarget hlinked.keyed hfollow (hv.part? hpart) ?_ ?_
      · exact List.Subset.trans (Json.objects_subset_inner hentry) (record_inner_subset h)
      · exact fun id' hid' => hlinked.references _ h ((mem_slotReferences_step hv).mpr (.inr ⟨_, _, hpart, hid'⟩))
    · exact fun p hp => ⟨fun hseen => absurd hseen hp.1, hp.2.2.see_record hp.2.1⟩

theorem guarded_buildRoots (hlinked : Linked records referenced) {done rest : Records} (hsplit : records = done ++ rest) :
    Guarded (Clash records) (Balanced records (referenced ++ done.ids) []) (buildRoots records referenced rest)
      fun _ _ => True := by
  induction rest generalizing done with
  | nil => exact Guarded.pure fun _ _ => trivial
  | cons record rest ih =>
    obtain ⟨id, v⟩ := record
    have hsplit' : records = (done ++ [(id, v)]) ++ rest := by simp [hsplit]
    have hmem : (id, v) ∈ records := by simp [hsplit]
    have hmore : referenced ++ done.ids ⊆ referenced ++ Records.ids (done ++ [(id, v)]) := by
      simp [Records.ids]
    have hnext := (ih hsplit').weaken fun p hp => hp
    rw [buildRoots]
    split
    · exact hnext.weaken fun p hp => hp.permit hmore
    · next hroot =>
      rw [contains_iff_mem] at hroot
      have hdone : id ∉ done.ids := by
        have hnodup := hlinked.keyed.nodup
        rw [hsplit, Records.ids, List.map_append] at hnodup
        intro hid
        exact (List.nodup_append.mp hnodup).2.2 id hid id (by simp) rfl
      have hid : id ∈ referenced ++ Records.ids (done ++ [(id, v)]) := by simp [Records.ids]
      refine Guarded.bind (fun p hp => ⟨fun _ p' hp' => ?_, fun id' hfails => ?_⟩) fun _ =>
        (guarded_buildRecord hlinked (List.subset_append_left _ _) hmem []).bind fun b => hnext.bind fun others =>
          Guarded.pure fun _ _ => trivial
      · cases hp'
        have hnew : id ∉ p.used := by
          intro hused
          rcases List.mem_append.mp (hp.permitted hused) with hused | hused
          · exact hroot hused
          · exact hdone hused
        exact (hp.permit hmore).enters hlinked.keyed hmem hnew hid
      · cases hfails

end Records

/-! ## Identifiers of records -/

def Stamped (explicit : List String) (record : String × Json) : Prop :=
  record.2.getText? "id" = some record.1 ∨
    record.2.getText? "id" = none ∧ (∃ n, record.1 = generatedId n) ∧ record.1 ∉ explicit

section Stamped

variable {explicit : List String} {index count : Nat} {done : Records} {v : Json} {vs : List Json}

theorem recordsFrom_cons (index count : Nat) (hobject : v.isObject = true) (vs : List Json) :
    ∃ id count', Stamped explicit (id, v) ∧ (v.getText? "id" = none → id ∉ done.ids) ∧
      recordsFrom explicit index count done (v :: vs) =
        if done.ids.contains id then .error (.malformed id .duplicateId)
        else recordsFrom explicit (index + 1) count' ((id, v) :: done) vs := by
  cases hid : v.getText? "id" with
  | some id =>
    refine ⟨id, count, .inl hid, nofun, ?_⟩
    rw [recordsFrom, if_pos hobject, hid]
  | none =>
    have hfresh := generatedId_fresh_notMem count (explicit ++ done.ids)
    rw [List.mem_append, not_or] at hfresh
    refine ⟨generatedId (fresh count (explicit ++ done.ids)), fresh count (explicit ++ done.ids),
      .inr ⟨hid, ⟨_, rfl⟩, hfresh.1⟩, fun _ => hfresh.2, ?_⟩
    rw [recordsFrom, if_pos hobject, hid]

theorem stamped_recordsFrom {records : Records} {count' : Nat} (hdone : ∀ record ∈ done, Stamped explicit record)
    (h : recordsFrom explicit index count done vs = .ok (records, count')) :
    ∀ record ∈ records, Stamped explicit record := by
  induction vs generalizing index count done with
  | nil =>
    cases h
    exact fun record hrecord => hdone record (List.mem_reverse.mp hrecord)
  | cons v vs ih =>
    cases hobject : v.isObject with
    | false => simp [recordsFrom, hobject] at h
    | true =>
      obtain ⟨id, count₁, hstamped, -, hcons⟩ := recordsFrom_cons index count hobject vs
      rw [hcons] at h
      split at h
      · cases h
      · exact ih (forall_mem_cons.mpr ⟨hstamped, hdone⟩) h

theorem duplicate_of_recordsFrom {id : String} (hdone : ∀ record ∈ done, Stamped explicit record)
    (hvs : explicitIds vs ⊆ explicit)
    (h : recordsFrom explicit index count done vs = .error (.malformed id .duplicateId)) :
    List.Duplicate id (explicitIds ((done.map Prod.snd).reverse ++ vs)) := by
  induction vs generalizing index count done with
  | nil => cases h
  | cons v vs ih =>
    cases hobject : v.isObject with
    | false => simp [recordsFrom, hobject] at h
    | true =>
      obtain ⟨id', count₁, hstamped, hnew, hcons⟩ := recordsFrom_cons index count hobject vs
      rw [hcons] at h
      split at h
      · next hseen =>
        cases h
        rw [contains_iff_mem] at hseen
        rcases hstamped with hown | ⟨hnone, -⟩
        · have hexplicit : id ∈ explicitIds (v :: vs) := List.mem_filterMap.mpr ⟨v, List.mem_cons_self, hown⟩
          obtain ⟨⟨_, w⟩, hw, rfl⟩ := List.mem_map.mp hseen
          -- The record before cannot have a made identifier, which no record writes.
          have hbefore := (hdone _ hw).resolve_right fun hmade => hmade.2.2 (hvs hexplicit)
          rw [List.duplicate_iff_sublist, explicitIds_append]
          refine (List.singleton_sublist.mpr (List.mem_filterMap.mpr ⟨w, ?_, hbefore⟩)).append
            (List.singleton_sublist.mpr hexplicit)
          exact List.mem_reverse.mpr (List.mem_map_of_mem hw)
        · exact absurd hseen (hnew hnone)
      · have hrest : explicitIds vs ⊆ explicit := fun s hs =>
          hvs (((List.sublist_cons_self v vs).filterMap _).subset hs)
        have hdup := ih (forall_mem_cons.mpr ⟨hstamped, hdone⟩) hrest h
        rwa [List.map_cons, List.reverse_cons, append_assoc, List.singleton_append] at hdup

end Stamped

/-! ## Documents -/

theorem ofRecords_duplicateId {values : List Json} {id : String}
    (h : ofRecords values = .error (.malformed id .duplicateId)) :
    recordsOf values = .error (.malformed id .duplicateId) ∨ ∃ records count,
      recordsOf values = .ok (records, count) ∧
      Fails (buildRoots records (values.flatMap slotReferences) records) { used := [], seen := [], count }
        (.malformed id .duplicateId) := by
  unfold ofRecords at h
  rcases Except.bind_error_iff.mp h with h | ⟨⟨records, count⟩, hrecords, h⟩
  · exact .inl h
  · refine .inr ⟨records, count, hrecords, ?_⟩
    rcases Except.bind_error_iff.mp h with h | ⟨⟨roots, p⟩, -, h⟩
    · exact h
    · simp only at h
      split at h <;> cases h

theorem balanced_start (records : Records) (permitted : List String) (count : Nat) :
    Balanced records permitted [] { used := [], seen := [], count } :=
  ⟨List.nodup_nil, List.nil_subset _, List.nil_subset _, by simp, [], List.Subperm.refl _, by simp⟩

theorem duplicate_of_clash {records : Records} {explicit : List String} {id : String} (hkeyed : Keyed records)
    (hstamped : ∀ record ∈ records, Stamped explicit record) (h : Clash records id) :
    List.Duplicate id (explicitIds (records.map Prod.snd ++ (records.map Prod.snd).flatMap Json.inner)) ∨
      id ∈ explicitIds ((records.map Prod.snd).flatMap Json.inner) ∧ (∃ n, id = generatedId n) ∧
        ∃ v ∈ records.map Prod.snd ++ (records.map Prod.snd).flatMap Json.inner,
          v.isObject = true ∧ v.getText? "id" = none := by
  have hinner : (records.map Prod.snd).flatMap Json.inner = records.inner := List.flatMap_map ..
  rw [hinner]
  obtain ⟨hid, hdup | hrecords | ⟨hmade, v, hv, hnone⟩⟩ := h
  · rw [explicitIds_append]
    exact .inl (hdup.mono_sublist (List.sublist_append_right _ _))
  · obtain ⟨record, hrecord, rfl⟩ := List.mem_map.mp hrecords
    have hmem : record.2 ∈ records.map Prod.snd := List.mem_map_of_mem hrecord
    rcases hstamped record hrecord with hown | ⟨hnone, hmade, -⟩
    · rw [List.duplicate_iff_sublist, explicitIds_append]
      exact .inl ((List.singleton_sublist.mpr (List.mem_filterMap.mpr ⟨_, hmem, hown⟩)).append
        (List.singleton_sublist.mpr hid))
    · exact .inr ⟨hid, hmade, record.2, List.mem_append_left _ hmem, hkeyed.objects record hrecord, hnone⟩
  · obtain ⟨record, -, hrecord⟩ := List.mem_flatMap.mp hv
    exact .inr ⟨hid, hmade, v, List.mem_append_right _ hv, Json.isObject_of_mem_inner hrecord, hnone⟩

theorem ofJson_malformed_iff {doc : Json} {id : String} :
    ofJson doc = .error (.malformed id fault) ↔
      ∃ values, doc.records? = some values ∧ ofRecords values = .error (.malformed id fault) := by
  unfold ofJson Json.records?
  cases doc with
  | array records => simp
  | object members =>
    simp only
    split <;> simp_all
  | _ => simp

/-- Reading a document fails for a repeated identifier only if two of its block objects write it, or if an object inside
a record writes an identifier of the form that is made for objects without one, and there is such an object. -/
theorem duplicate_of_ofJson {doc : Json} {id : String} (hdoc : doc.Ordered)
    (h : ofJson doc = .error (.malformed id .duplicateId)) :
    ∃ values, doc.records? = some values ∧
      (List.Duplicate id (explicitIds (values ++ values.flatMap Json.inner)) ∨
        id ∈ explicitIds (values.flatMap Json.inner) ∧ (∃ n, id = generatedId n) ∧
          ∃ v ∈ values ++ values.flatMap Json.inner, v.isObject = true ∧ v.getText? "id" = none) := by
  obtain ⟨values, hvalues, h⟩ := ofJson_malformed_iff.mp h
  refine ⟨values, hvalues, ?_⟩
  rcases ofRecords_duplicateId h with h | ⟨records, count, hrecords, hfails⟩
  · have hdup := duplicate_of_recordsFrom (by simp) (List.Subset.refl _) h
    rw [explicitIds_append]
    exact .inl (hdup.mono_sublist (List.sublist_append_left _ _))
  · obtain ⟨hkeyed, rfl⟩ := recordsOf_ok hrecords
    have hlinked : Linked records ((records.map Prod.snd).flatMap slotReferences) := by
      refine ⟨hkeyed, fun record hrecord => ?_, fun record hrecord id hid => ?_⟩
      · exact hdoc.records? hvalues _ (List.mem_map_of_mem hrecord)
      · exact List.mem_flatMap.mpr ⟨record.2, List.mem_map_of_mem hrecord, hid⟩
    have hguarded := guarded_buildRoots hlinked (List.nil_append records).symm
    exact duplicate_of_clash hkeyed (stamped_recordsFrom (by simp) hrecords)
      ((hguarded _ (balanced_start records _ count)).2 id hfails)

/-- A record without an identifier around an object that writes the first one that is made. -/
def unnamedAround : Json :=
  .object [("blocks", .array [
    .object [("type", .text "text_print"),
      ("value-slots", .object [("TEXT", .object [("id", .text "gen-1"), ("type", .text "text")])])]])]

theorem duplicate_of_ofJson_unnamedAround :
    unnamedAround.Ordered ∧ ofJson unnamedAround = .error (.malformed "gen-1" .duplicateId) ∧
    ∃ values, unnamedAround.records? = some values ∧
      (List.Duplicate "gen-1" (explicitIds (values ++ values.flatMap Json.inner)) ∨
        "gen-1" ∈ explicitIds (values.flatMap Json.inner) ∧ (∃ n, "gen-1" = generatedId n) ∧
          ∃ v ∈ values ++ values.flatMap Json.inner, v.isObject = true ∧ v.getText? "id" = none) := by
  have hordered : unnamedAround.Ordered := by decide
  have hread : ofJson unnamedAround = .error (.malformed "gen-1" .duplicateId) := by cbv
  exact ⟨hordered, hread, duplicate_of_ofJson hordered hread⟩

/-- An identifier that is written once can still be refused as repeated. -/
theorem unnamedAround_refused :
    ofJson unnamedAround = .error (.malformed "gen-1" .duplicateId) ∧
      ∃ values, unnamedAround.records? = some values ∧
        explicitIds (values ++ values.flatMap Json.inner) = ["gen-1"] := by
  refine ⟨by cbv, _, rfl, by cbv⟩

end Block

end Blockwork
