import Mathlib.Data.Set.Function
import Blockwork.Proofs.Construction

/-! # The arrangement of a document

The blocks of a document form a forest. Each object of the document, a record or an object inside one, is
one block of it, and stands where the object stands, or where the reference to the object stands.
-/

namespace Blockwork

set_option autoImplicit false

open List (mem_of_getElem? mem_flatMap mem_map)

namespace Json

/-- The records of a document: a list, or the list under `blocks`. -/
def records? : Json → Option (List Json)
  | .array records => some records
  | .object members =>
    match Dict.get? "blocks" members with
    | some (.array records) => some records
    | _ => none
  | _ => none

/-- A block object stands at a place: a record, or an object inside one. -/
def BlockAt (records : List Json) (o : Place) (v : Json) : Prop :=
  o.find? part? records = some v ∧ (o.steps = [] ∨ v.isObject = true)

def ReferenceAt (records : List Json) (o : Place) (id : String) : Prop :=
  o.steps ≠ [] ∧ o.find? part? records = some (.text id)

def scalarAt? (v : Json) (part name : String) : Option String :=
  (((v.get? part).bind (get? name)).bind Block.scalarText?).join

theorem BlockAt.induct {records : List Json} {motive : Json → Prop} (hrecords : ∀ v ∈ records, motive v)
    (hparts : ∀ v s t, motive v → v.part? s = some t → t.isObject = true → motive t) {o : Place} {v : Json}
    (h : BlockAt records o v) : motive v := by
  induction o using Place.induct generalizing v with
  | root i =>
    have hi : records[i]? = some v := by simpa using h.1
    exact hrecords v (mem_of_getElem? hi)
  | step o s ih =>
    obtain ⟨hfind, hobject⟩ := h
    rw [Place.find?_step] at hfind
    obtain ⟨w, hw, hpart⟩ := Option.bind_eq_some_iff.mp hfind
    have hmotive := ih ⟨hw, .inr (isObject_of_part? hpart)⟩
    exact hparts w s v hmotive hpart (hobject.resolve_left (Place.step_ne_root o s))

theorem Ordered.records? {doc : Json} {records : List Json} (hdoc : doc.Ordered)
    (h : doc.records? = some records) : ∀ v ∈ records, v.Ordered := by
  cases hdoc with
  | array hitems =>
    cases h
    exact hitems
  | object _ hmembers =>
    simp only [Json.records?] at h
    split at h
    · next hget =>
      cases h
      cases hmembers _ (Dict.mem_of_get? hget) with
      | array hitems => exact hitems
    · cases h
  | _ => cases h

end Json

namespace Block

variable {bs : List Block} {b c : Block}

theorem ofJson_ok_iff_records {doc : Json} :
    ofJson doc = .ok bs ↔ ∃ records, doc.records? = some records ∧ ofRecords records = .ok bs := by
  unfold ofJson Json.records?
  cases doc with
  | array records => simp
  | object members =>
    simp only
    split <;> simp_all
  | _ => simp

/-! ## Texts -/

theorem get?_scalars {blockId part name : String} {members : List (String × Json)} {texts : Dict String}
    (hkeys : (Dict.keys members).Nodup) (h : scalars blockId part members = .ok texts) :
    Dict.get? name texts = ((Dict.get? name members).bind scalarText?).join := by
  induction members generalizing texts with
  | nil =>
    cases h
    rfl
  | cons member members ih =>
    obtain ⟨key, x⟩ := member
    obtain ⟨hkey, hkeys⟩ := List.nodup_cons.mp hkeys
    rw [scalars] at h
    rw [Dict.get?]
    cases hx : scalarText? x with
    | none => simp [hx] at h
    | some text =>
      cases text with
      | none =>
        simp only [hx] at h
        rw [ih hkeys h]
        by_cases e : key = name
        · subst e
          simp [hx, Dict.get?_eq_none_iff.mpr hkey]
        · simp [e]
      | some text =>
        simp only [hx] at h
        cases hrest : scalars blockId part members with
        | error e =>
          rw [hrest] at h
          cases h
        | ok rest =>
          rw [hrest] at h
          cases h
          rw [Dict.get?, ih hkeys hrest]
          by_cases e : key = name <;> simp [e, hx]

theorem get?_textsAt {v : Json} {id part name : String} {texts : Dict String} (hv : v.Ordered)
    (h : textsAt v id part = .ok texts) : Dict.get? name texts = v.scalarAt? part name := by
  unfold textsAt at h
  unfold Json.scalarAt?
  split at h
  · next members hpart =>
    rw [hpart]
    exact get?_scalars (hv.get? hpart).sorted_members.nodup_keys h
  · next hnone =>
    cases h
    cases hpart : v.get? part with
    | none => rfl
    | some x =>
      cases x with
      | object members => exact absurd hpart (hnone members)
      | _ => rfl

/-! ## Places of blocks -/

theorem index_eq_of_mem_flatMap {α β : Type} {xs : List α} {f : α → List β} (h : (xs.flatMap f).Nodup)
    {i j : Nat} {a b : α} {x : β} (hi : xs[i]? = some a) (hj : xs[j]? = some b) (ha : x ∈ f a) (hb : x ∈ f b) :
    i = j := by
  obtain ⟨hilt, rfl⟩ := List.getElem?_eq_some_iff.mp hi
  obtain ⟨hjlt, rfl⟩ := List.getElem?_eq_some_iff.mp hj
  have hdisjoint := List.pairwise_iff_getElem.mp (List.nodup_flatMap.mp h).2
  by_contra hne
  rcases Nat.lt_or_gt_of_ne hne with hlt | hlt
  · exact hdisjoint i j hilt hjlt hlt ha hb
  · exact hdisjoint j i hjlt hilt hlt hb ha

theorem reached_of_part? {s : Step} (h : b.part? s = some c) : c.reached ⊆ b.reached := by
  cases s with
  | value slot => exact reached_value h
  | statement slot => exact reached_statement h
  | next => exact reached_next h

theorem id_mem_of_foldlM {steps : List Step} (h : steps.foldlM part? b = some c) : c.id ∈ b.ids := by
  induction steps generalizing b with
  | nil =>
    cases h
    exact id_mem_ids c
  | cons s steps ih =>
    rw [List.foldlM_cons] at h
    obtain ⟨d, hd, h⟩ := Option.bind_eq_some_iff.mp h
    exact ids_subset (reached_of_part? hd) (ih h)

theorem exists_entry_of_foldlM {s : Step} {steps : List Step} (h : (s :: steps).foldlM part? b = some c) :
    ∃ (i : Nat) (d : Block), b.entries[i]? = some (s, d) ∧ steps.foldlM part? d = some c ∧ c.id ∈ d.ids := by
  rw [List.foldlM_cons] at h
  obtain ⟨d, hd, h⟩ := Option.bind_eq_some_iff.mp h
  obtain ⟨i, hi⟩ := List.mem_iff_getElem?.mp (mem_entries_of_part? hd)
  exact ⟨i, d, hi, h, id_mem_of_foldlM h⟩

theorem steps_eq_of_id_eq {d : Block} {xs ys : List Step} (hb : b.ids.Nodup)
    (hx : xs.foldlM part? b = some c) (hy : ys.foldlM part? b = some d) (h : c.id = d.id) : xs = ys := by
  induction xs generalizing b ys with
  | nil =>
    cases ys with
    | nil => rfl
    | cons s ys =>
      obtain ⟨i, e, hi, -, hmem⟩ := exists_entry_of_foldlM hy
      cases hx
      rw [ids_eq] at hb
      refine absurd ?_ (List.nodup_cons.mp hb).1
      exact mem_flatMap.mpr ⟨_, mem_of_getElem? hi, h ▸ hmem⟩
  | cons s xs ih =>
    obtain ⟨i, e, hi, hx, hmem⟩ := exists_entry_of_foldlM hx
    rw [ids_eq] at hb
    obtain ⟨hself, hparts⟩ := List.nodup_cons.mp hb
    cases ys with
    | nil =>
      cases hy
      refine absurd ?_ hself
      exact mem_flatMap.mpr ⟨_, mem_of_getElem? hi, h ▸ hmem⟩
    | cons s' ys =>
      obtain ⟨j, e', hj, hy, hmem'⟩ := exists_entry_of_foldlM hy
      have hij : i = j := index_eq_of_mem_flatMap hparts hi hj hmem (h ▸ hmem')
      subst hij
      cases hi.symm.trans hj
      have he : e.ids.Nodup := (List.nodup_flatMap.mp hparts).1 _ (mem_of_getElem? hi)
      rw [ih he hx hy]

theorem find?_eq_some_iff {q : Place} :
    q.find? part? bs = some c ↔ ∃ b, bs[q.tree]? = some b ∧ q.steps.foldlM part? b = some c :=
  Option.bind_eq_some_iff

theorem place_eq_of_id_eq {d : Block} {q r : Place} (hbs : (bs.flatMap ids).Nodup)
    (hq : q.find? part? bs = some c) (hr : r.find? part? bs = some d) (h : c.id = d.id) : q = r := by
  obtain ⟨b, hb, hc⟩ := find?_eq_some_iff.mp hq
  obtain ⟨b', hb', hd⟩ := find?_eq_some_iff.mp hr
  have htree : q.tree = r.tree :=
    index_eq_of_mem_flatMap hbs hb hb' (id_mem_of_foldlM hc) (h ▸ id_mem_of_foldlM hd)
  rw [htree] at hb
  cases hb.symm.trans hb'
  have hsteps := steps_eq_of_id_eq ((List.nodup_flatMap.mp hbs).1 b (mem_of_getElem? hb)) hc hd h
  obtain ⟨i, xs⟩ := q
  obtain ⟨j, ys⟩ := r
  simp_all

/-! ## Places of objects -/

section Built

variable {records : Records} {o o' : Place} {b c : Block} {s : Step}

theorem Matches.nodup_entries {v : Json} (h : Matches records o v b) : (b.entries.map Prod.fst).Nodup := by
  rw [h.steps]
  exact h.ordered.nodup_entries

theorem Built.part? (h : Built records o b) (hc : b.part? s = some c) :
    ∃ o', Origin records (o.step s) o' ∧ Built records o' c := by
  cases h with | @intro _ v _ hmatches hparts => ?_
  have hmem := mem_entries_of_part? hc
  have hs : s ∈ v.entries.map Prod.fst := by
    rw [← hmatches.steps]
    exact List.mem_map_of_mem hmem
  obtain ⟨⟨_, t⟩, ht, rfl⟩ := mem_map.mp hs
  obtain ⟨o', ho'⟩ := hmatches.origin _ t ht
  exact ⟨o', ho', hparts _ c o' hmem ho'⟩

theorem Built.origin (h : Built records o b) (ho : Origin records (o.step s) o') :
    ∃ c, b.part? s = some c ∧ Built records o' c := by
  cases h with | @intro _ v _ hmatches hparts => ?_
  have hpart : ∃ t, v.part? s = some t := by
    rw [← Place.find?_step_of_find? hmatches.at?]
    cases ho with
    | inPlace hat _ => exact ⟨_, hat⟩
    | reference hat _ => exact ⟨_, hat⟩
  obtain ⟨t, ht⟩ := hpart
  have hs : s ∈ b.entries.map Prod.fst := by
    rw [hmatches.steps]
    exact mem_map.mpr ⟨(s, t), hmatches.ordered.mem_entries_iff.mpr ht, rfl⟩
  obtain ⟨⟨_, c⟩, hc, rfl⟩ := mem_map.mp hs
  exact ⟨c, part?_of_mem_entries hmatches.nodup_entries hc, hparts _ c o' hc ho⟩

theorem Built.exists_steps (h : Built records o b) (hc : c ∈ b.reached) :
    ∃ steps : List Step, steps.foldlM Block.part? b = some c := by
  induction h with
  | @intro o v b hmatches hparts ih =>
    rw [reached_entries] at hc
    rcases List.mem_cons.mp hc with rfl | hc
    · exact ⟨[], rfl⟩
    · obtain ⟨⟨s, d⟩, hd, hc⟩ := mem_flatMap.mp hc
      have hpart := part?_of_mem_entries hmatches.nodup_entries hd
      obtain ⟨o', ho', -⟩ := (Built.intro hmatches hparts).part? hpart
      obtain ⟨steps, hsteps⟩ := ih s d o' hd ho' hc
      refine ⟨s :: steps, ?_⟩
      rw [List.foldlM_cons, hpart]
      exact hsteps

end Built

/-- The place of a block and the place of the object from which it comes. -/
inductive Shows (records : Records) (roots : List Nat) : Place → Place → Prop where
  | root {k i : Nat} (h : roots[k]? = some i) : Shows records roots ⟨k, []⟩ ⟨i, []⟩
  | step {q o o' : Place} {s : Step} (h : Shows records roots q o) (ho : Origin records (o.step s) o') :
    Shows records roots (q.step s) o'

/-- Blocks come from all records of a document, and no identifier is repeated. -/
structure Forest (records : Records) (roots : List Nat) (bs : List Block) : Prop where
  keyed : Keyed records
  built : List.Forall₂ (fun i b => Built records ⟨i, []⟩ b) roots bs
  nodup : (bs.flatMap ids).Nodup
  complete : records.ids ⊆ bs.flatMap ids

section Forest

variable {records : Records} {roots : List Nat} {bs : List Block} {q r o : Place} {b : Block}

theorem Forest.shows_of_find? (h : Forest records roots bs) (hq : q.find? part? bs = some b) :
    ∃ o, Shows records roots q o ∧ Built records o b := by
  induction q using Place.induct generalizing b with
  | root k =>
    rw [Place.find?_root] at hq
    obtain ⟨hk, rfl⟩ := List.getElem?_eq_some_iff.mp hq
    have hk' : k < roots.length := h.built.length_eq ▸ hk
    refine ⟨⟨roots[k], []⟩, .root (List.getElem?_eq_getElem hk'), ?_⟩
    exact h.built.get hk' hk
  | step q s ih =>
    rw [Place.find?_step] at hq
    obtain ⟨c, hc, hpart⟩ := Option.bind_eq_some_iff.mp hq
    obtain ⟨o, hshows, hbuilt⟩ := ih hc
    obtain ⟨o', ho', hb⟩ := hbuilt.part? hpart
    exact ⟨o', hshows.step ho', hb⟩

theorem Forest.find?_of_shows (h : Forest records roots bs) (hq : Shows records roots q o) :
    ∃ b, q.find? part? bs = some b ∧ Built records o b := by
  induction hq with
  | @root k i hk =>
    obtain ⟨hlt, rfl⟩ := List.getElem?_eq_some_iff.mp hk
    have hlt' : k < bs.length := h.built.length_eq ▸ hlt
    exact ⟨bs[k], by simp [hlt'], h.built.get hlt hlt'⟩
  | step _ ho ih =>
    obtain ⟨c, hc, hbuilt⟩ := ih
    obtain ⟨b, hb, hbuilt'⟩ := hbuilt.origin ho
    exact ⟨b, (Place.find?_step_of_find? hc).trans hb, hbuilt'⟩

theorem Shows.origin_eq (hnodup : records.ids.Nodup) {o' : Place} (h : Shows records roots q o)
    (h' : Shows records roots q o') : o = o' := by
  induction h generalizing o' with
  | root hk =>
    generalize hq : Place.mk _ [] = q at h'
    cases h' with
    | root hk' =>
      cases hq
      cases hk.symm.trans hk'
      rfl
    | step _ _ => exact absurd (congrArg Place.steps hq).symm (Place.step_ne_root _ _)
  | step h ho ih =>
    generalize hq : Place.step _ _ = q at h'
    cases h' with
    | root _ => exact absurd (congrArg Place.steps hq) (Place.step_ne_root _ _)
    | step h' ho' =>
      obtain ⟨rfl, rfl⟩ := Place.step_inj hq
      cases ih h'
      exact ho.eq hnodup ho'

theorem Shows.parent {s : Step} (h : Shows records roots q (o.step s)) :
    ∃ r, q = r.step s ∧ Shows records roots r o := by
  generalize ho : o.step s = o' at h
  cases h with
  | root _ => exact absurd (congrArg Place.steps ho) (Place.step_ne_root o s)
  | step h hstep =>
    cases hstep with
    | inPlace _ _ =>
      obtain ⟨rfl, rfl⟩ := Place.step_inj ho
      exact ⟨_, rfl, h⟩
    | reference _ _ => exact absurd (congrArg Place.steps ho) (Place.step_ne_root o s)

theorem Built.record_id {i : Nat} {id : String} {v : Json} (h : Built records ⟨i, []⟩ b)
    (hi : records[i]? = some (id, v)) : b.id = id := by
  cases h with
  | intro hmatches _ =>
    obtain ⟨w, hw⟩ := hmatches.root rfl
    cases hi.symm.trans hw
    rfl

theorem Forest.shows_inj (h : Forest records roots bs) (hq : Shows records roots q o)
    (hr : Shows records roots r o) : q = r := by
  induction o using Place.induct generalizing q r with
  | root i =>
    obtain ⟨b, hb, hbuilt⟩ := h.find?_of_shows hq
    obtain ⟨c, hc, hbuilt'⟩ := h.find?_of_shows hr
    cases hbuilt with
    | intro hmatches _ =>
      obtain ⟨w, hw⟩ := hmatches.root rfl
      exact place_eq_of_id_eq h.nodup hb hc (hbuilt'.record_id hw).symm
  | step o s ih =>
    obtain ⟨q', rfl, hq'⟩ := hq.parent
    obtain ⟨r', rfl, hr'⟩ := hr.parent
    rw [ih hq' hr']

theorem Forest.exists_place (h : Forest records roots bs) (hb : b ∈ bs.flatMap reached) :
    ∃ q : Place, q.find? part? bs = some b := by
  obtain ⟨root, hroot, hb⟩ := mem_flatMap.mp hb
  obtain ⟨k, hk⟩ := List.mem_iff_getElem?.mp hroot
  obtain ⟨o, -, hbuilt⟩ := h.shows_of_find? (q := ⟨k, []⟩) (by rw [Place.find?_root, hk])
  obtain ⟨steps, hsteps⟩ := hbuilt.exists_steps hb
  exact ⟨⟨k, steps⟩, find?_eq_some_iff.mpr ⟨root, hk, hsteps⟩⟩

theorem Forest.exists_shows (h : Forest records roots bs) {v : Json} (ho : records.at? o = some v)
    (hobject : v.isObject = true) : ∃ q, Shows records roots q o := by
  induction o using Place.induct generalizing v with
  | root i =>
    obtain ⟨⟨id, w⟩, hi, -⟩ : ∃ record, records[i]? = some record ∧ record.2 = v := by
      simpa [Records.at?] using ho
    have hid : id ∈ records.ids := List.mem_map_of_mem (mem_of_getElem? hi)
    obtain ⟨root, hroot, hid'⟩ := mem_flatMap.mp (h.complete hid)
    obtain ⟨c, hc, rfl⟩ := mem_map.mp hid'
    obtain ⟨q, hq⟩ := h.exists_place (mem_flatMap.mpr ⟨root, hroot, hc⟩)
    obtain ⟨o', hshows, hbuilt⟩ := h.shows_of_find? hq
    cases hbuilt with | intro hmatches _ => ?_
    obtain ⟨j, steps⟩ := o'
    have hsteps : steps = [] := by
      by_contra hne
      exact hmatches.nested hne hid
    subst hsteps
    obtain ⟨w', hw'⟩ := hmatches.root rfl
    rw [index_eq h.keyed.nodup hi hw']
    exact ⟨q, hshows⟩
  | step o s ih =>
    rw [Records.at?, Place.find?_step] at ho
    obtain ⟨w, hw, hpart⟩ := Option.bind_eq_some_iff.mp ho
    obtain ⟨q, hq⟩ := ih hw (Json.isObject_of_part? hpart)
    exact ⟨q.step s, hq.step (.inPlace ((Place.find?_step_of_find? hw).trans hpart) hobject)⟩

end Forest

/-- A map of places takes the block objects of the records to the blocks of a forest.

* It is a bijection, and keeps tags, identifiers that are written, and the texts of fields.
* What stands in a slot or comes next stays there. The record that a reference names goes to where the
  reference stands.
* The roots, in order, are the records that no reference names. -/
structure Arranged (records : List Json) (bs : List Block) (f : Place → Place) : Prop where
  bijective : Set.BijOn f { o | ∃ v, Json.BlockAt records o v } { q | ∃ b, q.find? part? bs = some b }
  placed : ∀ b ∈ bs.flatMap reached, ∃ q : Place, q.find? part? bs = some b
  head : ∀ o v, Json.BlockAt records o v → ∃ b, (f o).find? part? bs = some b ∧
    v.getText? "type" = some b.tag ∧ (∀ id, v.getText? "id" = some id → b.id = id) ∧
    ∀ name, b.field? name = v.scalarAt? "fields" name
  nested : ∀ o s v, Json.BlockAt records (o.step s) v → f (o.step s) = (f o).step s
  reference : ∀ o s id, Json.ReferenceAt records (o.step s) id → ∃ i b, i < records.length ∧
    f ⟨i, []⟩ = (f o).step s ∧ (f ⟨i, []⟩).find? part? bs = some b ∧ b.id = id
  roots : ∃ is : List Nat, is.Pairwise (· < ·) ∧
    is.map (fun i => f ⟨i, []⟩) = (List.range bs.length).map (fun k => ⟨k, []⟩) ∧
    ∀ i, i ∈ is ↔ i < records.length ∧ ∃ b, (f ⟨i, []⟩).find? part? bs = some b ∧
      ∀ o, ¬Json.ReferenceAt records o b.id

section Arranged

variable {records : Records} {roots : List Nat} {bs : List Block}

theorem Keyed.blockAt_iff (h : Keyed records) {o : Place} {v : Json} :
    Json.BlockAt (records.map Prod.snd) o v ↔ records.at? o = some v ∧ v.isObject = true := by
  refine and_congr_right fun hat => ⟨?_, .inr⟩
  rintro (hroot | hobject)
  · obtain ⟨i, steps⟩ := o
    cases hroot
    obtain ⟨record, hi, rfl⟩ : ∃ record, records[i]? = some record ∧ record.2 = v := by
      simpa using hat
    exact h.objects record (mem_of_getElem? hi)
  · exact hobject

theorem Keyed.mem_references_iff (h : Keyed records) (hordered : ∀ record ∈ records, record.2.Ordered)
    {id : String} :
    id ∈ (records.map Prod.snd).flatMap slotReferences ↔
      ∃ o, Json.ReferenceAt (records.map Prod.snd) o id := by
  rw [mem_flatMap]
  constructor
  · rintro ⟨v, hv, hid⟩
    obtain ⟨record, hrecord, rfl⟩ := mem_map.mp hv
    obtain ⟨steps, hsteps⟩ := (mem_slotReferences_iff (hordered record hrecord)).mp hid
    obtain ⟨i, hi⟩ := List.mem_iff_getElem?.mp hv
    refine ⟨⟨i, steps⟩, ?_, Option.bind_eq_some_iff.mpr ⟨_, hi, hsteps⟩⟩
    rintro rfl
    have hobject := h.objects record hrecord
    rw [Option.some.inj hsteps] at hobject
    cases hobject
  · rintro ⟨⟨i, steps⟩, -, hfind⟩
    obtain ⟨v, hi, hsteps⟩ := Option.bind_eq_some_iff.mp hfind
    have hv := mem_of_getElem? hi
    obtain ⟨record, hrecord, rfl⟩ := mem_map.mp hv
    exact ⟨_, hv, (mem_slotReferences_iff (hordered record hrecord)).mpr ⟨steps, hsteps⟩⟩

theorem Forest.blockAt_of_shows (h : Forest records roots bs) {q o : Place} (hq : Shows records roots q o) :
    ∃ v, Json.BlockAt (records.map Prod.snd) o v := by
  obtain ⟨b, -, hbuilt⟩ := h.find?_of_shows hq
  cases hbuilt with
  | @intro _ v _ hmatches _ => exact ⟨v, h.keyed.blockAt_iff.mpr ⟨hmatches.at?, hmatches.object⟩⟩

def Charts (records : Records) (roots : List Nat) (f : Place → Place) : Prop :=
  ∀ o, (∃ v, Json.BlockAt (records.map Prod.snd) o v) → Shows records roots (f o) o

theorem Forest.exists_charts (h : Forest records roots bs) : ∃ f, Charts records roots f := by
  have hexists : ∀ o, ∃ q, (∃ v, Json.BlockAt (records.map Prod.snd) o v) → Shows records roots q o := by
    intro o
    by_cases ho : ∃ v, Json.BlockAt (records.map Prod.snd) o v
    · obtain ⟨v, hv⟩ := ho
      obtain ⟨hat, hobject⟩ := h.keyed.blockAt_iff.mp hv
      obtain ⟨q, hq⟩ := h.exists_shows hat hobject
      exact ⟨q, fun _ => hq⟩
    · exact ⟨o, fun ho' => absurd ho' ho⟩
  choose f hf using hexists
  exact ⟨f, hf⟩

namespace Charts

variable {f : Place → Place} {o q : Place} {s : Step} {v : Json} (hf : Charts records roots f)
  (h : Forest records roots bs)

include hf

theorem parent (hat : records.at? (o.step s) = some v) : Shows records roots (f o) o := by
  rw [Records.at?, Place.find?_step] at hat
  obtain ⟨w, hw, hpart⟩ := Option.bind_eq_some_iff.mp hat
  exact hf o ⟨w, hw, .inr (Json.isObject_of_part? hpart)⟩

include h

theorem eq (hq : Shows records roots q o) : f o = q :=
  h.shows_inj (hf o (h.blockAt_of_shows hq)) hq

theorem bijOn :
    Set.BijOn f { o | ∃ v, Json.BlockAt (records.map Prod.snd) o v } { q | ∃ b, q.find? part? bs = some b } := by
  refine ⟨?_, ?_, ?_⟩
  · intro o ho
    obtain ⟨b, hb, -⟩ := h.find?_of_shows (hf o ho)
    exact ⟨b, hb⟩
  · intro o ho o' ho' heq
    have hshows := hf o ho
    rw [heq] at hshows
    exact hshows.origin_eq h.keyed.nodup (hf o' ho')
  · rintro q ⟨b, hb⟩
    obtain ⟨o, hq, -⟩ := h.shows_of_find? hb
    exact ⟨o, h.blockAt_of_shows hq, hf.eq h hq⟩

theorem head (hv : Json.BlockAt (records.map Prod.snd) o v) :
    ∃ b, (f o).find? part? bs = some b ∧ v.getText? "type" = some b.tag ∧
      (∀ id, v.getText? "id" = some id → b.id = id) ∧ ∀ name, b.field? name = v.scalarAt? "fields" name := by
  obtain ⟨b, hb, hbuilt⟩ := h.find?_of_shows (hf o ⟨v, hv⟩)
  cases hbuilt with
  | @intro _ w _ hmatches _ =>
    cases hv.1.symm.trans hmatches.at?
    refine ⟨b, hb, hmatches.head.tag, hmatches.own, fun name => ?_⟩
    exact get?_textsAt hmatches.ordered hmatches.head.fields

theorem nested (hv : Json.BlockAt (records.map Prod.snd) (o.step s) v) : f (o.step s) = (f o).step s := by
  obtain ⟨hat, hobject⟩ := h.keyed.blockAt_iff.mp hv
  exact hf.eq h ((hf.parent hat).step (.inPlace hat hobject))

theorem reference {id : String} (hat : records.at? (o.step s) = some (.text id)) :
    ∃ i b, i < records.length ∧ f ⟨i, []⟩ = (f o).step s ∧ (f ⟨i, []⟩).find? part? bs = some b ∧ b.id = id := by
  have hshows := hf.parent hat
  obtain ⟨b, -, hbuilt⟩ := h.find?_of_shows hshows
  cases hbuilt with | @intro _ v _ hmatches _ => ?_
  have hpart : v.part? s = some (.text id) := (Place.find?_step_of_find? hmatches.at?).symm.trans hat
  obtain ⟨o', ho'⟩ := hmatches.origin s _ (hmatches.ordered.mem_entries_iff.mpr hpart)
  have hshows' := hshows.step ho'
  cases ho' with
  | inPlace hat' hobject =>
    cases hat.symm.trans hat'
    cases hobject
  | @reference id' w i hat' hi =>
    cases hat.symm.trans hat'
    obtain ⟨hlt, -⟩ := List.getElem?_eq_some_iff.mp hi
    have heq := hf.eq h hshows'
    obtain ⟨c, hc, hbuilt⟩ := h.find?_of_shows hshows'
    exact ⟨i, c, hlt, heq, heq ▸ hc, hbuilt.record_id hi⟩

theorem map_roots : roots.map (fun i => f ⟨i, []⟩) = (List.range bs.length).map (fun k => ⟨k, []⟩) := by
  refine List.ext_getElem (by simp [h.built.length_eq]) fun k hk _ => ?_
  have hk' : k < roots.length := by simpa using hk
  simpa using hf.eq h (.root (List.getElem?_eq_getElem hk'))

theorem record_id {i : Nat} {id : String} (hi : records[i]? = some (id, v)) :
    ∃ b, (f ⟨i, []⟩).find? part? bs = some b ∧ b.id = id := by
  have hv : Json.BlockAt (records.map Prod.snd) ⟨i, []⟩ v := ⟨by simp [hi], .inl rfl⟩
  obtain ⟨b, hb, hbuilt⟩ := h.find?_of_shows (hf _ ⟨v, hv⟩)
  exact ⟨b, hb, hbuilt.record_id hi⟩

theorem mem_roots_iff (hordered : ∀ record ∈ records, record.2.Ordered)
    (hroots : Unnamed records ((records.map Prod.snd).flatMap slotReferences) 0 roots) (i : Nat) :
    i ∈ roots ↔ i < records.length ∧ ∃ b, (f ⟨i, []⟩).find? part? bs = some b ∧
      ∀ o, ¬Json.ReferenceAt (records.map Prod.snd) o b.id := by
  have hnamed : ∀ id, id ∉ (records.map Prod.snd).flatMap slotReferences ↔
      ∀ o, ¬Json.ReferenceAt (records.map Prod.snd) o id := by
    intro id
    rw [h.keyed.mem_references_iff hordered, not_exists]
  rw [hroots.mem_iff]
  constructor
  · rintro ⟨-, id, v, hi, hid⟩
    obtain ⟨hlt, -⟩ := List.getElem?_eq_some_iff.mp hi
    obtain ⟨b, hb, rfl⟩ := hf.record_id h hi
    exact ⟨hlt, b, hb, (hnamed b.id).mp hid⟩
  · rintro ⟨hlt, b, hb, hnone⟩
    have hi : records[i]? = some (records[i].1, records[i].2) := List.getElem?_eq_getElem hlt
    obtain ⟨b', hb', hid⟩ := hf.record_id h hi
    cases hb.symm.trans hb'
    exact ⟨Nat.zero_le i, _, _, hi, hid ▸ (hnamed b.id).mpr hnone⟩

end Charts

theorem Forest.arranged (h : Forest records roots bs) (hordered : ∀ record ∈ records, record.2.Ordered)
    (hroots : Unnamed records ((records.map Prod.snd).flatMap slotReferences) 0 roots) :
    ∃ f, Arranged (records.map Prod.snd) bs f := by
  obtain ⟨f, hf⟩ := h.exists_charts
  refine ⟨f, hf.bijOn h, fun b hb => h.exists_place hb, fun o v hv => hf.head h hv,
    fun o s v hv => hf.nested h hv, fun o s id hid => ?_, roots, hroots.ascending, hf.map_roots h, fun i => ?_⟩
  · rw [List.length_map]
    exact hf.reference h hid.2
  · rw [List.length_map]
    exact hf.mem_roots_iff h hordered hroots i

end Arranged

theorem exists_forest {values : List Json} (hordered : ∀ v ∈ values, v.Ordered) (h : ofRecords values = .ok bs) :
    ∃ records roots, values = records.map Prod.snd ∧ Forest records roots bs ∧
      Unnamed records (values.flatMap slotReferences) 0 roots := by
  obtain ⟨records, count, p, hrecords, hroots, hused⟩ := ofRecords_ok_iff.mp h
  obtain ⟨hkeyed, rfl⟩ := recordsOf_ok hrecords
  have hordered' : ∀ record ∈ records, record.2.Ordered := fun record hrecord =>
    hordered _ (List.mem_map_of_mem hrecord)
  obtain ⟨roots, hunnamed, hbuilt, haccounts⟩ := buildRoots_built hkeyed hordered' (List.nil_append _).symm hroots
  have hseen : p.seen.Perm (bs.flatMap ids) := by simpa using haccounts.seen
  have hnodup : (bs.flatMap ids).Nodup := hseen.nodup_iff.mp (haccounts.nodup List.nodup_nil)
  have hcomplete : records.ids ⊆ bs.flatMap ids := by
    intro id hid
    simpa using haccounts.used (hused hid)
  exact ⟨records, roots, rfl, ⟨hkeyed, hbuilt, hnodup, hcomplete⟩, hunnamed⟩

theorem ofRecords_forest {values : List Json} (hordered : ∀ v ∈ values, v.Ordered)
    (h : ofRecords values = .ok bs) : (bs.flatMap ids).Nodup ∧ ∃ f, Arranged values bs f := by
  obtain ⟨records, roots, rfl, hforest, hunnamed⟩ := exists_forest hordered h
  have hordered' : ∀ record ∈ records, record.2.Ordered := fun record hrecord =>
    hordered _ (List.mem_map_of_mem hrecord)
  exact ⟨hforest.nodup, hforest.arranged hordered' hunnamed⟩

/-- Reading a document loses no block object and repeats none. -/
theorem ofJson_arranged {doc : Json} {bs : List Block} (hdoc : doc.Ordered) (h : ofJson doc = .ok bs) :
    (bs.flatMap ids).Nodup ∧ ∃ records f, doc.records? = some records ∧ Arranged records bs f := by
  obtain ⟨records, hrecords, h⟩ := ofJson_ok_iff_records.mp h
  obtain ⟨hnodup, f, hf⟩ := ofRecords_forest (hdoc.records? hrecords) h
  exact ⟨hnodup, records, f, hrecords, hf⟩

/-- A record that holds an object without an identifier, and that refers to another record. -/
def linked : Json :=
  .object [("blocks", .array [
    .object [("fields", .object [("NUM", .number (.int 7)), ("TXT", .null)]), ("id", .text "a"),
      ("next", .text "b"), ("type", .text "t"),
      ("value-slots", .object [("A", .object [("type", .text "u")]), ("B", .null)])],
    .object [("id", .text "b"), ("type", .text "t")]])]

theorem linked_arranged :
    linked.Ordered ∧ ∃ bs, ofJson linked = .ok bs ∧ bs.map ids = [["a", "gen-1", "b"]] ∧
      (bs.flatMap ids).Nodup ∧ ∃ records f, linked.records? = some records ∧ Arranged records bs f := by
  have hordered : linked.Ordered := by decide
  have hids : (ofJson linked).toOption.map (·.map ids) = some [["a", "gen-1", "b"]] := by decide +kernel
  cases h : ofJson linked with
  | error e =>
    rw [h] at hids
    cases hids
  | ok bs =>
    rw [h] at hids
    exact ⟨hordered, bs, rfl, Option.some.inj hids, ofJson_arranged hordered h⟩

end Block

end Blockwork
