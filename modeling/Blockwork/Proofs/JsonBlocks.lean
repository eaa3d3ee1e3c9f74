import Blockwork.Block.ToJson
import Blockwork.Proofs.Building
import Blockwork.Proofs.JsonTexts

/-! # Blocks as JSON values

A block is written as an object with a member for everything that it has. Nothing is a reference, so every
block is built where it is written.
-/

namespace Blockwork.Block

set_option autoImplicit false

open Dict (Sorted keys)
open Option (map_some map_eq_some_iff)

/-! ## Members -/

theorem member?_eq (key : String) (content : Option Json) :
    member? key content = (content.map fun v => (key, v)).toList := by
  cases content <;> rfl

theorem get?_member? (key key' : String) (content : Option Json) :
    Dict.get? key' (member? key content) = if key = key' then content else none := by
  cases content <;> simp [member?, Dict.get?]

def memberOf (b : Block) : String → Option Json
  | "collapsed" => markToJson? b.attrs.collapsed
  | "comment" => b.attrs.comment.map commentToJson
  | "deletable" => b.attrs.deletable.map .bool
  | "disabled" => markToJson? b.attrs.disabled
  | "fields" => textsToJson? b.fields
  | "id" => some (.text b.id)
  | "inline" => b.attrs.inline.map .bool
  | "movable" => b.attrs.movable.map .bool
  | "mutation" => b.attrs.mutation.bind textsToJson?
  | "next" => b.next.map toJson
  | "position" => b.attrs.position.map positionToJson
  | "statement-slots" => slotsToJson? (b.statements.map fun slot => (slot.1, slot.2.toJson))
  | "type" => some (.text b.tag)
  | "value-slots" => slotsToJson? (b.values.map fun slot => (slot.1, slot.2.toJson))
  | _ => none

def memberKeys : List String :=
  ["collapsed", "comment", "deletable", "disabled", "fields", "id", "inline", "movable", "mutation", "next",
    "position", "statement-slots", "type", "value-slots"]

theorem slotsToJson_eq (slots : List (String × Block)) :
    slotsToJson slots = slots.map fun slot => (slot.1, slot.2.toJson) := by
  induction slots with
  | nil => rw [slotsToJson, List.map_nil]
  | cons slot rest ih => rw [slotsToJson, ih, List.map_cons]

theorem nextToJson_eq (next : Option Block) : nextToJson next = next.map toJson := by
  cases next with
  | none => rw [nextToJson, Option.map_none]
  | some b => rw [nextToJson, map_some]

theorem isObject_toJson (b : Block) : b.toJson.isObject = true := by
  cases b
  rw [toJson]
  rfl

theorem isNull_toJson (b : Block) : b.toJson.isNull = false := by
  cases b
  rw [toJson]
  rfl

theorem members_toJson (b : Block) : b.toJson.members = Dict.collect memberKeys b.memberOf := by
  cases b
  rw [toJson]
  simp [Json.members, Dict.collect, memberKeys, memberOf, slotsToJson_eq, nextToJson_eq, member?_eq, Block.id]

theorem sorted_members_toJson (b : Block) : Sorted b.toJson.members := by
  rw [members_toJson]
  exact Dict.sorted_collect b.memberOf (by decide)

theorem get?_toJson (b : Block) (key : String) : b.toJson.get? key = b.memberOf key := by
  rw [Json.get?_eq, members_toJson, Dict.get?_collect]
  split
  · rfl
  · next hkey =>
    unfold memberOf
    split
    all_goals first
      | rfl
      | exact absurd (by decide) hkey

/-! ## The head of a block -/

theorem scalars_texts (blockId part : String) (texts : Dict String) :
    scalars blockId part (texts.map fun text => (text.1, .text text.2)) = .ok texts := by
  induction texts with
  | nil => rfl
  | cons text rest ih =>
    obtain ⟨key, value⟩ := text
    rw [List.map_cons, scalars]
    simp only [scalarText?, ih]
    rfl

theorem textsAt_of_get? {v : Json} {part : String} {texts : Dict String} (blockId : String)
    (h : v.get? part = textsToJson? texts) : textsAt v blockId part = .ok texts := by
  unfold textsAt
  rw [h]
  cases texts with
  | nil => rfl
  | cons text rest => exact scalars_texts blockId part (text :: rest)

theorem coordinate?_intToJson (x : Int64) : coordinate? (intToJson x.toInt) = some x := by
  have hle : x.toInt ≤ Int64.maxValue.toInt := Int64.toInt_le x
  rw [intToJson, coordinate?, Int.min_eq_left hle, Int64.ofInt_toInt]

theorem sizeOf?_intToJson (n : UInt32) : sizeOf? (intToJson n.toNat) = some n := by
  have hlt : n.toNat < UInt32.size := n.toNat_lt_size
  have hrange : (0 : Int) ≤ n.toNat ∧ (n.toNat : Int) < UInt32.size := by omega
  rw [intToJson, sizeOf?, if_pos hrange, Int.toNat_natCast, UInt32.ofNat_toNat]

theorem bind_sizeOf? (size : Option UInt32) : (size.map fun n => intToJson n.toNat).bind sizeOf? = size := by
  cases size with
  | none => rfl
  | some n => rw [map_some, Option.bind_some, sizeOf?_intToJson]

theorem commentOf_commentToJson (c : Comment) : commentOf (some (commentToJson c)) = some c := by
  unfold commentToJson
  by_cases hplain : (!c.pinned && c.width.isNone && c.height.isNone) = true
  · rw [if_pos hplain]
    obtain ⟨text, pinned, width, height⟩ := c
    simp only [Bool.and_eq_true, Bool.not_eq_true', Option.isNone_iff_eq_none] at hplain
    obtain ⟨⟨rfl, rfl⟩, rfl⟩ := hplain
    rfl
  · rw [if_neg hplain, commentOf]
    simp [Json.getText?, Json.getBool?, Json.get?, Dict.get?_append, get?_member?, Dict.get?, Json.text?,
      Json.bool?, bind_sizeOf?]

theorem positionOf_toJson (b : Block) : positionOf b.toJson = b.attrs.position := by
  unfold positionOf
  simp only [get?_toJson, memberOf]
  cases hposition : b.attrs.position with
  | none => simp [get?_toJson, memberOf]
  | some p => simp [positionToJson, Json.get?, Dict.get?, coordinate?_intToJson]

theorem mutationOf_getD {mutation : Option Mutation} (h : mutation ≠ some []) :
    mutationOf (mutation.getD []) = mutation := by
  match mutation, h with
  | none, _ => rfl
  | some (_ :: _), _ => rfl

theorem attributesOf_toJson {b : Block} (h : b.attrs.mutation ≠ some []) :
    attributesOf b.toJson b.id (b.attrs.mutation.getD []) = b.attrs := by
  have hmark : ∀ mark : Bool, ((markToJson? mark).bind Json.bool?).getD false = mark := by decide
  have hflag : ∀ flag : Option Bool, (flag.map Json.bool).bind Json.bool? = flag := by
    rintro (_ | flag) <;> rfl
  have hcomment : commentOf (b.attrs.comment.map commentToJson) = b.attrs.comment := by
    cases b.attrs.comment with
    | none => rfl
    | some c => exact commentOf_commentToJson c
  unfold attributesOf Json.getBool?
  simp only [positionOf_toJson, get?_toJson, memberOf, hmark, hflag, hcomment, mutationOf_getD h]
  rfl

/-! ## Building -/

def Progress.mark (p : Progress) (ids : List String) : Progress :=
  { p with seen := ids.reverse ++ p.seen }

theorem Progress.mark_append (p : Progress) (ids ids' : List String) :
    p.mark (ids ++ ids') = (p.mark ids).mark ids' := by
  simp [mark]

def Progress.taken (p : Progress) (records : Records) : List String :=
  p.seen ++ records.ids

theorem Progress.taken_mark (p : Progress) (records : Records) (ids : List String) :
    (p.mark ids).taken records = ids.reverse ++ p.taken records := by
  simp [mark, taken]

theorem Fits.after {records : Records} {p : Progress} {ids ids' : List String}
    (h : Fits (p.taken records) (ids ++ ids')) : Fits ((p.mark ids).taken records) ids' := by
  rw [Progress.taken_mark]
  exact h.right

section Building

variable {records : Records} {follow : Follow} {p : Progress}

theorem buildSlots_toJson {parent : String} {slots : List (String × Block)}
    (hslots : ∀ slot ∈ slots, ∀ p, Fits (p.taken records) slot.2.ids →
      Yields (buildTarget records follow parent slot.2.toJson) p slot.2 (p.mark slot.2.ids))
    (hfits : Fits (p.taken records) (slots.flatMap fun slot => slot.2.ids)) :
    Yields (buildSlots records follow parent (slots.map fun slot => (slot.1, slot.2.toJson))) p slots
      (p.mark (slots.flatMap fun slot => slot.2.ids)) := by
  induction slots generalizing p with
  | nil =>
    rw [List.map_nil, buildSlots]
    exact yields_pure_iff.mpr ⟨rfl, rfl⟩
  | cons slot rest ih =>
    obtain ⟨name, b⟩ := slot
    obtain ⟨hfirst, hrest⟩ := List.forall_mem_cons.mp hslots
    rw [List.flatMap_cons] at hfits
    have hbuild := hfirst p hfits.left
    have hothers := ih hrest hfits.after
    rw [List.map_cons, buildSlots, isNull_toJson, List.flatMap_cons, Progress.mark_append]
    refine yields_bind_iff.mpr ⟨b, _, hbuild, ?_⟩
    refine yields_bind_iff.mpr ⟨rest, _, hothers, ?_⟩
    exact yields_pure_iff.mpr ⟨rfl, rfl⟩

theorem members_slotsToJson? (slots : List (String × Json)) :
    ((slotsToJson? slots).map Json.members).getD [] = slots := by
  cases slots with
  | nil => rfl
  | cons slot rest => rfl

theorem buildNext_toJson {parent : String} {next : Option Block}
    (hnext : ∀ c, next = some c → ∀ p, Fits (p.taken records) c.ids →
      Yields (buildTarget records follow parent c.toJson) p c (p.mark c.ids))
    (hfits : Fits (p.taken records) (next.toList.flatMap ids)) :
    Yields (match (next.map toJson).filter fun t => !t.isNull with
        | none => pure none
        | some t => some <$> buildTarget records follow parent t) p next (p.mark (next.toList.flatMap ids)) := by
  cases next with
  | none => exact yields_pure_iff.mpr ⟨rfl, rfl⟩
  | some c =>
    simp only [map_some, Option.filter, isNull_toJson, Bool.not_false, if_true, Option.toList,
      List.flatMap_singleton] at hfits ⊢
    exact yields_map_iff.mpr ⟨c, hnext c rfl p hfits, rfl⟩

theorem assemble_toJson {b : Block} (hsolid : b.Solid)
    (hparts : ∀ entry ∈ b.entries, ∀ p, Fits (p.taken records) entry.2.ids →
      Yields (buildTarget records follow b.id entry.2.toJson) p entry.2 (p.mark entry.2.ids))
    (hnew : b.id ∉ p.seen) (hfits : Fits ((p.mark [b.id]).taken records) (b.entries.flatMap fun entry => entry.2.ids)) :
    Yields (assemble b.id b.toJson (partsOf records follow b.id b.toJson.members)) p b (p.mark b.ids) := by
  have hids : b.entries.flatMap (fun entry => entry.2.ids) =
      b.values.flatMap (fun slot => slot.2.ids) ++ b.statements.flatMap (fun slot => slot.2.ids) ++
        b.next.toList.flatMap ids := by
    simp only [entries, Step.label, List.flatMap_append, List.flatMap_map]
  rw [hids] at hfits
  have hpartsOf := @partsOf_eq records follow b.id _ (sorted_members_toJson b).nodup_keys
  simp only [← Json.get?_eq, get?_toJson, memberOf, members_slotsToJson?] at hpartsOf
  have hvalues := @buildSlots_toJson records follow (p.mark [b.id]) b.id b.values
    (fun slot hslot => hparts (.value slot.1, slot.2) (Step.mem_label_value.mpr hslot)) hfits.left.left
  have hstatements := @buildSlots_toJson records follow _ b.id b.statements
    (fun slot hslot => hparts (.statement slot.1, slot.2) (Step.mem_label_statement.mpr hslot)) hfits.left.after
  have hnext := buildNext_toJson (fun c hc => hparts (.next, c) (Step.mem_label_next.mpr hc)) hfits.after
  simp only [Progress.mark_append] at hnext
  have htag : b.toJson.getText? "type" = some b.tag := by
    rw [Json.getText?, get?_toJson]
    rfl
  have hfields := textsAt_of_get? b.id (get?_toJson b "fields")
  have hmutation : textsAt b.toJson b.id "mutation" = .ok (b.attrs.mutation.getD []) := by
    refine textsAt_of_get? b.id ((get?_toJson b "mutation").trans ?_)
    cases hb : b.attrs.mutation <;> simp [memberOf, hb, textsToJson?]
  unfold assemble
  refine yields_bind_iff.mpr ⟨(), p.mark [b.id], see_yields_iff.mpr ⟨hnew, rfl⟩, ?_⟩
  rw [htag, hpartsOf]
  simp only [yields_bind_iff, yields_lift_iff, yields_pure_iff]
  refine ⟨b.fields, _, ⟨hfields, rfl⟩, _, _, ⟨hmutation, rfl⟩, b.values, _, hvalues, b.statements, _, hstatements,
    b.next, _, hnext, ?_, ?_⟩
  · rw [attributesOf_toJson hsolid]
    cases b
    rfl
  · rw [ids_eq, hids, ← List.singleton_append, Progress.mark_append, Progress.mark_append, Progress.mark_append]

theorem buildTarget_toJson {b : Block} (hsolid : ∀ c ∈ b.reached, c.Solid) (parent : String)
    (hfits : Fits (p.taken records) b.ids) : Yields (buildTarget records follow parent b.toJson) p b (p.mark b.ids) := by
  induction b using part_induct generalizing parent p with
  | h b ih =>
    have hid : b.toJson.getText? "id" = some b.id := by
      rw [Json.getText?, get?_toJson]
      rfl
    have hids := hfits
    rw [ids_eq, ← List.singleton_append] at hids
    refine (buildTarget_object_iff (isObject_toJson b)).mpr ⟨b.id, p, nestedId_of_own hid, ?_, ?_⟩
    · exact fun hmem => hfits.new b.id (id_mem_ids b) (List.mem_append_right _ hmem)
    · refine assemble_toJson (hsolid b (mem_reached_self b)) (fun entry hentry p hfits => ?_)
        (fun hseen => hfits.new b.id (id_mem_ids b) (List.mem_append_left _ hseen)) hids.after
      exact ih entry hentry (fun c hc => hsolid c (reached_entry hentry hc)) b.id hfits

end Building

/-! ## Documents -/

theorem mem_slotsReferences_toJson {x : Json} {slots : List (String × Block)} {id : String}
    (hx : slotsToJson? (slots.map fun slot => (slot.1, slot.2.toJson)) = some x) (hid : id ∈ slotsReferences x) :
    ∃ slot ∈ slots, id ∈ slotReferences slot.2.toJson := by
  have hmembers := members_slotsToJson? (slots.map fun slot => (slot.1, slot.2.toJson))
  rw [hx, map_some, Option.getD_some] at hmembers
  rw [slotsReferences_eq, hmembers, List.flatMap_map] at hid
  exact List.mem_flatMap.mp hid

theorem slotReferences_toJson (b : Block) : slotReferences b.toJson = [] := by
  induction b using part_induct with
  | h b ih =>
    refine List.eq_nil_iff_forall_not_mem.mpr fun id hid => ?_
    have hreferences : slotReferences b.toJson = references b.toJson.members := by
      have hobject := isObject_toJson b
      cases hb : b.toJson with
      | object members => rw [slotReferences, Json.members]
      | _ => rw [hb] at hobject; cases hobject
    rw [hreferences, mem_references_iff] at hid
    obtain ⟨key, x, hmem, hid⟩ := hid
    have hx : b.memberOf key = some x := by
      rw [← get?_toJson, Json.get?_eq]
      exact (sorted_members_toJson b).get?_of_mem hmem
    rcases hid with ⟨rfl | rfl, hid⟩ | ⟨rfl, hid⟩
    · obtain ⟨slot, hslot, hid⟩ := mem_slotsReferences_toJson hx hid
      have hnone := ih (.value slot.1, slot.2) (Step.mem_label_value.mpr hslot)
      rw [hnone] at hid
      cases hid
    · obtain ⟨slot, hslot, hid⟩ := mem_slotsReferences_toJson hx hid
      have hnone := ih (.statement slot.1, slot.2) (Step.mem_label_statement.mpr hslot)
      rw [hnone] at hid
      cases hid
    · obtain ⟨c, hc, rfl⟩ := map_eq_some_iff.mp hx
      have hnone := ih (.next, c) (Step.mem_label_next.mpr hc)
      rw [hnone] at hid
      cases hid

def toRecords (bs : List Block) : Records :=
  bs.map fun b => (b.id, b.toJson)

theorem ids_toRecords (bs : List Block) : (toRecords bs).ids = bs.map id := by
  simp [toRecords, Records.ids]

theorem recordsFrom_toJson {explicit : List String} {index count : Nat} {done : Records} {bs : List Block}
    (hnodup : (done.ids ++ bs.map id).Nodup) :
    recordsFrom explicit index count done (bs.map toJson) = .ok (done.reverse ++ toRecords bs, count) := by
  induction bs generalizing index done with
  | nil => simp [recordsFrom, toRecords]
  | cons b bs ih =>
    have hid : b.toJson.getText? "id" = some b.id := by
      rw [Json.getText?, get?_toJson]
      rfl
    have hperm : (done.ids ++ b.id :: bs.map id).Perm (Records.ids ((b.id, b.toJson) :: done) ++ bs.map id) :=
      List.perm_middle
    have hnodup' := hperm.nodup_iff.mp hnodup
    have hnew : b.id ∉ done.ids := fun hmem => (List.nodup_cons.mp hnodup').1 (List.mem_append_left _ hmem)
    have hrest := @ih (index + 1) ((b.id, b.toJson) :: done) hnodup'
    rw [List.map_cons, recordsFrom, isObject_toJson, hid]
    simp only [if_true, List.contains_iff_mem, hnew, if_false, hrest]
    simp [toRecords]

theorem buildRoots_toJson {records : Records} {p : Progress} {bs : List Block} (hrecords : records ≠ [])
    (hsolid : ∀ b ∈ bs.flatMap reached, b.Solid) (hnodup : (bs.flatMap ids).Nodup)
    (hnew : ∀ id ∈ bs.flatMap ids, id ∉ p.seen)
    (hnested : ∀ b ∈ bs, ∀ entry ∈ b.entries, ∀ id ∈ entry.2.ids, id ∉ records.ids) :
    ∃ p', Yields (buildRoots records [] (toRecords bs)) p bs p' ∧ p'.used = (bs.map id).reverse ++ p.used := by
  induction bs generalizing p with
  | nil => exact ⟨p, yields_pure_iff.mpr ⟨rfl, rfl⟩, rfl⟩
  | cons b bs ih =>
    simp only [List.flatMap_cons, List.mem_append] at hsolid hnew
    rw [List.flatMap_cons] at hnodup
    obtain ⟨hb, hbs, hdisjoint⟩ := List.nodup_append'.mp hnodup
    obtain ⟨n, hn⟩ := Nat.exists_eq_succ_of_ne_zero (mt List.length_eq_zero_iff.mp hrecords)
    obtain ⟨hnested, hnestedRest⟩ := List.forall_mem_cons.mp hnested
    have hparts : Fits ((({ p with used := b.id :: p.used } : Progress).mark [b.id]).taken records)
        (b.entries.flatMap fun entry => entry.2.ids) := by
      rw [ids_eq] at hb
      refine ⟨(List.nodup_cons.mp hb).2, fun id hid htaken => ?_⟩
      rcases List.mem_append.mp htaken with hseen | hrecord
      · rcases List.mem_cons.mp hseen with rfl | hseen
        · exact (List.nodup_cons.mp hb).1 hid
        · refine hnew id (.inl ?_) hseen
          rw [ids_eq]
          exact List.mem_cons_of_mem _ hid
      · obtain ⟨entry, hentry, hid⟩ := List.mem_flatMap.mp hid
        exact hnested entry hentry id hid hrecord
    have hbuild : Yields (buildRecord records records.length [] b.id b.toJson) { p with used := b.id :: p.used } b
        (({ p with used := b.id :: p.used } : Progress).mark b.ids) := by
      rw [hn, buildRecord_succ]
      refine assemble_toJson (hsolid b (.inl (mem_reached_self b))) (fun entry hentry p hfits => ?_)
        (hnew b.id (.inl (id_mem_ids b))) hparts
      exact buildTarget_toJson (fun c hc => hsolid c (.inl (reached_entry hentry hc))) b.id hfits
    obtain ⟨p', hothers, hused⟩ := @ih (({ p with used := b.id :: p.used } : Progress).mark b.ids)
      (fun c hc => hsolid c (.inr hc)) hbs (fun id hid hseen => by
        rcases List.mem_append.mp hseen with hmark | hseen
        · exact hdisjoint (List.mem_reverse.mp hmark) hid
        · exact hnew id (.inr hid) hseen) hnestedRest
    refine ⟨p', ?_, by simpa [Progress.mark] using hused⟩
    refine buildRoots_cons_iff.mpr ?_
    rw [if_neg List.not_mem_nil]
    exact ⟨b, _, bs, hbuild, hothers, rfl⟩

theorem perm_ids (bs : List Block) :
    (bs.map id ++ bs.flatMap fun b => b.entries.flatMap fun entry => entry.2.ids).Perm (bs.flatMap ids) := by
  have hids : bs.flatMap ids = bs.flatMap fun b => [b.id] ++ b.entries.flatMap fun entry => entry.2.ids := by
    congr 1
    funext b
    exact ids_eq b
  rw [hids, List.map_eq_flatMap]
  exact List.flatMap_append_perm bs _ _

theorem ofJson_of_distinct {bs : List Block} (hids : (bs.flatMap ids).Nodup)
    (hsolid : ∀ b ∈ bs.flatMap reached, b.Solid) : ofJson (documentToJson bs) = .ok bs := by
  obtain ⟨hroots, -, hdisjoint⟩ := List.nodup_append'.mp ((perm_ids bs).nodup_iff.mpr hids)
  have hrecords : recordsOf (bs.map toJson) = .ok (toRecords bs, 0) := recordsFrom_toJson hroots
  have hreferenced : (bs.map toJson).flatMap slotReferences = [] := by
    simp [List.flatMap_map, slotReferences_toJson]
  have hnested : ∀ b ∈ bs, ∀ entry ∈ b.entries, ∀ id ∈ entry.2.ids, id ∉ (toRecords bs).ids := by
    intro b hb entry hentry id hid hmem
    rw [ids_toRecords] at hmem
    exact hdisjoint hmem (List.mem_flatMap.mpr ⟨b, hb, List.mem_flatMap.mpr ⟨entry, hentry, hid⟩⟩)
  show ofRecords (bs.map toJson) = .ok bs
  cases bs with
  | nil => rfl
  | cons b rest =>
    have hne : toRecords (b :: rest) ≠ [] := by simp [toRecords]
    obtain ⟨p, hbuild, hused⟩ := @buildRoots_toJson _ ⟨[], [], 0⟩ (b :: rest) hne hsolid hids
      (fun id _ => List.not_mem_nil) hnested
    refine ofRecords_ok_iff.mpr ⟨_, 0, p, hrecords, ?_, ?_⟩
    · rw [hreferenced]
      exact hbuild
    · rw [ids_toRecords, hused, List.append_nil]
      exact fun id hid => List.mem_reverse.mpr hid

/-! ## Texts -/

theorem printable_int64 (x : Int64) : (intToJson x.toInt).Printable := by
  have hlow : Int64.minValue.toInt ≤ x.toInt := Int64.le_toInt x
  have hhigh : x.toInt ≤ Int64.maxValue.toInt := Int64.toInt_le x
  refine ⟨.number _, .int ⟨hlow, ?_⟩⟩
  exact Int.lt_of_le_of_lt hhigh (by decide)

theorem printable_uint32 (n : UInt32) : (intToJson n.toNat).Printable := by
  have hlt : n.toNat < UInt32.size := n.toNat_lt_size
  have hsize : UInt32.size = 4294967296 := rfl
  refine ⟨.number _, .int ⟨?_, ?_⟩⟩ <;> omega

theorem printable_texts {texts : Dict String} (h : Sorted texts) {x : Json} (hx : textsToJson? texts = some x) :
    x.Printable := by
  unfold textsToJson? at hx
  split at hx
  · cases hx
  · cases hx
    refine Json.printable_object ?_ fun m hm => ?_
    · have hkeys : keys (texts.map fun text => (text.1, Json.text text.2)) = keys texts := by
        simp [keys, Function.comp_def]
      rw [Sorted, ← hkeys] at h
      exact h
    · obtain ⟨text, -, rfl⟩ := List.mem_map.mp hm
      exact Json.printable_text _

theorem printable_comment (c : Comment) : (commentToJson c).Printable := by
  unfold commentToJson
  split
  · exact Json.printable_text _
  · refine Json.printable_object ?_ fun m hm => ?_
    · have hsorted := @Dict.sorted_collect Json ["height", "pinned", "text", "width"] (fun
        | "height" => c.height.map fun n => intToJson n.toNat
        | "pinned" => some (.bool c.pinned)
        | "text" => some (.text c.text)
        | _ => c.width.map fun n => intToJson n.toNat) (by decide)
      simpa [Dict.collect, member?_eq] using hsorted
    · simp only [member?_eq, List.mem_append, List.mem_cons, List.not_mem_nil, or_false, Option.mem_toList,
        map_eq_some_iff] at hm
      rcases hm with (⟨x, ⟨n, -, rfl⟩, rfl⟩ | rfl | rfl) | ⟨x, ⟨n, -, rfl⟩, rfl⟩
      · exact printable_uint32 n
      · exact Json.printable_bool _
      · exact Json.printable_text _
      · exact printable_uint32 n

theorem printable_slots {slots : List (String × Block)} (hsorted : Sorted slots)
    (h : ∀ slot ∈ slots, slot.2.toJson.Printable) {x : Json}
    (hx : slotsToJson? (slots.map fun slot => (slot.1, slot.2.toJson)) = some x) : x.Printable := by
  unfold slotsToJson? at hx
  split at hx
  · cases hx
  · cases hx
    refine Json.printable_object ?_ fun m hm => ?_
    · have hkeys : keys (slots.map fun slot => (slot.1, slot.2.toJson)) = keys slots := by
        simp [keys, Function.comp_def]
      rw [Sorted, hkeys]
      exact hsorted
    · obtain ⟨slot, hslot, rfl⟩ := List.mem_map.mp hm
      exact h slot hslot

theorem printable_toJson {b : Block} (h : ∀ c ∈ b.reached, c.Ordered) : b.toJson.Printable := by
  induction b using part_induct with
  | h b ih =>
    have hb : b.Ordered := h b (mem_reached_self b)
    have hparts : ∀ entry ∈ b.entries, entry.2.toJson.Printable := fun entry hentry =>
      ih entry hentry fun c hc => h c (reached_entry hentry hc)
    have hmembers : ∀ key x, b.memberOf key = some x → x.Printable := by
      intro key x hx
      have hmark : ∀ {mark : Bool}, markToJson? mark = some x → x.Printable := by
        intro mark hmark
        cases mark with
        | false => cases hmark
        | true =>
          cases hmark
          exact Json.printable_bool true
      have hflag : ∀ {flag : Option Bool}, flag.map Json.bool = some x → x.Printable := by
        intro flag hflag
        obtain ⟨value, -, rfl⟩ := map_eq_some_iff.mp hflag
        exact Json.printable_bool value
      unfold memberOf at hx
      split at hx
      case h_1 => exact hmark hx
      case h_2 =>
        obtain ⟨c, -, rfl⟩ := map_eq_some_iff.mp hx
        exact printable_comment c
      case h_3 => exact hflag hx
      case h_4 => exact hmark hx
      case h_5 => exact printable_texts hb.fields hx
      case h_6 =>
        cases hx
        exact Json.printable_text _
      case h_7 => exact hflag hx
      case h_8 => exact hflag hx
      case h_9 =>
        obtain ⟨mutation, hmutation, hx⟩ := Option.bind_eq_some_iff.mp hx
        have hsorted := hb.mutation
        rw [hmutation] at hsorted
        exact printable_texts hsorted hx
      case h_10 =>
        obtain ⟨c, hc, rfl⟩ := map_eq_some_iff.mp hx
        exact hparts (.next, c) (Step.mem_label_next.mpr hc)
      case h_11 =>
        obtain ⟨p, -, rfl⟩ := map_eq_some_iff.mp hx
        have hkeys : List.Pairwise (· < ·) ["x", "y"] := by decide
        refine Json.printable_object hkeys fun m hm => ?_
        simp only [List.mem_cons, List.not_mem_nil, or_false] at hm
        rcases hm with rfl | rfl
        · exact printable_int64 p.x
        · exact printable_int64 p.y
      case h_12 =>
        exact printable_slots hb.statements (fun slot hslot => hparts (.statement slot.1, slot.2)
          (Step.mem_label_statement.mpr hslot)) hx
      case h_13 =>
        cases hx
        exact Json.printable_text _
      case h_14 =>
        exact printable_slots hb.values (fun slot hslot => hparts (.value slot.1, slot.2)
          (Step.mem_label_value.mpr hslot)) hx
      case h_15 => cases hx
    have hobject : b.toJson = .object b.toJson.members := by
      cases b
      rw [toJson]
      rfl
    rw [hobject]
    refine Json.printable_object (sorted_members_toJson b) fun m hm => hmembers m.1 m.2 ?_
    rw [← get?_toJson, Json.get?_eq]
    exact (sorted_members_toJson b).get?_of_mem hm

theorem printable_documentToJson {bs : List Block} (h : ∀ b ∈ bs.flatMap reached, b.Ordered) :
    (documentToJson bs).Printable := by
  refine Json.printable_object (List.pairwise_singleton _ _) (List.forall_mem_singleton.mpr ?_)
  refine Json.printable_array fun v hv => ?_
  obtain ⟨b, hb, rfl⟩ := List.mem_map.mp hv
  exact printable_toJson fun c hc => h c (List.mem_flatMap.mpr ⟨b, hb, hc⟩)

end Blockwork.Block
