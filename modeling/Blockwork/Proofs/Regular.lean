import Blockwork.Document
import Blockwork.Proofs.XmlNaming

/-! # Blocks that were read

Whatever a document looks like, the blocks that are read from it have different identifiers, ascending names
in their dictionaries, and no empty mutation.
-/

namespace Blockwork

set_option autoImplicit false

namespace Block

structure Regular (bs : List Block) : Prop where
  distinct : (bs.flatMap ids).Nodup
  ordered : ∀ b ∈ bs.flatMap reached, b.Ordered
  solid : ∀ b ∈ bs.flatMap reached, b.Solid

/-! ## Blocks from JSON values -/

theorem sublist_keys_scalars {blockId part : String} {members : List (String × Json)} {texts : Dict String}
    (h : scalars blockId part members = .ok texts) : (Dict.keys texts).Sublist (Dict.keys members) := by
  induction members generalizing texts with
  | nil =>
    cases h
    exact List.Sublist.slnil
  | cons member members ih =>
    obtain ⟨key, x⟩ := member
    rw [scalars] at h
    cases hx : scalarText? x with
    | none => simp [hx] at h
    | some text =>
      cases text with
      | none =>
        simp only [hx] at h
        exact (ih h).cons key
      | some text =>
        simp only [hx] at h
        cases hrest : scalars blockId part members with
        | error e =>
          rw [hrest] at h
          cases h
        | ok rest =>
          rw [hrest] at h
          cases h
          exact (ih hrest).cons_cons key

theorem sorted_textsAt {v : Json} {id part : String} {texts : Dict String} (hv : v.Ordered)
    (h : textsAt v id part = .ok texts) : Dict.Sorted texts := by
  unfold textsAt at h
  split at h
  · next members hpart => exact (hv.get? hpart).sorted_members.sublist (sublist_keys_scalars h)
  · cases h
    exact List.Pairwise.nil

section Built

variable {records : Records} {o : Place} {v : Json} {b : Block}

theorem Matches.ordered_block (h : Matches records o v b) : b.Ordered := by
  obtain ⟨mutation, hmutation, hattrs⟩ := h.head.attrs
  -- The names of slots are known from the steps to them.
  have hkeys : ∀ pick : Step → Option String,
      (b.entries.map Prod.fst).filterMap pick = (v.entries.map Prod.fst).filterMap pick := fun pick => by rw [h.steps]
  have hvalues := hkeys fun | .value slot => some slot | _ => none
  have hstatements := hkeys fun | .statement slot => some slot | _ => none
  simp only [entries, Json.entries, Step.label, List.map_append, List.map_map, List.filterMap_append,
    List.filterMap_map, Function.comp_def, List.filterMap_eq_map', List.filterMap_none, List.append_nil,
    List.nil_append] at hvalues hstatements
  refine ⟨sorted_textsAt h.ordered h.head.fields, ?_, ?_, ?_⟩
  · rw [Dict.Sorted, Dict.keys, hvalues]
    exact h.ordered.sorted_slots _
  · rw [Dict.Sorted, Dict.keys, hstatements]
    exact h.ordered.sorted_slots _
  · rw [hattrs]
    show Dict.Sorted ((mutationOf mutation).getD [])
    unfold mutationOf
    split
    · exact List.Pairwise.nil
    · exact sorted_textsAt h.ordered hmutation

theorem Matches.solid (h : Matches records o v b) : b.Solid := by
  obtain ⟨mutation, -, hattrs⟩ := h.head.attrs
  rw [Solid, hattrs]
  show mutationOf mutation ≠ some []
  cases mutation with
  | nil => simp [mutationOf]
  | cons pair pairs => simp [mutationOf]

end Built

variable {bs : List Block}

theorem Regular.of_ofJson {doc : Json} (hdoc : doc.Ordered) (h : ofJson doc = .ok bs) : Regular bs := by
  obtain ⟨values, hvalues, h⟩ := ofJson_ok_iff_records.mp h
  obtain ⟨records, roots, rfl, hforest, -⟩ := exists_forest (hdoc.records? hvalues) h
  have hsettled : ∀ b ∈ bs.flatMap reached, b.Ordered ∧ b.Solid := by
    intro b hb
    obtain ⟨q, hq⟩ := hforest.exists_place hb
    obtain ⟨o, -, hbuilt⟩ := hforest.shows_of_find? hq
    cases hbuilt with
    | intro hmatches _ => exact ⟨hmatches.ordered_block, hmatches.solid⟩
  exact ⟨hforest.nodup, fun b hb => (hsettled b hb).1, fun b hb => (hsettled b hb).2⟩

/-! ## Blocks from XML trees -/

theorem Regular.of_ofXml {root : Xml} (hroot : root.Ordered) (h : ofXml root = .ok bs) : Regular bs := by
  cases hname : root.isNamed "xml" || root.isNamed "block_set" with
  | false => simp [ofXml, hname] at h
  | true =>
    obtain ⟨named, hnamed, hbs⟩ := identified_of_ofXml hname (fun _ : True => hroot) h
    have hsettled := hbs.settled trivial
    exact ⟨hnamed.nodup_ids hbs.labels, fun b hb => (hsettled b hb).1, fun b hb => (hsettled b hb).2⟩

end Block

/-! ## Blocks from texts -/

theorem Document.regular_of_read {format : Format} {text : String} {bs : List Block}
    (h : read format text = .ok bs) : Block.Regular bs := by
  cases format with
  | json =>
    simp only [read] at h
    split at h
    · next doc hdoc => exact .of_ofJson (Json.ordered_of_parse? hdoc) h
    · cases h
  | xml =>
    simp only [read] at h
    split at h
    · next root hroot => exact .of_ofXml (Xml.ordered_of_parse? hroot) h
    · cases h

end Blockwork
