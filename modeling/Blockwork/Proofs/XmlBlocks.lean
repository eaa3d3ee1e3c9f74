import Blockwork.Block.OfXml
import Blockwork.Block.ToXml
import Blockwork.Proofs.AttributeOrder
import Blockwork.Proofs.Places
import Blockwork.Proofs.Runs
import Blockwork.Proofs.Texts

/-! # Blocks as XML trees

A block is written as an element with an attribute or a child for everything that it has. The parts of a
block stand in the order in which they are built, each inside an element for the way to it.
-/

namespace Blockwork

set_option autoImplicit false

def Step.element : Step → Xml → Xml
  | .value slot, x => .element "value" [("name", slot)] [x]
  | .statement slot, x => .element "statement" [("name", slot)] [x]
  | .next, x => .element "next" [] [x]

namespace Block

attribute [local simp] readBlock readFirst readParts

def put (b : Block) : Step → Block → Block
  | .value slot, c => b.withValue slot c
  | .statement slot, c => b.withStatement slot c
  | .next, c => { b with next := some c }

/-! ## Writing -/

theorem slotsToXml_eq (kind : String) (slots : List (String × Block)) :
    slotsToXml kind slots = slots.map fun slot => .element kind [("name", slot.1)] [slot.2.toXml] := by
  induction slots with
  | nil => rw [slotsToXml, List.map_nil]
  | cons slot rest ih => rw [slotsToXml, ih, List.map_cons]

theorem nextToXml_eq (next : Option Block) :
    nextToXml next = next.toList.map fun c => .element "next" [] [c.toXml] := by
  cases next with
  | none => rw [nextToXml, Option.toList_none, List.map_nil]
  | some c => rw [nextToXml, Option.toList_some, List.map_singleton]

theorem toXml_eq (b : Block) :
    b.toXml = .element "block" (attributesToXml b.tag b.attrs)
      (mutationToXml b.attrs.mutation ++ (commentToXml b.attrs.comment ++ (fieldsToXml b.fields ++
        b.entries.map fun entry => entry.1.element entry.2.toXml))) := by
  cases b
  rw [toXml, slotsToXml_eq, slotsToXml_eq, nextToXml_eq]
  simp [entries, Step.label, Step.element, Function.comp_def]

/-! ## The head of a block -/

def attributeOf (tag : String) (a : Attributes) : String → Option String
  | "collapsed" => if a.collapsed then some "true" else none
  | "deletable" => a.deletable.map Json.boolText
  | "disabled" => if a.disabled then some "true" else none
  | "id" => some a.id
  | "inline" => a.inline.map Json.boolText
  | "movable" => a.movable.map Json.boolText
  | "type" => some tag
  | "x" => a.position.map fun p => Text.intText p.x.toInt
  | "y" => a.position.map fun p => Text.intText p.y.toInt
  | _ => none

def attributeNames : List String :=
  ["collapsed", "deletable", "disabled", "id", "inline", "movable", "type", "x", "y"]

theorem attr?_eq (name : String) (content : Option String) :
    attr? name content = (content.map fun value => (name, value)).toList := by
  cases content <;> rfl

theorem attributesToXml_eq (tag : String) (a : Attributes) :
    attributesToXml tag a = Dict.collect attributeNames (attributeOf tag a) := by
  simp [attributesToXml, Dict.collect, attributeNames, attributeOf, attr?_eq]

theorem sorted_attributesToXml (tag : String) (a : Attributes) : Dict.Sorted (attributesToXml tag a) := by
  rw [attributesToXml_eq]
  exact Dict.sorted_collect _ (by decide)

theorem get?_attributesToXml (tag : String) (a : Attributes) (name : String) :
    Dict.get? name (attributesToXml tag a) = attributeOf tag a name := by
  rw [attributesToXml_eq, Dict.get?_collect]
  split
  · rfl
  · next hname =>
    unfold attributeOf
    split
    all_goals first
      | rfl
      | exact absurd (by decide) hname

variable {b : Block} {bs : List Block} {p : XmlProgress}

theorem sorted_getD_mutation (h : b.Ordered) {mutation : Mutation} (hb : b.attrs.mutation = some mutation) :
    Dict.Sorted mutation := by
  have hsorted := h.mutation
  rwa [hb] at hsorted

theorem ordered_toXml (h : ∀ c ∈ b.reached, c.Ordered) : b.toXml.Ordered := by
  induction b using part_induct with
  | h b ih =>
    have htext : ∀ text, ∀ x ∈ textChild text, x.Ordered := by
      intro text x hx
      unfold textChild at hx
      split at hx
      · cases hx
      · rw [List.mem_singleton.mp hx]
        exact .text text
    rw [toXml_eq]
    refine .element (sorted_attributesToXml _ _) fun x hx => ?_
    simp only [List.mem_append] at hx
    rcases hx with hx | hx | hx | hx
    · cases hmutation : b.attrs.mutation with
      | none =>
        rw [hmutation] at hx
        cases hx
      | some mutation =>
        rw [hmutation] at hx
        cases mutation with
        | nil => cases hx
        | cons pair pairs =>
          rw [List.mem_singleton.mp hx]
          exact .element (sorted_getD_mutation (h b (mem_reached_self b)) hmutation) nofun
    · cases hcomment : b.attrs.comment with
      | none =>
        rw [hcomment] at hx
        cases hx
      | some c =>
        rw [hcomment] at hx
        rw [List.mem_singleton.mp hx]
        refine .element ?_ (htext c.text)
        have hsorted := @Dict.sorted_collect String ["h", "pinned", "w"] (fun
          | "h" => c.height.map fun n => Text.natText n.toNat
          | "pinned" => some (Json.boolText c.pinned)
          | _ => c.width.map fun n => Text.natText n.toNat) (by decide)
        simpa [Dict.collect, attr?_eq] using hsorted
    · obtain ⟨field, -, rfl⟩ := List.mem_map.mp hx
      exact .element (List.pairwise_singleton _ _) (htext field.2)
    · obtain ⟨entry, hentry, rfl⟩ := List.mem_map.mp hx
      have hpart := ih entry hentry fun c hc => h c (reached_entry hentry hc)
      have hchildren : ∀ y ∈ [entry.2.toXml], y.Ordered := List.forall_mem_singleton.mpr hpart
      cases entry.1 with
      | value slot => exact .element (List.pairwise_singleton _ _) hchildren
      | statement slot => exact .element (List.pairwise_singleton _ _) hchildren
      | next => exact .element List.Pairwise.nil hchildren

theorem ordered_documentToXml (h : ∀ b ∈ bs.flatMap reached, b.Ordered) : (documentToXml bs).Ordered := by
  refine .element List.Pairwise.nil fun x hx => ?_
  obtain ⟨b, hb, rfl⟩ := List.mem_map.mp hx
  exact ordered_toXml fun c hc => h c (List.mem_flatMap.mpr ⟨b, hb, hc⟩)

theorem coordinateText?_intText (x : Int64) : coordinateText? (Text.intText x.toInt) = some x := by
  rw [coordinateText?]
  simp only [Text.trim_intText, Text.readInt64?_intText]

theorem bind_sizeText? (size : Option UInt32) : (size.map fun n => Text.natText n.toNat).bind sizeText? = size := by
  cases size with
  | none => rfl
  | some n => rw [Option.map_some, Option.bind_some, sizeText?, Text.trim_natText, Text.readUInt32?_natText]

theorem sameLetters_boolText (flag : Bool) : Text.sameLetters (Text.trim (Json.boolText flag)) "true" = flag := by
  cases flag <;> rfl

theorem attributesOfXml_toXml (tag : String) (a : Attributes) (name : String) (children : List Xml) :
    attributesOfXml (.element name (attributesToXml tag a) children) a.id =
      { a with mutation := none, comment := none } := by
  have hposition : xmlPosition? (.element name (attributesToXml tag a) children) = a.position := by
    simp only [xmlPosition?, Xml.attr?, Xml.attributes, get?_attributesToXml, attributeOf]
    cases a.position with
    | none => rfl
    | some p => simp [coordinateText?_intText]
  have hflag : ∀ flag : Option Bool,
      (flag.map Json.boolText).map (fun value => Text.sameLetters (Text.trim value) "true") = flag := by
    rintro (_ | flag)
    · rfl
    · rw [Option.map_some, Option.map_some, sameLetters_boolText]
  have hmark : ∀ mark : Bool, ((if mark then some "true" else none).map
      fun value => Text.sameLetters (Text.trim value) "true").getD false = mark := by
    rintro (_ | _) <;> rfl
  rw [attributesOfXml, hposition]
  simp only [flag?, Xml.attr?, Xml.attributes, get?_attributesToXml, attributeOf, hflag, hmark]

theorem content_textChild (name : String) (attributes : Dict String) (text : String) :
    (Xml.element name attributes (textChild text)).content = text := by
  unfold textChild
  by_cases h : text.isEmpty
  · rw [if_pos h, String.isEmpty_iff.mp h]
    rfl
  · rw [if_neg h]
    simp [Xml.content, Xml.children, Xml.chars, String.join]

theorem commentOfXml_toXml (c : Comment) (kind : String) :
    commentOfXml (.element kind
      (attr? "h" (c.height.map fun n => Text.natText n.toNat) ++ [("pinned", Json.boolText c.pinned)]
        ++ attr? "w" (c.width.map fun n => Text.natText n.toNat)) (textChild c.text)) = c := by
  have hattr : ∀ (name name' : String) (content : Option String),
      Dict.get? name' (attr? name content) = if name = name' then content else none := by
    rintro name name' (_ | value) <;> simp [attr?, Dict.get?]
  rw [commentOfXml, content_textChild]
  simp [flag?, Xml.attr?, Xml.attributes, Dict.get?_append, hattr, Dict.get?, bind_sizeText?, sameLetters_boolText]

/-! ## Children that are no blocks -/

section Head

variable (b : Block) (rest : List Xml)

theorem readParts_mutationToXml (hb : b.attrs.mutation = none) {mutation : Option Mutation} (h : mutation ≠ some []) :
    readParts b (mutationToXml mutation ++ rest) =
      readParts { b with attrs := { b.attrs with mutation } } rest := by
  match mutation, h with
  | none, _ =>
    have hsame : ({ b with attrs := { b.attrs with mutation := none } } : Block) = b := by
      rw [← hb]
      cases b
      rfl
    rw [hsame]
    rfl
  | some (pair :: pairs), _ =>
    rw [mutationToXml, List.singleton_append, readParts]
    simp [withXmlMutation]

theorem readParts_commentToXml (hb : b.attrs.comment = none) (comment : Option Comment) :
    readParts b (commentToXml comment ++ rest) = readParts { b with attrs := { b.attrs with comment } } rest := by
  cases comment with
  | none =>
    have hsame : ({ b with attrs := { b.attrs with comment := none } } : Block) = b := by
      rw [← hb]
      cases b
      rfl
    rw [hsame]
    rfl
  | some c =>
    rw [commentToXml, List.singleton_append, readParts]
    simp only [commentOfXml_toXml, pure_bind]

theorem readParts_fieldsToXml {fields : Dict String} (h : Dict.Sorted (b.fields ++ fields)) :
    readParts b (fieldsToXml fields ++ rest) = readParts { b with fields := b.fields ++ fields } rest := by
  rw [← Dict.foldl_insert_of_sorted h]
  clear h
  induction fields generalizing b with
  | nil =>
    cases b
    rfl
  | cons field fields ih =>
    obtain ⟨name, value⟩ := field
    rw [fieldsToXml, List.map_cons, List.cons_append, readParts]
    · simp only [content_textChild, pure_bind]
      exact ih (b.withField name value)
    · rfl

end Head

/-! ## Parts -/

def XmlProgress.mark (p : XmlProgress) (ids : List String) : XmlProgress :=
  { p with seen := ids.reverse ++ p.seen }

theorem XmlProgress.mark_append (p : XmlProgress) (ids ids' : List String) :
    p.mark (ids ++ ids') = (p.mark ids).mark ids' := by
  simp [mark]

theorem seeXml_yields_iff {id : String} {p' : XmlProgress} :
    Yields (seeXml id) p () p' ↔ id ∉ p.seen ∧ p' = p.mark [id] := by
  unfold seeXml
  rw [yields_get_bind_iff, yields_guard_iff, List.contains_iff_mem]
  exact and_congr_right' yields_set_iff

section Parts

variable {p p' p₁ : XmlProgress} {b c child : Block} {x : Xml} {rest : List Xml}

theorem yields_readFirst_of_named {kind : String} (hx : x.isNamed kind = true) (h : Yields (readBlock x) p child p₁) :
    Yields (readFirst kind [x]) p (some child) p₁ := by
  rw [readFirst, if_pos hx]
  exact yields_bind_iff.mpr ⟨child, p₁, h, yields_pure_iff.mpr ⟨rfl, rfl⟩⟩

theorem yields_readParts_part (s : Step) (hx : x.isNamed "block" = true) (h : Yields (readBlock x) p child p₁)
    (hrest : Yields (readParts (b.put s child) rest) p₁ c p') :
    Yields (readParts b (s.element x :: rest)) p c p' := by
  have hkind : fillerKind [x] = "block" := by simp [fillerKind, hx]
  have hfirst := yields_readFirst_of_named hx h
  rw [← hkind] at hfirst
  cases s with
  | value slot =>
    rw [Step.element, readParts]
    · exact yields_bind_iff.mpr ⟨some child, p₁, hfirst, hrest⟩
    · rfl
  | statement slot =>
    rw [Step.element, readParts]
    · exact yields_bind_iff.mpr ⟨some child, p₁, hfirst, hrest⟩
    · rfl
  | next =>
    rw [Step.element, readParts]
    exact yields_bind_iff.mpr ⟨some child, p₁, hfirst, hrest⟩

theorem yields_readParts_entries {entries : List (Step × Block)}
    (hentries : ∀ entry ∈ entries, ∀ p : XmlProgress, Fits p.seen entry.2.ids →
      Yields (readBlock entry.2.toXml) p entry.2 (p.mark entry.2.ids))
    (hfits : Fits p.seen (entries.flatMap fun entry => entry.2.ids)) :
    Yields (readParts b (entries.map fun entry => entry.1.element entry.2.toXml)) p
      (entries.foldl (fun b entry => b.put entry.1 entry.2) b) (p.mark (entries.flatMap fun entry => entry.2.ids)) := by
  induction entries generalizing b p with
  | nil =>
    rw [List.map_nil, readParts]
    exact yields_pure_iff.mpr ⟨rfl, rfl⟩
  | cons entry entries ih =>
    obtain ⟨hfirst, hrest⟩ := List.forall_mem_cons.mp hentries
    rw [List.flatMap_cons] at hfits
    have hnamed : entry.2.toXml.isNamed "block" = true := by
      rw [toXml_eq]
      rfl
    rw [List.map_cons, List.foldl_cons, List.flatMap_cons, XmlProgress.mark_append]
    exact yields_readParts_part entry.1 hnamed (hfirst p hfits.left) (ih hrest hfits.right)

end Parts

theorem foldl_put_entries (h : b.Ordered) :
    b.entries.foldl (fun b entry => b.put entry.1 entry.2) ⟨b.tag, b.attrs, b.fields, [], [], none⟩ = b := by
  have hvalues : ∀ (slots : List (String × Block)) (c : Block),
      (slots.map fun slot => (Step.value slot.1, slot.2)).foldl (fun b entry => b.put entry.1 entry.2) c =
        { c with values := slots.foldl (fun d slot => Dict.insert slot.1 slot.2 d) c.values } := by
    intro slots
    induction slots with
    | nil =>
      intro c
      cases c
      rfl
    | cons slot slots ih => exact fun c => ih (c.withValue slot.1 slot.2)
  have hstatements : ∀ (slots : List (String × Block)) (c : Block),
      (slots.map fun slot => (Step.statement slot.1, slot.2)).foldl (fun b entry => b.put entry.1 entry.2) c =
        { c with statements := slots.foldl (fun d slot => Dict.insert slot.1 slot.2 d) c.statements } := by
    intro slots
    induction slots with
    | nil =>
      intro c
      cases c
      rfl
    | cons slot slots ih => exact fun c => ih (c.withStatement slot.1 slot.2)
  have hnext : ∀ c : Block, c.next = none →
      (b.next.toList.map fun d => (Step.next, d)).foldl (fun b entry => b.put entry.1 entry.2) c =
        { c with next := b.next } := by
    intro c hc
    cases b.next with
    | none =>
      cases c
      cases hc
      rfl
    | some d => rfl
  have hinsert : ∀ slots : List (String × Block), Dict.Sorted slots →
      slots.foldl (fun d slot => Dict.insert slot.1 slot.2 d) [] = slots :=
    fun _ hslots => Dict.foldl_insert_of_sorted (d := []) hslots
  rw [entries, Step.label, List.foldl_append, List.foldl_append, hvalues, hstatements, hnext _ rfl,
    hinsert _ h.values, hinsert _ h.statements]
  cases b
  rfl

theorem yields_readBlock_toXml (hordered : ∀ c ∈ b.reached, c.Ordered)
    (hsolid : ∀ c ∈ b.reached, c.Solid) (hfits : Fits p.seen b.ids) :
    Yields (readBlock b.toXml) p b (p.mark b.ids) := by
  induction b using part_induct generalizing p with
  | h b ih =>
    have hb : b.Ordered := hordered b (mem_reached_self b)
    have hnew : b.id ∉ p.seen := hfits.new b.id (id_mem_ids b)
    rw [ids_eq, ← List.singleton_append] at hfits
    have hparts := @yields_readParts_entries (p.mark [b.id]) ⟨b.tag, b.attrs, b.fields, [], [], none⟩ b.entries
      (fun entry hentry p hfits => ih entry hentry (fun c hc => hordered c (reached_entry hentry hc))
        (fun c hc => hsolid c (reached_entry hentry hc)) hfits) hfits.right
    rw [foldl_put_entries hb] at hparts
    rw [toXml_eq, readBlock, ids_eq, ← List.singleton_append, XmlProgress.mark_append]
    refine yields_bind_iff.mpr ⟨b.id, p, ?_, ?_⟩
    · rw [xmlId, Xml.attr?, Xml.attributes, get?_attributesToXml]
      exact yields_pure_iff.mpr ⟨rfl, rfl⟩
    refine yields_bind_iff.mpr ⟨(), p.mark [b.id], seeXml_yields_iff.mpr ⟨hnew, rfl⟩, ?_⟩
    simp only [Xml.attr?, Xml.attributes, get?_attributesToXml, attributeOf]
    rw [Block.id, attributesOfXml_toXml, readParts_mutationToXml _ _ rfl (hsolid b (mem_reached_self b)),
      readParts_commentToXml _ _ rfl, readParts_fieldsToXml _ _ (by exact hb.fields)]
    exact hparts

/-! ## Documents -/

theorem yields_readWorkspace_toXml
    (hordered : ∀ b ∈ bs.flatMap reached, b.Ordered) (hsolid : ∀ b ∈ bs.flatMap reached, b.Solid)
    (hfits : Fits p.seen (bs.flatMap ids)) : Yields (readWorkspace (bs.map toXml)) p bs (p.mark (bs.flatMap ids)) := by
  induction bs generalizing p with
  | nil =>
    rw [List.map_nil, readWorkspace]
    exact yields_pure_iff.mpr ⟨rfl, rfl⟩
  | cons b bs ih =>
    simp only [List.flatMap_cons, List.mem_append] at hordered hsolid
    rw [List.flatMap_cons] at hfits
    have hread : Yields (readBlock b.toXml) p b (p.mark b.ids) :=
      yields_readBlock_toXml (fun c hc => hordered c (.inl hc)) (fun c hc => hsolid c (.inl hc)) hfits.left
    have hnode : Yields (readNode b.toXml) p [b] (p.mark b.ids) := by
      rw [toXml_eq] at hread ⊢
      rw [readNode, if_pos (by rfl)]
      exact yields_bind_iff.mpr ⟨b, _, hread, yields_pure_iff.mpr ⟨rfl, rfl⟩⟩
    have hothers := @ih (p.mark b.ids) (fun c hc => hordered c (.inr hc)) (fun c hc => hsolid c (.inr hc)) hfits.right
    rw [List.map_cons, readWorkspace, List.flatMap_cons, XmlProgress.mark_append]
    refine yields_bind_iff.mpr ⟨[b], _, hnode, ?_⟩
    exact yields_bind_iff.mpr ⟨bs, _, hothers, yields_pure_iff.mpr ⟨rfl, rfl⟩⟩

theorem ofXml_of_distinct (hids : (bs.flatMap ids).Nodup)
    (hordered : ∀ b ∈ bs.flatMap reached, b.Ordered) (hsolid : ∀ b ∈ bs.flatMap reached, b.Solid) :
    ofXml (documentToXml bs) = .ok bs := by
  have hread := @yields_readWorkspace_toXml bs ⟨explicitXmlIds (documentToXml bs), [], 0⟩ hordered hsolid
    ⟨hids, fun _ _ => List.not_mem_nil⟩
  show (readWorkspace (bs.map toXml)).run' _ = .ok bs
  rw [StateT.run'_eq, hread]
  rfl

end Block

end Blockwork
