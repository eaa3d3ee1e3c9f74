import Blockwork.Proofs.Regular
import Blockwork.Proofs.XmlTexts

/-! # Blocks in XML texts

Fields and comments are written between tags, and a text between tags that is blank is not read. All other strings
stand in the values of attributes, where blanks are kept.
-/

namespace Blockwork

set_option autoImplicit false

open Dict (keys)

namespace Text

theorem allows_digit {n : Nat} {c : Char} (h : c ∈ digitsOf n) : Xml.Version.one.allows c = true := by
  obtain ⟨d, hd, rfl⟩ := exists_digit_of_mem h
  have hdigits : ∀ d < 10, Xml.Version.one.allows (digitChar d) = true := by decide
  exact hdigits d hd

theorem allows_natText (n : Nat) : (natText n).toList.all Xml.Version.one.allows = true := by
  rw [List.all_eq_true, natText, String.toList_ofList]
  exact fun c hc => allows_digit hc

theorem allows_intText (n : Int) : (intText n).toList.all Xml.Version.one.allows = true := by
  rw [List.all_eq_true, toList_intText]
  intro c hc
  split at hc
  · rcases List.mem_cons.mp hc with rfl | hc
    · decide
    · exact allows_digit hc
  · exact allows_digit hc

theorem allows_boolText (flag : Bool) : (Json.boolText flag).toList.all Xml.Version.one.allows = true := by
  cases flag <;> rfl

end Text

namespace Block

variable {b : Block} {bs : List Block}

def texts (b : Block) : List String :=
  b.fields.map Prod.snd ++ (b.attrs.comment.map Comment.text).toList

def strings (b : Block) : List String :=
  b.tag :: b.id :: (b.texts ++ keys b.fields ++ keys b.values ++ keys b.statements
    ++ (b.attrs.mutation.getD []).map Prod.snd)

/-- The block can be written: its strings have characters that may be written, and the names of its mutation are
names without a scope that declare none. -/
structure Legible (b : Block) : Prop where
  strings : ∀ s ∈ b.strings, s.toList.all Xml.Version.one.allows = true
  mutation : ∀ name ∈ keys (b.attrs.mutation.getD []), Xml.isBare name.toList = true ∧ name ≠ "xmlns"

instance (b : Block) : Decidable b.Legible :=
  decidable_of_iff
    ((∀ s ∈ b.strings, s.toList.all Xml.Version.one.allows = true) ∧
      ∀ name ∈ keys (b.attrs.mutation.getD []), Xml.isBare name.toList = true ∧ name ≠ "xmlns")
    ⟨fun h => ⟨h.1, h.2⟩, fun h => ⟨h.strings, h.mutation⟩⟩

/-! ## Legible trees -/

def writtenNames : List String :=
  ["xml", "block", "mutation", "comment", "field", "value", "statement", "next", "name", "pinned", "h", "w"]

theorem isBare_writtenNames : ∀ name ∈ writtenNames ++ attributeNames,
    Xml.isBare name.toList = true ∧ name ≠ "xmlns" := by
  decide +kernel

theorem isBare_written {name : String} (h : name ∈ writtenNames := by decide) : Xml.isBare name.toList = true :=
  (isBare_writtenNames name (List.mem_append_left _ h)).1

theorem legible_pair {name value : String} (hname : Xml.isBare name.toList = true ∧ name ≠ "xmlns")
    (h : value.toList.all Xml.Version.one.allows = true) : Xml.LegibleAttributes [(name, value)] :=
  List.forall_mem_singleton.mpr ⟨hname.1, hname.2, h⟩

theorem legible_attr? {name : String} {content : Option String} (hname : Xml.isBare name.toList = true ∧ name ≠ "xmlns")
    (h : ∀ value, content = some value → value.toList.all Xml.Version.one.allows = true) :
    Xml.LegibleAttributes (attr? name content) := by
  cases content with
  | none => exact nofun
  | some value => exact legible_pair hname (h value rfl)

theorem legible_attributesToXml (h : b.Legible) : Xml.LegibleAttributes (attributesToXml b.tag b.attrs) := by
  have hnames : ∀ name ∈ attributeNames, Xml.isBare name.toList = true ∧ name ≠ "xmlns" := fun name hname =>
    isBare_writtenNames name (List.mem_append_right _ hname)
  have hmark : ∀ name ∈ attributeNames, ∀ mark : Bool,
      Xml.LegibleAttributes (attr? name (if mark then some "true" else none)) := by
    intro name hname mark
    refine legible_attr? (hnames name hname) fun value hvalue => ?_
    rw [← Option.some.inj (Option.ite_none_right_eq_some.mp hvalue).2]
    exact Text.allows_boolText true
  have hflag : ∀ name ∈ attributeNames, ∀ flag : Option Bool,
      Xml.LegibleAttributes (attr? name (flag.map Json.boolText)) := by
    intro name hname flag
    refine legible_attr? (hnames name hname) fun value hvalue => ?_
    obtain ⟨x, -, rfl⟩ := Option.map_eq_some_iff.mp hvalue
    exact Text.allows_boolText x
  have hcoordinate : ∀ name ∈ attributeNames, ∀ f : Position → Int64,
      Xml.LegibleAttributes (attr? name (b.attrs.position.map fun p => Text.intText (f p).toInt)) := by
    intro name hname f
    refine legible_attr? (hnames name hname) fun value hvalue => ?_
    obtain ⟨p, -, rfl⟩ := Option.map_eq_some_iff.mp hvalue
    exact Text.allows_intText _
  have hid : Xml.LegibleAttributes [("id", b.attrs.id)] :=
    legible_pair (hnames "id" (by decide)) (h.strings b.id (by simp [strings]))
  have htag : Xml.LegibleAttributes [("type", b.tag)] :=
    legible_pair (hnames "type" (by decide)) (h.strings b.tag (by simp [strings]))
  unfold attributesToXml
  simp only [Xml.legibleAttributes_append]
  exact ⟨⟨⟨⟨⟨⟨⟨⟨hmark _ (by decide) _, hflag _ (by decide) _⟩, hmark _ (by decide) _⟩, hid⟩, hflag _ (by decide) _⟩,
    hflag _ (by decide) _⟩, htag⟩, hcoordinate _ (by decide) _⟩, hcoordinate _ (by decide) _⟩

theorem legible_textChild {name text : String} {attributes : List (String × String)}
    (hname : Xml.isBare name.toList = true) (hattributes : Xml.LegibleAttributes attributes)
    (h : text.toList.all Xml.Version.one.allows = true) :
    (Xml.element name attributes (textChild text)).Legible := by
  unfold textChild
  split
  · exact .branch hname hattributes nofun
  · exact .leaf hname hattributes h

theorem legible_mutationToXml (h : b.Legible) : ∀ x ∈ mutationToXml b.attrs.mutation, x.Legible := by
  obtain ⟨hstrings, hmutation⟩ := h
  intro x hx
  unfold mutationToXml at hx
  split at hx
  next pair pairs heq =>
    rw [List.mem_singleton.mp hx]
    rw [heq] at hmutation
    refine .branch isBare_written (fun p hp => ?_) nofun
    obtain ⟨hname, hxmlns⟩ := hmutation p.1 (List.mem_map_of_mem hp)
    refine ⟨hname, hxmlns, hstrings p.2 ?_⟩
    simp only [strings, heq, Option.getD_some, List.mem_cons, List.mem_append]
    exact .inr (.inr (.inr (List.mem_map_of_mem hp)))
  next => cases hx

theorem legible_commentToXml (h : b.Legible) : ∀ x ∈ commentToXml b.attrs.comment, x.Legible := by
  intro x hx
  cases hcomment : b.attrs.comment with
  | none =>
    rw [hcomment] at hx
    cases hx
  | some c =>
    rw [hcomment] at hx
    rw [List.mem_singleton.mp hx]
    refine legible_textChild isBare_written ?_ (h.strings c.text (by simp [strings, texts, hcomment]))
    have hsize : ∀ name ∈ ["h", "w"], ∀ size : Option UInt32,
        Xml.LegibleAttributes (attr? name (size.map fun n => Text.natText n.toNat)) := by
      intro name hname size
      have hwritten : name ∈ writtenNames := by
        rcases List.mem_pair.mp hname with rfl | rfl <;> decide
      refine legible_attr? (isBare_writtenNames name (List.mem_append_left _ hwritten)) fun value hvalue => ?_
      obtain ⟨n, -, rfl⟩ := Option.map_eq_some_iff.mp hvalue
      exact Text.allows_natText _
    have hpinned : Xml.LegibleAttributes [("pinned", Json.boolText c.pinned)] :=
      legible_pair (isBare_writtenNames _ (by decide)) (Text.allows_boolText _)
    simp only [Xml.legibleAttributes_append]
    exact ⟨⟨hsize _ (by decide) _, hpinned⟩, hsize _ (by decide) _⟩

theorem legible_named {name : String} (h : name.toList.all Xml.Version.one.allows = true) :
    Xml.LegibleAttributes [("name", name)] :=
  legible_pair (isBare_writtenNames _ (by decide)) h

theorem legible_fieldsToXml (h : b.Legible) : ∀ x ∈ fieldsToXml b.fields, x.Legible := by
  intro x hx
  obtain ⟨field, hfield, rfl⟩ := List.mem_map.mp hx
  have hkey : field.1 ∈ keys b.fields := List.mem_map_of_mem hfield
  have htext : field.2 ∈ b.fields.map Prod.snd := List.mem_map_of_mem hfield
  refine legible_textChild isBare_written (legible_named (h.strings field.1 ?_)) (h.strings field.2 ?_)
  · simp [strings, hkey]
  · simp only [strings, texts, List.mem_cons, List.mem_append, htext, true_or, or_true]

theorem legible_toXml (h : ∀ c ∈ b.reached, c.Legible) : b.toXml.Legible := by
  induction b using part_induct with
  | h b ih =>
    have hb : b.Legible := h b (mem_reached_self b)
    rw [toXml_eq]
    refine .branch isBare_written (legible_attributesToXml hb) fun x hx => ?_
    simp only [List.mem_append] at hx
    rcases hx with hx | hx | hx | hx
    · exact legible_mutationToXml hb x hx
    · exact legible_commentToXml hb x hx
    · exact legible_fieldsToXml hb x hx
    · obtain ⟨entry, hentry, rfl⟩ := List.mem_map.mp hx
      have hpart := ih entry hentry fun c hc => h c (reached_entry hentry hc)
      have hchildren : ∀ y ∈ [entry.2.toXml], y.Legible := List.forall_mem_singleton.mpr hpart
      obtain ⟨step, c⟩ := entry
      cases step with
      | value slot =>
        have hslot : slot ∈ keys b.values := List.mem_map_of_mem (Step.mem_label_value.mp hentry)
        exact .branch isBare_written (legible_named (hb.strings slot (by simp [strings, hslot]))) hchildren
      | statement slot =>
        have hslot : slot ∈ keys b.statements := List.mem_map_of_mem (Step.mem_label_statement.mp hentry)
        exact .branch isBare_written (legible_named (hb.strings slot (by simp [strings, hslot]))) hchildren
      | next => exact .branch isBare_written nofun hchildren

theorem legible_documentToXml (h : ∀ b ∈ bs.flatMap reached, b.Legible) : (documentToXml bs).Legible := by
  refine .branch isBare_written nofun fun x hx => ?_
  obtain ⟨b, hb, rfl⟩ := List.mem_map.mp hx
  exact legible_toXml fun c hc => h c (List.mem_flatMap.mpr ⟨b, hb, hc⟩)

/-! ## Blank texts -/

def emptyBlank (s : String) : String := if Xml.isBlankText s then "" else s

def emptiedAttributes (a : Attributes) : Attributes :=
  { a with comment := a.comment.map fun c => { c with text := emptyBlank c.text } }

mutual

/-- The block with empty texts in place of blank ones, and with it all blocks reached from it. -/
def emptied : Block → Block
  | { tag, attrs, fields, values, statements, next } =>
    { tag
      attrs := emptiedAttributes attrs
      fields := fields.map fun (name, text) => (name, emptyBlank text)
      values := emptiedSlots values
      statements := emptiedSlots statements
      next := emptiedNext next }

def emptiedSlots : List (String × Block) → List (String × Block)
  | [] => []
  | (name, b) :: rest => (name, emptied b) :: emptiedSlots rest

def emptiedNext : Option Block → Option Block
  | none => none
  | some b => some (emptied b)

end

theorem emptiedSlots_eq (slots : List (String × Block)) :
    emptiedSlots slots = slots.map fun slot => (slot.1, slot.2.emptied) := by
  induction slots with
  | nil => rw [emptiedSlots, List.map_nil]
  | cons slot rest ih => rw [emptiedSlots, ih, List.map_cons]

theorem emptied_eq (b : Block) :
    b.emptied =
      { tag := b.tag
        attrs := emptiedAttributes b.attrs
        fields := b.fields.map fun field => (field.1, emptyBlank field.2)
        values := b.values.map fun slot => (slot.1, slot.2.emptied)
        statements := b.statements.map fun slot => (slot.1, slot.2.emptied)
        next := b.next.map emptied } := by
  obtain ⟨tag, attrs, fields, values, statements, next⟩ := b
  have hnext : emptiedNext next = next.map emptied := by
    cases next with
    | none => rw [emptiedNext, Option.map_none]
    | some c => rw [emptiedNext, Option.map_some]
  rw [emptied, emptiedSlots_eq, emptiedSlots_eq, hnext]

theorem entries_emptied (b : Block) : b.emptied.entries = b.entries.map fun entry => (entry.1, entry.2.emptied) := by
  have hnext : (b.next.map emptied).toList = b.next.toList.map emptied := by cases b.next <;> rfl
  rw [emptied_eq]
  simp [entries, Step.label, hnext, Function.comp_def]

theorem reached_emptied (b : Block) : b.emptied.reached = b.reached.map emptied := by
  induction b using part_induct with
  | h b ih =>
    rw [reached_entries, reached_entries, entries_emptied, List.map_cons, List.flatMap_map, List.map_flatMap]
    exact congrArg (b.emptied :: ·) (List.flatMap_congr fun entry hentry => ih entry hentry)

theorem id_emptied (b : Block) : b.emptied.id = b.id := by
  rw [emptied_eq]
  rfl

theorem ids_emptied (b : Block) : b.emptied.ids = b.ids := by
  rw [ids, ids, reached_emptied, List.map_map]
  exact List.map_congr_left fun c _ => id_emptied c

theorem dropBlanksIn_textChild (s : String) : Xml.dropBlanksIn (textChild s) = textChild (emptyBlank s) := by
  unfold textChild emptyBlank
  split
  next hempty =>
    rw [String.isEmpty_iff.mp hempty, Xml.dropBlanksIn]
    rfl
  next hempty =>
    rw [Xml.dropBlanksIn_text]
    split
    · rfl
    · rfl

theorem dropBlanksIn_mutationToXml (m : Option Mutation) : Xml.dropBlanksIn (mutationToXml m) = mutationToXml m := by
  unfold mutationToXml
  split
  · rw [Xml.dropBlanksIn_element, Xml.dropBlanksIn]
  · rw [Xml.dropBlanksIn]

theorem dropBlanksIn_commentToXml (a : Attributes) :
    Xml.dropBlanksIn (commentToXml a.comment) = commentToXml (emptiedAttributes a).comment := by
  cases h : a.comment with
  | none => simp only [emptiedAttributes, h, commentToXml, Option.map_none, Xml.dropBlanksIn]
  | some c =>
    simp only [emptiedAttributes, h, commentToXml, Option.map_some, Xml.dropBlanksIn_element, dropBlanksIn_textChild]

theorem dropBlanksIn_fieldsToXml (fields : List (String × String)) :
    Xml.dropBlanksIn (fieldsToXml fields) = fieldsToXml (fields.map fun field => (field.1, emptyBlank field.2)) := by
  unfold fieldsToXml
  rw [List.map_map]
  refine Xml.dropBlanksIn_map fun field _ => ?_
  rw [Xml.dropBlanksIn_element, dropBlanksIn_textChild]
  rfl

theorem dropBlanksIn_toXml (b : Block) : Xml.dropBlanksIn [b.toXml] = [b.emptied.toXml] := by
  induction b using part_induct with
  | h b ih =>
    have hentries : Xml.dropBlanksIn (b.entries.map fun entry => entry.1.element entry.2.toXml)
        = b.entries.map fun entry => entry.1.element entry.2.emptied.toXml := by
      refine Xml.dropBlanksIn_map fun entry hentry => ?_
      have hpart := ih entry hentry
      cases entry.1 with
      | value slot => rw [Step.element, Xml.dropBlanksIn_element, hpart]; rfl
      | statement slot => rw [Step.element, Xml.dropBlanksIn_element, hpart]; rfl
      | next => rw [Step.element, Xml.dropBlanksIn_element, hpart]; rfl
    rw [toXml_eq, toXml_eq, Xml.dropBlanksIn_element]
    simp only [Xml.dropBlanksIn_append, dropBlanksIn_mutationToXml, dropBlanksIn_commentToXml, dropBlanksIn_fieldsToXml,
      hentries]
    rw [entries_emptied, List.map_map, emptied_eq]
    rfl

theorem dropBlanks_documentToXml (bs : List Block) :
    (documentToXml bs).dropBlanks = documentToXml (bs.map emptied) := by
  rw [documentToXml, documentToXml, Xml.dropBlanks, List.map_map]
  exact congrArg (Xml.element "xml" []) (Xml.dropBlanksIn_map fun b _ => dropBlanksIn_toXml b)

/-! ## What is kept -/

theorem Ordered.emptied (h : b.Ordered) : b.emptied.Ordered := by
  have hkeys : ∀ {α β : Type} (d : List (String × α)) (f : α → β),
      keys (d.map fun pair => (pair.1, f pair.2)) = keys d := by
    intro α β d f
    simp [keys, Function.comp_def]
  rw [emptied_eq]
  refine ⟨?_, ?_, ?_, h.mutation⟩
  · rw [Dict.Sorted, hkeys]
    exact h.fields
  · rw [Dict.Sorted, hkeys]
    exact h.values
  · rw [Dict.Sorted, hkeys]
    exact h.statements

theorem Solid.emptied (h : b.Solid) : b.emptied.Solid := by
  rw [emptied_eq]
  exact h

theorem flatMap_reached_emptied (bs : List Block) :
    (bs.map emptied).flatMap reached = (bs.flatMap reached).map emptied := by
  rw [List.flatMap_map, List.map_flatMap]
  exact List.flatMap_congr fun b _ => reached_emptied b

theorem Regular.map_emptied (h : Regular bs) : Regular (bs.map emptied) := by
  have hids : (bs.map Block.emptied).flatMap ids = bs.flatMap ids := by
    rw [List.flatMap_map]
    exact List.flatMap_congr fun b _ => ids_emptied b
  refine ⟨hids ▸ h.distinct, ?_, ?_⟩
  · rw [flatMap_reached_emptied]
    exact List.forall_mem_map.mpr fun b hb => (h.ordered b hb).emptied
  · rw [flatMap_reached_emptied]
    exact List.forall_mem_map.mpr fun b hb => (h.solid b hb).emptied

/-- No text of the block is blank, except for empty ones. -/
def Filled (b : Block) : Prop :=
  ∀ s ∈ b.texts, Xml.isBlankText s = true → s = ""

instance (b : Block) : Decidable b.Filled :=
  inferInstanceAs (Decidable (∀ s ∈ b.texts, _))

theorem emptyBlank_eq_self_iff {s : String} : emptyBlank s = s ↔ (Xml.isBlankText s = true → s = "") := by
  unfold emptyBlank
  split
  next h => exact ⟨fun hs _ => hs.symm, fun hs => (hs h).symm⟩
  next h => exact ⟨fun _ hs => absurd hs h, fun _ => rfl⟩

theorem texts_emptied (b : Block) : b.emptied.texts = b.texts.map emptyBlank := by
  have hcomment : ((emptiedAttributes b.attrs).comment.map Comment.text).toList
      = (b.attrs.comment.map Comment.text).toList.map emptyBlank := by
    cases h : b.attrs.comment <;> simp [emptiedAttributes, h]
  rw [emptied_eq, texts, texts, hcomment]
  simp [Function.comp_def]

theorem map_eq_self_iff {α : Type} {f : α → α} {l : List α} : l.map f = l ↔ ∀ a ∈ l, f a = a := by
  constructor
  · intro h a ha
    exact List.map_inj_left.mp (h.trans (List.map_id l).symm) a ha
  · intro h
    exact (List.map_congr_left h).trans (List.map_id l)

theorem emptied_eq_self (hfilled : b.Filled) (hparts : ∀ entry ∈ b.entries, entry.2.emptied = entry.2) :
    b.emptied = b := by
  have htexts : ∀ s ∈ b.texts, emptyBlank s = s := fun s hs => emptyBlank_eq_self_iff.mpr (hfilled s hs)
  have hattrs : emptiedAttributes b.attrs = b.attrs := by
    cases hcomment : b.attrs.comment with
    | none =>
      rw [emptiedAttributes, hcomment, Option.map_none, ← hcomment]
    | some c =>
      have htext : emptyBlank c.text = c.text := htexts c.text (by simp [texts, hcomment])
      rw [emptiedAttributes, hcomment, Option.map_some, htext, ← hcomment]
  have hfields : (b.fields.map fun field => (field.1, emptyBlank field.2)) = b.fields := by
    refine map_eq_self_iff.mpr fun field hfield => ?_
    rw [htexts field.2 (List.mem_append_left _ (List.mem_map_of_mem hfield))]
  have hvalues : (b.values.map fun slot => (slot.1, slot.2.emptied)) = b.values := by
    refine map_eq_self_iff.mpr fun slot hslot => ?_
    rw [hparts (.value slot.1, slot.2) (Step.mem_label_value.mpr hslot)]
  have hstatements : (b.statements.map fun slot => (slot.1, slot.2.emptied)) = b.statements := by
    refine map_eq_self_iff.mpr fun slot hslot => ?_
    rw [hparts (.statement slot.1, slot.2) (Step.mem_label_statement.mpr hslot)]
  have hnext : b.next.map emptied = b.next := by
    cases h : b.next with
    | none => rfl
    | some c => exact congrArg some (hparts (.next, c) (Step.mem_label_next.mpr h))
  rw [emptied_eq, hattrs, hfields, hvalues, hstatements, hnext]
  cases b
  rfl

theorem map_emptied_eq_self_iff : bs.map emptied = bs ↔ ∀ b ∈ bs.flatMap reached, b.Filled := by
  constructor
  · intro h b hb
    have hreached : (bs.flatMap reached).map emptied = bs.flatMap reached := by
      rw [← flatMap_reached_emptied, h]
    have htexts : b.texts.map emptyBlank = b.texts := by
      rw [← texts_emptied, map_eq_self_iff.mp hreached b hb]
    exact fun s hs => emptyBlank_eq_self_iff.mp (map_eq_self_iff.mp htexts s hs)
  · intro h
    refine map_eq_self_iff.mpr fun b hb => ?_
    have hfilled : ∀ c ∈ b.reached, c.Filled := fun c hc => h c (List.mem_flatMap.mpr ⟨b, hb, hc⟩)
    clear h hb
    induction b using part_induct with
    | h b ih =>
      refine emptied_eq_self (hfilled b (mem_reached_self b)) fun entry hentry => ?_
      exact ih entry hentry fun c hc => hfilled c (reached_entry hentry hc)

end Block

end Blockwork
