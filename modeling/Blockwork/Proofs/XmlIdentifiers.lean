import Mathlib
import Blockwork.Proofs.XmlNaming

/-! # Identifiers in XML documents

Which identifiers the blocks of a document get, and when a document is refused because an identifier is repeated.
-/

namespace Blockwork

set_option autoImplicit false

namespace Block

section Documents

variable {root : Xml}

theorem duplicate_of_ofXml {id : String} (hroot : (root.isNamed "xml" || root.isNamed "block_set") = true)
    (h : ofXml root = .error (.malformed id .duplicateId)) :
    List.Duplicate id (ownXmlIds (routeOfWorkspace root.children).elements) := by
  have hrun := (ofXml_error_iff hroot).mp h
  have htracks := tracks_readWorkspace root.children False.elim
  rcases yields_or_fails ((routeOfWorkspace root.children).elements.mapM nameXml) (.start root) with
    ⟨named, p', hnamed⟩ | ⟨e, hfails⟩
  · cases hwhole : (routeOfWorkspace root.children).whole with
    | true =>
      obtain ⟨bs, hrun', -⟩ := htracks.whole hwhole hnamed
      exact (hrun'.not_fails hrun).elim
    | false =>
      obtain ⟨id', reason, hfails, hreason⟩ := htracks.stopped hwhole hnamed
      cases hrun.symm.trans hfails
      exact (hreason rfl).elim
  · obtain ⟨id', rfl, hid⟩ := (naming_start root).of_fails_mapM (registered_elements root) hfails
    cases hrun.symm.trans (htracks.repeated hfails)
    exact hid

theorem ofXml_of_duplicate {id : String} (hroot : (root.isNamed "xml" || root.isNamed "block_set") = true)
    (h : List.Duplicate id (ownXmlIds (routeOfWorkspace root.children).elements)) :
    ∃ id, ofXml root = .error (.malformed id .duplicateId) := by
  rcases yields_or_fails ((routeOfWorkspace root.children).elements.mapM nameXml) (.start root) with
    ⟨named, p', hnamed⟩ | ⟨e, hfails⟩
  · exact (h.not_nodup (identified_of_yields hnamed).nodup_own).elim
  · obtain ⟨id', rfl, -⟩ := (naming_start root).of_fails_mapM (registered_elements root) hfails
    exact ⟨id', (ofXml_error_iff hroot).mpr ((tracks_readWorkspace root.children False.elim).repeated hfails)⟩

end Documents

/-- Reading a document gives all blocks different identifiers. The elements that are read keep their own, and the ones
made for the others are not written anywhere in the document, not even where nothing is read. Reading fails for a
repeated identifier exactly if two of the elements that are read write the same one. -/
theorem ofXml_identifiers {root : Xml} (hroot : (root.isNamed "xml" || root.isNamed "block_set") = true) :
    (∀ bs, ofXml root = .ok bs → (bs.flatMap ids).Nodup ∧
      ∃ named, Identified root named ∧ (labels bs).Subperm (labelsOfXml named)) ∧
    (∀ id, ofXml root = .error (.malformed id .duplicateId) →
      List.Duplicate id (ownXmlIds (routeOfWorkspace root.children).elements)) ∧
    ((∃ id, List.Duplicate id (ownXmlIds (routeOfWorkspace root.children).elements)) →
      ∃ id, ofXml root = .error (.malformed id .duplicateId)) := by
  refine ⟨fun bs h => ?_, fun id h => duplicate_of_ofXml hroot h, fun ⟨id, h⟩ => ofXml_of_duplicate hroot h⟩
  obtain ⟨named, hnamed, hbs⟩ := identified_of_ofXml hroot False.elim h
  exact ⟨hnamed.nodup_ids hbs.labels, named, hnamed, hbs.labels⟩

/-- A block without an identifier, in whose slot a shadow that is never read has the first generated one. -/
def unreadShadow : Xml :=
  .element "xml" []
    [.element "block" [("type", "text_print")]
      [.element "value" [("name", "TEXT")]
        [.element "shadow" [("id", "gen-1"), ("type", "text")] [],
          .element "block" [("id", "gen-2"), ("type", "text")] []]]]

def unreadShadowBlocks : List Block :=
  [{ tag := "text_print", attrs := { id := "gen-3" }, values := [("TEXT", { tag := "text", attrs := { id := "gen-2" } })] }]

theorem ofXml_identifiers_shadowed :
    (unreadShadow.isNamed "xml" || unreadShadow.isNamed "block_set") = true ∧ ofXml unreadShadow = .ok unreadShadowBlocks ∧
      ∃ named, Identified unreadShadow named ∧ (labels unreadShadowBlocks).Subperm (labelsOfXml named) := by
  have hroot : (unreadShadow.isNamed "xml" || unreadShadow.isNamed "block_set") = true := by decide
  have hread : ofXml unreadShadow = .ok unreadShadowBlocks := by cbv
  exact ⟨hroot, hread, ((ofXml_identifiers hroot).1 unreadShadowBlocks hread).2⟩

end Block

end Blockwork
