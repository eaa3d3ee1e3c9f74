import Blockwork.Proofs.JsonBlocks
import Blockwork.Proofs.Regular

/-! # Written blocks are read as they were

* `Block.ofJson_documentToJson` is about values: blocks with different identifiers, and with them all blocks
  that were read from a document, are read again as they were.
* `Block.ofXml_documentToXml_iff` is about trees: it says which blocks are read as they were.
-/

namespace Blockwork.Block

set_option autoImplicit false

theorem Regular.rereadsJson {bs : List Block} (h : Regular bs) : ofJson (documentToJson bs) = .ok bs :=
  ofJson_of_distinct h.distinct h.solid

theorem Regular.rereadsXml {bs : List Block} (h : Regular bs) : ofXml (documentToXml bs) = .ok bs :=
  ofXml_of_distinct h.distinct h.ordered h.solid

theorem ofJson_documentToJson :
    (∀ bs : List Block, (bs.flatMap ids).Nodup → (∀ b ∈ bs.flatMap reached, b.Solid) →
      ofJson (documentToJson bs) = .ok bs) ∧
    (∀ (doc : Json) (bs : List Block), doc.Ordered → ofJson doc = .ok bs → ofJson (documentToJson bs) = .ok bs) ∧
    (∀ (text : String) (bs : List Block), Document.read .xml text = .ok bs →
      ofJson (documentToJson bs) = .ok bs) := by
  refine ⟨fun bs hids hsolid => ofJson_of_distinct hids hsolid, fun doc bs hdoc h => ?_, fun text bs h => ?_⟩
  · exact (Regular.of_ofJson hdoc h).rereadsJson
  · exact (Document.regular_of_read h).rereadsJson

/-- Two trees of blocks with all that a block can have. -/
def workspace : List Block :=
  [{ tag := "controls_if"
     attrs :=
       { id := "if \"1\" <&>", position := some { x := Int64.minValue, y := 40 }, disabled := true, inline := some false,
         mutation := some [("else", "1"), ("elseif", "0")],
         comment := some { text := "", pinned := true, width := some 4294967295 } }
     values := [("IF0", { tag := "logic_boolean", attrs := { id := "yes", movable := some true }, fields := [("BOOL", "")] })]
     statements :=
       [("DO0", { tag := "text_print", attrs := { id := "print", collapsed := true, comment := some { text := "why?" } } }),
         ("ELSE", { tag := "stop", attrs := { id := "gen-1", deletable := some false } })]
     next := some { tag := "a \n tag", attrs := { id := "" }, values := [("", { tag := "", attrs := { id := "inner" } })] } },
   { tag := "text", attrs := { id := "root" }, fields := [("A", " x "), ("TEXT", "é\n")] }]

/-- A chain in which a record without identifiers refers to another one. -/
def unlabelled : Json :=
  .array [
    .object [("comment", .object [("text", .text "c"), ("width", .number (.int 3))]),
      ("fields", .object [("NUM", .number (.int 7)), ("TXT", .null)]), ("next", .text "b"), ("type", .text "t"),
      ("value-slots", .object [("A", .object [("type", .text "u")])]), ("x", .number (.int (-1))), ("y", .number (.int 2))],
    .object [("id", .text "b"), ("type", .text "t")]]

/-- A chain of a block and a shadow, neither of them with an identifier. -/
def shadowed : String :=
  "<xml><instance x='4' y='-2.5'><block type='t'><next><shadow type='u'/></next></block></instance></xml>"

theorem ofJson_documentToJson_examples :
    ofJson (documentToJson workspace) = .ok workspace ∧
    (∃ bs, ofJson unlabelled = .ok bs ∧ bs.map ids = [["gen-1", "gen-2", "b"]] ∧ ofJson (documentToJson bs) = .ok bs) ∧
    (∃ bs, Document.read .xml shadowed = .ok bs ∧ bs.map ids = [["gen-1", "gen-2"]] ∧
      ofJson (documentToJson bs) = .ok bs) := by
  refine ⟨?_, ?_, ?_⟩
  · exact ofJson_documentToJson.1 workspace (by decide +kernel) (by decide +kernel)
  · have hids : (ofJson unlabelled).toOption.map (·.map ids) = some [["gen-1", "gen-2", "b"]] := by decide +kernel
    cases h : ofJson unlabelled with
    | error e =>
      rw [h] at hids
      cases hids
    | ok bs =>
      rw [h] at hids
      exact ⟨bs, rfl, Option.some.inj hids, ofJson_documentToJson.2.1 unlabelled bs (by decide) h⟩
  · have hids : (Document.read .xml shadowed).toOption.map (·.map ids) = some [["gen-1", "gen-2"]] := by
      decide +kernel
    cases h : Document.read .xml shadowed with
    | error e =>
      rw [h] at hids
      cases hids
    | ok bs =>
      rw [h] at hids
      exact ⟨bs, rfl, Option.some.inj hids, ofJson_documentToJson.2.2 shadowed bs h⟩

theorem ofXml_documentToXml_iff {bs : List Block} (hordered : ∀ b ∈ bs.flatMap reached, b.Ordered) :
    ofXml (documentToXml bs) = .ok bs ↔ (bs.flatMap ids).Nodup ∧ ∀ b ∈ bs.flatMap reached, b.Solid := by
  constructor
  · intro h
    have hregular := Regular.of_ofXml (ordered_documentToXml hordered) h
    exact ⟨hregular.distinct, hregular.solid⟩
  · rintro ⟨hids, hsolid⟩
    exact ofXml_of_distinct hids hordered hsolid

theorem ofXml_documentToXml_workspace :
    ofXml (documentToXml workspace) = .ok workspace ∧
      ofXml (documentToXml (workspace ++ workspace)) ≠ .ok (workspace ++ workspace) :=
  ⟨(ofXml_documentToXml_iff (by decide +kernel)).mpr ⟨by decide +kernel, by decide +kernel⟩,
    fun h => absurd ((ofXml_documentToXml_iff (by decide +kernel)).mp h).1 (by decide +kernel)⟩

end Blockwork.Block
