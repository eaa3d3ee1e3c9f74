import Blockwork.Proofs.BlankTexts
import Blockwork.Proofs.Keeping
import Blockwork.Proofs.WrittenBlocks

/-! # Written documents

What a program is rendered as can be written in either format. A block stands inside the one that it comes after,
so the longer a chain is, the deeper a written value is nested, and too deep a value is not read. In a tree, texts
that are blank are not read.
-/

namespace Blockwork

set_option autoImplicit false

/-! ## Depth -/

theorem Json.depth_le_membersDepth {members : List (String × Json)} {member : String × Json} (h : member ∈ members) :
    member.2.depth ≤ membersDepth members := by
  induction members with
  | nil => cases h
  | cons first rest ih =>
    rw [membersDepth]
    rcases List.mem_cons.mp h with rfl | h
    · exact Nat.le_max_left _ _
    · exact (ih h).trans (Nat.le_max_right _ _)

theorem Json.depth_le_itemsDepth {items : List Json} {v : Json} (h : v ∈ items) : v.depth ≤ itemsDepth items := by
  induction items with
  | nil => cases h
  | cons first rest ih =>
    rw [itemsDepth]
    rcases List.mem_cons.mp h with rfl | h
    · exact Nat.le_max_left _ _
    · exact (ih h).trans (Nat.le_max_right _ _)

namespace Block

theorem length_chain_le_depth (b : Block) : b.chain.length ≤ b.toJson.depth := by
  induction b using part_induct with
  | h b ih =>
    have hdepth : b.toJson.depth = Json.membersDepth b.toJson.members + 1 := by
      cases b
      rw [toJson, Json.depth]
      rfl
    rw [chain_eq, List.length_cons, hdepth]
    refine Nat.succ_le_succ ?_
    cases hnext : b.next with
    | none => exact Nat.zero_le _
    | some c =>
      have hmember : ("next", c.toJson) ∈ b.toJson.members := by
        refine Dict.mem_of_get? ?_
        rw [← Json.get?_eq, get?_toJson]
        exact congrArg (Option.map toJson) hnext
      rw [chainFrom_some]
      exact (ih (.next, c) (Step.mem_label_next.mpr hnext)).trans (Json.depth_le_membersDepth hmember)

theorem length_chain_le_depth_documentToJson {b : Block} {bs : List Block} (hb : b ∈ bs) :
    b.chain.length + 2 ≤ (documentToJson bs).depth := by
  have hitem : b.toJson.depth ≤ Json.itemsDepth (bs.map toJson) := Json.depth_le_itemsDepth (List.mem_map_of_mem hb)
  have hdepth : (documentToJson bs).depth = Json.itemsDepth (bs.map toJson) + 1 + 1 := by
    simp [documentToJson, Json.depth, Json.membersDepth]
  have hlength := length_chain_le_depth b
  omega

end Block

/-! ## Blocks -/

namespace Document

variable {bs : List Block}

theorem read_write_json (h : Block.Regular bs) :
    read .json (write .json bs) =
      if (Block.documentToJson bs).depth ≤ Json.maxDepth then .ok bs else .error (.document .json .illFormed) := by
  have hparse := Json.parse?_pretty (Block.printable_documentToJson h.ordered)
  by_cases hdepth : (Block.documentToJson bs).depth ≤ Json.maxDepth
  · rw [if_pos hdepth] at hparse ⊢
    simp only [read, write, hparse]
    exact h.rereadsJson
  · rw [if_neg hdepth] at hparse ⊢
    simp only [read, write, hparse]

theorem read_write_xml (h : Block.Regular bs) (hlegible : ∀ b ∈ bs.flatMap Block.reached, b.Legible) :
    read .xml (write .xml bs) = .ok (bs.map Block.emptied) := by
  have hparse : Xml.parse? (Block.documentToXml bs).render = some (Block.documentToXml (bs.map Block.emptied)) := by
    rw [← Block.dropBlanks_documentToXml]
    exact Xml.parse?_render (Block.legible_documentToXml hlegible) (Block.ordered_documentToXml h.ordered)
  simp only [read, write, hparse]
  exact h.map_emptied.rereadsXml

end Document

/-! ## Programs -/

namespace Program

variable {format : Format} {text : String} {blocks : List Block} {allowFloating : Bool} {p : Program}

theorem exists_rendered (hread : Document.read format text = .ok blocks) (h : ofBlocks blocks allowFloating = .ok p) :
    ∃ rendered, p.toBlocks? = .ok rendered ∧ Block.Regular rendered := by
  obtain ⟨roots, env, settled, haccepted⟩ := exists_accepted h
  have hfrom : List.Forall₂ Root.ComesFrom p.roots blocks := haccepted.resolved.imp fun _ _ => And.left
  exact ⟨p.toBlocks, toBlocks?_eq_ok hfrom, regular_toBlocks hfrom (Document.regular_of_read hread)⟩

theorem reread_json (hread : Document.read format text = .ok blocks) (h : ofBlocks blocks allowFloating = .ok p) :
    ∃ rendered, p.toBlocks? = .ok rendered ∧
      (∀ b ∈ rendered, b.chain.length + 2 ≤ (Block.documentToJson rendered).depth) ∧
      Document.read .json (Document.write .json rendered) =
        if (Block.documentToJson rendered).depth ≤ Json.maxDepth then .ok rendered
        else .error (.document .json .illFormed) := by
  obtain ⟨rendered, hrendered, hregular⟩ := exists_rendered hread h
  refine ⟨rendered, hrendered, fun b hb => ?_, Document.read_write_json hregular⟩
  exact Block.length_chain_le_depth_documentToJson hb

def leaving (n : Nat) (next : Option Block) : Block :=
  { tag := Tag.flow.name, attrs := { id := "b" ++ Text.natText n }, fields := [("FLOW", "BREAK")], next }

/-- A chain of such statements, with one more than `n` of them. -/
def leavingAll : Nat → Block
  | 0 => leaving 0 none
  | n + 1 => leaving (n + 1) (some (leavingAll n))

theorem reached_leavingAll_succ (n : Nat) :
    (leavingAll (n + 1)).reached = leavingAll (n + 1) :: (leavingAll n).reached := by
  rw [Block.reached_eq]
  simp [leavingAll, leaving, Block.reachedSlots, Block.reachedNext]

theorem exists_leaving (n : Nat) : ∀ b ∈ [leavingAll n].flatMap Block.reached, ∃ i next, b = leaving i next := by
  rw [List.flatMap_singleton]
  induction n with
  | zero => exact List.forall_mem_singleton.mpr ⟨0, none, rfl⟩
  | succ n ih =>
    rw [reached_leavingAll_succ]
    exact List.forall_mem_cons.mpr ⟨⟨n + 1, some (leavingAll n), rfl⟩, ih⟩

theorem ids_leavingAll (n : Nat) :
    (leavingAll n).ids = (List.range (n + 1)).reverse.map fun i => "b" ++ Text.natText i := by
  induction n with
  | zero => rfl
  | succ n ih =>
    rw [Block.ids, reached_leavingAll_succ, List.map_cons, List.range_succ, List.reverse_append, List.map_append, ← ih]
    rfl

theorem regular_leavingAll (n : Nat) : Block.Regular [leavingAll n] := by
  refine ⟨?_, fun b hb => ?_, fun b hb => ?_⟩
  · rw [List.flatMap_singleton, ids_leavingAll]
    exact (List.nodup_reverse.mpr List.nodup_range).map (Block.append_natText_injective "b")
  · obtain ⟨i, next, rfl⟩ := exists_leaving n b hb
    exact ⟨List.pairwise_singleton _ _, .nil, .nil, .nil⟩
  · obtain ⟨i, next, rfl⟩ := exists_leaving n b hb
    exact nofun

theorem read_write_leavingAll (n : Nat) :
    Document.read .xml (Document.write .xml [leavingAll n]) = .ok [leavingAll n] := by
  have hlegible : ∀ b ∈ [leavingAll n].flatMap Block.reached, b.Legible := by
    intro b hb
    obtain ⟨i, next, rfl⟩ := exists_leaving n b hb
    have hid : ("b" ++ Text.natText i).toList.all Xml.Version.one.allows = true := by
      rw [String.toList_append, List.all_append, Text.allows_natText]
      decide
    refine ⟨fun s hs => ?_, nofun⟩
    simp only [Block.strings, Block.texts, leaving, Block.id, Dict.keys, List.map_cons, List.map_nil, Option.map_none,
      Option.toList_none, Option.getD_none, List.append_nil, List.cons_append, List.nil_append, List.mem_cons,
      List.not_mem_nil, or_false] at hs
    rcases hs with rfl | rfl | rfl | rfl
    · decide +kernel
    · exact hid
    · decide
    · decide
  have hfilled : ∀ b ∈ [leavingAll n].flatMap Block.reached, b.Filled := by
    intro b hb
    obtain ⟨i, next, rfl⟩ := exists_leaving n b hb
    exact List.forall_mem_singleton.mpr fun hblank => absurd hblank (by decide)
  rw [Document.read_write_xml (regular_leavingAll n) hlegible, Block.map_emptied_eq_self_iff.mpr hfilled]

theorem exists_of_rendered {rendered : List Block}
    (h : ((ofBlocks blocks allowFloating).toOption.bind fun p => p.toBlocks?.toOption) = some rendered) :
    ∃ p, ofBlocks blocks allowFloating = .ok p ∧ p.toBlocks? = .ok rendered := by
  obtain ⟨p, hp, hrendered⟩ := Option.bind_eq_some_iff.mp h
  exact ⟨p, Except.toOption_eq_some_iff.mp hp, Except.toOption_eq_some_iff.mp hrendered⟩

/-- The longest such chain that is read back. -/
theorem leavingAll_reread_json :
    ∃ p, ofBlocks [leavingAll 123] false = .ok p ∧ p.toBlocks? = .ok [leavingAll 123] ∧
      Document.read .json (Document.write .json [leavingAll 123]) = .ok [leavingAll 123] := by
  obtain ⟨p, hp, hp'⟩ := @exists_of_rendered [leavingAll 123] false [leavingAll 123] (by decide +kernel)
  obtain ⟨rendered, hrendered, -, hreread⟩ := reread_json (read_write_leavingAll 123) hp
  cases hp'.symm.trans hrendered
  exact ⟨p, hp, hrendered, hreread.trans (if_pos (by decide +kernel))⟩

/-- One statement more, and the chain is not read back. -/
theorem leavingAll_too_deep :
    ∃ p, Document.read .xml (Document.write .xml [leavingAll 124]) = .ok [leavingAll 124] ∧
      ofBlocks [leavingAll 124] false = .ok p ∧ p.toBlocks? = .ok [leavingAll 124] ∧
      Document.read .json (Document.write .json [leavingAll 124]) = .error (.document .json .illFormed) := by
  obtain ⟨p, hp, hp'⟩ := @exists_of_rendered [leavingAll 124] false [leavingAll 124] (by decide +kernel)
  refine ⟨p, read_write_leavingAll 124, hp, hp', ?_⟩
  rw [Document.read_write_json (regular_leavingAll 124), if_neg (by decide +kernel)]

theorem reread_xml (hread : Document.read format text = .ok blocks) (h : ofBlocks blocks allowFloating = .ok p) :
    ∃ rendered, p.toBlocks? = .ok rendered ∧
      ((∀ b ∈ rendered.flatMap Block.reached, b.Legible) →
        Document.read .xml (Document.write .xml rendered) = .ok (rendered.map Block.emptied) ∧
        (Document.read .xml (Document.write .xml rendered) = .ok rendered ↔
          ∀ b ∈ rendered.flatMap Block.reached, b.Filled)) := by
  obtain ⟨rendered, hrendered, hregular⟩ := exists_rendered hread h
  refine ⟨rendered, hrendered, fun hlegible => ?_⟩
  have hxml := Document.read_write_xml hregular hlegible
  refine ⟨hxml, ?_⟩
  rw [hxml, Except.ok.injEq]
  exact Block.map_emptied_eq_self_iff

def printing (attrs : Attributes) (text : String) : List Block :=
  [{ tag := Tag.print.name
     attrs
     values := [("TEXT", { tag := Tag.text.name, attrs := { id := "t" }, fields := [("TEXT", text)] })] }]

/-- A text with marks and blanks in it is printed, by a block that has such texts itself. -/
def marked : List Block :=
  printing
    { id := "\t\"p\" & <é>\r\n", comment := some { text := " ]]>/\n" }, mutation := some [("_a.é", " ")] }
    "\n <a b='&#x3e;'/> ]]]"

theorem marked_reread_xml :
    ∃ p, ofBlocks marked false = .ok p ∧ p.toBlocks? = .ok marked ∧
      Document.read .xml (Document.write .xml marked) = .ok marked := by
  have hregular : Block.Regular marked := ⟨by decide +kernel, by decide +kernel, by decide +kernel⟩
  have hread := (Document.read_write_json hregular).trans (if_pos (by decide +kernel))
  obtain ⟨p, hp, hp'⟩ := @exists_of_rendered marked false marked (by decide +kernel)
  obtain ⟨rendered, hrendered, hreread⟩ := reread_xml hread hp
  cases hp'.symm.trans hrendered
  exact ⟨p, hp, hrendered, (hreread (by decide +kernel)).2.mpr (by decide +kernel)⟩

/-- A text of one blank is printed. -/
def blank : List Block := printing { id := "p" } " "

theorem blank_lost :
    ∃ p, Document.read .json (Document.write .json blank) = .ok blank ∧ ofBlocks blank false = .ok p ∧
      p.toBlocks? = .ok blank ∧ (∀ b ∈ blank.flatMap Block.reached, b.Legible) ∧
      Document.read .xml (Document.write .xml blank) = .ok (printing { id := "p" } "") ∧
      Document.read .xml (Document.write .xml blank) ≠ .ok blank := by
  have hregular : Block.Regular blank := ⟨by decide +kernel, by decide +kernel, by decide +kernel⟩
  have hlegible : ∀ b ∈ blank.flatMap Block.reached, b.Legible := by decide +kernel
  have hemptied : blank.map Block.emptied = printing { id := "p" } "" := by decide +kernel
  have hlost : printing { id := "p" } "" ≠ blank := by decide +kernel
  obtain ⟨p, hp, hp'⟩ := @exists_of_rendered blank false blank (by decide +kernel)
  refine ⟨p, (Document.read_write_json hregular).trans (if_pos (by decide +kernel)), hp, hp', hlegible, ?_⟩
  rw [Document.read_write_xml hregular hlegible, hemptied]
  exact ⟨rfl, fun h => hlost (Except.ok.inj h)⟩

end Program

end Blockwork
