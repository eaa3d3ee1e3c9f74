import Blockwork.Proofs.Acceptance
import Blockwork.Proofs.Renderable
import Blockwork.Proofs.Renders

/-! # Workspaces that are found again

* `Block.Plain` says that a block has nothing that the rule of its tag does not read, and no blank count.
* `Program.toBlocks?_equivalent` says that an accepted workspace of such blocks is found again in what the
  program is rendered as.
-/

namespace Blockwork

set_option autoImplicit false

namespace Block

def Clean (b : Block) : Prop :=
  ∀ c ∈ b.reached, c.Ordered ∧ c.Plain

theorem Clean.ordered {b : Block} (h : b.Clean) : b.Ordered :=
  (h b (mem_reached_self b)).1

theorem Clean.plain {b : Block} (h : b.Clean) : b.Plain :=
  (h b (mem_reached_self b)).2

theorem Clean.mono {b c : Block} (h : b.Clean) (hc : c.reached ⊆ b.reached) : c.Clean :=
  fun d hd => h d (hc hd)

variable {b r : Block}

theorem Rebuilds.fields_eq {tag : Tag} (h : Rebuilds tag r b) (hb : b.Ordered) (hplain : b.Plain) :
    r.fields = b.fields := by
  have hkeys := hplain.fields tag tag.mem_all h.named
  rw [← h.keys] at hkeys
  match hr : r.fields with
  | [] =>
    rw [hr] at hkeys
    exact (Dict.eq_nil_of_keys hkeys).symm
  | [entry] =>
    rw [hr] at hkeys
    exact (hb.fields.eq_singleton hkeys (h.fields entry (hr ▸ List.mem_singleton.mpr rfl))).symm
  | first :: second :: rest =>
    have hlength : (Dict.keys r.fields).length ≤ 1 := by
      rw [h.keys]
      cases tag <;> decide
    simp [hr, Dict.keys] at hlength

theorem Renders.equivalent (h : r.Renders b) (hb : b.Clean) : b.equivalent r = true := by
  induction b using part_induct generalizing r with
  | h b ih =>
    obtain ⟨⟨tag, hrebuilds⟩, -⟩ := h.exists_rebuilds hb.ordered
    have hparts : ∀ s, equivalentNext (b.part? s) (r.part? s) = true := by
      intro s
      cases hd : b.part? s with
      | none =>
        cases hc : r.part? s with
        | none => exact equivalentNext_none
        | some c =>
          obtain ⟨-, d, hd', -⟩ := h.exists_given hb.ordered hc
          rw [hd] at hd'
          cases hd'
      | some d =>
        have hmem := mem_entries_of_part? hd
        have hread : b.reads s = true := reads_of_keys hrebuilds.named (hb.plain.values tag tag.mem_all hrebuilds.named)
          (hb.plain.statements tag tag.mem_all hrebuilds.named) hmem
        obtain ⟨c, hc, hrenders⟩ := h.exists_rendered hb.ordered hread hd
        rw [hc]
        exact equivalentNext_some (ih (s, d) hmem hrenders (hb.mono (reached_entry hmem)))
    have hrestores : r.Restores b :=
      { tag := hrebuilds.tagged.trans hrebuilds.named.symm
        attrs := hrebuilds.attrs.extended hb.plain
        fields := hrebuilds.fields_eq hb.ordered hb.plain
        sortedValues := hrebuilds.sortedValues
        sortedStatements := hrebuilds.sortedStatements
        values := fun slot => hparts (.value slot)
        statements := fun slot => hparts (.statement slot) }
    exact hrestores.equivalent hb.ordered (hparts .next)

end Block

namespace Program

/-- An accepted workspace is found again, root by root, in what the program is rendered as, if its blocks
have nothing that is not read. Dictionaries have ascending keys. -/
theorem toBlocks?_equivalent {blocks : List Block} {allowFloating : Bool} {p : Program}
    (h : ofBlocks blocks allowFloating = .ok p) (hordered : ∀ b ∈ blocks, ∀ c ∈ b.reached, c.Ordered)
    (hplain : ∀ b ∈ blocks, ∀ c ∈ b.reached, c.Plain) :
    ∃ rendered, p.toBlocks? = .ok rendered ∧
      List.Forall₂ (fun b r => Block.equivalent b r = true) blocks rendered := by
  obtain ⟨roots, env, settled, haccepted⟩ := exists_accepted h
  have hfrom : List.Forall₂ Root.ComesFrom p.roots blocks := haccepted.resolved.imp fun _ _ => And.left
  have hclean : ∀ b ∈ blocks, b.Clean := fun b hb c hc => ⟨hordered b hb c hc, hplain b hb c hc⟩
  have hboth := (List.forall₂_and_left blocks p.toBlocks).mpr ⟨hclean, renders_toBlocks hfrom⟩
  exact ⟨p.toBlocks, toBlocks?_eq_ok hfrom, hboth.imp fun b r h => h.2.equivalent h.1⟩

/-- A choice with a padded count of branches and an empty last branch, in which a variable with a blank type is
set to a list with a count and a type in spellings of their own. -/
def spelled : List Block :=
  [{ tag := Tag.choose.name,
     attrs := { id := "a", mutation := some [("else", "1"), ("elseif", " 01"), ("note", "kept")] },
     values := [("IF0", truthBlock "b"), ("IF1", truthBlock "c")],
     statements := [("DO1",
       { tag := Tag.assign.name, attrs := { id := "d", mutation := some [("datatype", " ")] },
         fields := [("VAR", "x")],
         values := [("VALUE",
           { tag := Tag.list.name,
             attrs := { id := "e", mutation := some [("items", "1 "), ("list_type", "BOOLEAN")] },
             values := [("ADD0", truthBlock "f")] })],
         next := some (settingBlock "g" "y" (readingBlock "h" "x")) })],
     next := some (settingBlock "i" "x" (readingBlock "j" "y")) }]

theorem spelled_equivalent :
    (∀ b ∈ spelled, ∀ c ∈ b.reached, c.Ordered ∧ c.Plain) ∧
    ∃ p rendered, ofBlocks spelled false = .ok p ∧ p.toBlocks? = .ok rendered ∧
      List.Forall₂ (fun b r => Block.equivalent b r = true) spelled rendered := by
  have hreached : ∀ b ∈ spelled, ∀ c ∈ b.reached, c.Ordered ∧ c.Plain := by decide +kernel
  obtain ⟨p, hp⟩ : ∃ p, ofBlocks spelled false = .ok p := Except.exists_of_isOk (by decide +kernel)
  obtain ⟨rendered, hrendered, hequivalent⟩ := toBlocks?_equivalent hp
    (fun b hb c hc => (hreached b hb c hc).1) (fun b hb c hc => (hreached b hb c hc).2)
  exact ⟨hreached, p, rendered, hp, hrendered, hequivalent⟩

end Program

end Blockwork
