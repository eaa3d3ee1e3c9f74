import Blockwork.Proofs.Acceptance
import Blockwork.Proofs.Regular
import Blockwork.Proofs.Renderable
import Blockwork.Proofs.Renders

/-! # What is kept of a workspace

The rule of a tag reads some slots of a block. A choice, a list and a joined text refuse any other slot; the
other rules pass it over, and with it all blocks that are reached through it.
-/

namespace Blockwork

set_option autoImplicit false

open List (flatMap_cons mem_cons mem_flatMap)

namespace Block

/-! ## Parts that are read -/

mutual

/-- A block and the blocks that are reached from it through parts that are read. -/
def kept : Block → List Block
  | b@{ values, statements, next, .. } =>
    b :: (keptSlots (fun slot => b.reads (.value slot)) values ++
      keptSlots (fun slot => b.reads (.statement slot)) statements ++ keptNext next)

def keptSlots (read : String → Bool) : List (String × Block) → List Block
  | [] => []
  | (slot, b) :: rest => (if read slot then kept b else []) ++ keptSlots read rest

def keptNext : Option Block → List Block
  | none => []
  | some b => kept b

end

def keptIds (b : Block) : List String :=
  b.kept.map id

def keptPart (b : Block) (entry : Step × Block) : List Block :=
  if b.reads entry.1 then entry.2.kept else []

theorem keptSlots_eq (read : String → Bool) (slots : List (String × Block)) :
    keptSlots read slots = slots.flatMap fun slot => if read slot.1 then slot.2.kept else [] := by
  induction slots with
  | nil => rw [keptSlots, List.flatMap_nil]
  | cons slot slots ih => rw [keptSlots, ih, flatMap_cons]

theorem kept_entries (b : Block) : b.kept = b :: b.entries.flatMap b.keptPart := by
  have hnext : keptNext b.next = b.next.toList.flatMap kept := by
    cases b.next <;> simp [keptNext]
  have hkept : b.kept = b :: (keptSlots (fun slot => b.reads (.value slot)) b.values ++
      keptSlots (fun slot => b.reads (.statement slot)) b.statements ++ keptNext b.next) := by
    cases b
    rw [kept]
  rw [hkept, keptSlots_eq, keptSlots_eq, hnext]
  simp only [entries, Step.label, List.flatMap_append, List.flatMap_map, keptPart]
  simp [reads]

def AllRead (b : Block) : Prop :=
  ∀ entry ∈ b.entries, b.reads entry.1 = true

instance (b : Block) : Decidable b.AllRead :=
  inferInstanceAs (Decidable (∀ entry ∈ b.entries, b.reads entry.1 = true))

theorem sublist_flatMap {α β : Type} {f g : α → List β} {xs : List α} (h : ∀ x ∈ xs, (f x).Sublist (g x)) :
    (xs.flatMap f).Sublist (xs.flatMap g) := by
  induction xs with
  | nil => exact List.Sublist.slnil
  | cons x xs ih =>
    obtain ⟨hfirst, hrest⟩ := List.forall_mem_cons.mp h
    rw [flatMap_cons, flatMap_cons]
    exact hfirst.append (ih hrest)

theorem length_eq_of_flatMap {α β : Type} {f g : α → List β} {xs : List α} (hsub : ∀ x ∈ xs, (f x).Sublist (g x))
    (h : (xs.flatMap f).length = (xs.flatMap g).length) : ∀ x ∈ xs, (f x).length = (g x).length := by
  induction xs with
  | nil => simp
  | cons x xs ih =>
    obtain ⟨hfirst, hrest⟩ := List.forall_mem_cons.mp hsub
    have hhere := hfirst.length_le
    have hlater := (sublist_flatMap hrest).length_le
    rw [flatMap_cons, flatMap_cons, List.length_append, List.length_append] at h
    exact List.forall_mem_cons.mpr ⟨by omega, ih hrest (by omega)⟩

theorem kept_sublist (b : Block) : b.kept.Sublist b.reached := by
  induction b using part_induct with
  | h b ih =>
    rw [kept_entries, reached_entries]
    apply List.Sublist.cons_cons
    apply sublist_flatMap
    intro entry hentry
    unfold keptPart
    split
    · exact ih entry hentry
    · exact List.nil_sublist _

theorem keptPart_sublist (b : Block) (entry : Step × Block) : (b.keptPart entry).Sublist entry.2.reached := by
  unfold keptPart
  split
  · exact entry.2.kept_sublist
  · exact List.nil_sublist _

theorem kept_eq_of_allRead {b : Block} (h : ∀ c ∈ b.reached, c.AllRead) : b.kept = b.reached := by
  induction b using part_induct with
  | h b ih =>
    have hparts : ∀ entry ∈ b.entries, b.keptPart entry = entry.2.reached := by
      intro entry hentry
      have hread : b.reads entry.1 = true := h b (mem_reached_self b) entry hentry
      rw [keptPart, if_pos hread]
      exact ih entry hentry fun c hc => h c (reached_entry hentry hc)
    rw [kept_entries, reached_entries, List.flatMap_congr hparts]

theorem allRead_of_length {b : Block} (h : b.kept.length = b.reached.length) : ∀ c ∈ b.reached, c.AllRead := by
  induction b using part_induct with
  | h b ih =>
    rw [kept_entries, reached_entries, List.length_cons, List.length_cons] at h
    have hparts := length_eq_of_flatMap (fun entry _ => b.keptPart_sublist entry) (Nat.succ.inj h)
    -- Nothing is kept of a part that is not read, but at least its first block is reached.
    have hread : b.AllRead := by
      intro entry hentry
      by_contra hnot
      have hnone := hparts entry hentry
      have hsome := List.length_pos_of_mem (mem_reached_self entry.2)
      rw [keptPart, if_neg hnot, List.length_nil] at hnone
      omega
    intro c hc
    rw [reached_entries] at hc
    rcases mem_cons.mp hc with rfl | hc
    · exact hread
    · obtain ⟨entry, hentry, hc⟩ := mem_flatMap.mp hc
      have hlength := hparts entry hentry
      rw [keptPart, if_pos (hread entry hentry)] at hlength
      exact ih entry hentry hlength c hc

/-! ## Blocks that come back -/

variable {b r : Block}

def readEntries (b : Block) : List (Step × Block) :=
  b.entries.filter fun entry => b.reads entry.1

theorem flatMap_keptPart (b : Block) :
    b.entries.flatMap b.keptPart = b.readEntries.flatMap fun entry => entry.2.kept := by
  unfold readEntries
  induction b.entries with
  | nil => rfl
  | cons entry entries ih =>
    rw [flatMap_cons, ih, List.filter_cons]
    by_cases hread : b.reads entry.1 = true
    · rw [keptPart, if_pos hread, if_pos hread, flatMap_cons]
    · rw [keptPart, if_neg hread, if_neg hread, List.nil_append]

theorem keptIds_eq (b : Block) : b.keptIds = b.id :: b.readEntries.flatMap fun entry => entry.2.keptIds := by
  rw [keptIds, kept_entries, flatMap_keptPart, List.map_cons, List.map_flatMap]
  rfl

theorem subperm_flatMap {κ α β γ : Type} {f : α → List γ} {g : β → List γ} {xs : List (κ × α)} {ys : List (κ × β)}
    (hkeys : (xs.map Prod.fst).Nodup) (h : ∀ x ∈ xs, ∃ y, (x.1, y) ∈ ys ∧ (f x.2).Subperm (g y)) :
    (xs.flatMap fun x => f x.2).Subperm (ys.flatMap fun y => g y.2) := by
  induction xs generalizing ys with
  | nil => exact List.nil_subperm
  | cons x xs ih =>
    obtain ⟨hfirst, hrest⟩ := List.forall_mem_cons.mp h
    obtain ⟨hx, hkeys⟩ := List.nodup_cons.mp hkeys
    obtain ⟨y, hy, hsub⟩ := hfirst
    obtain ⟨before, after, rfl⟩ := List.mem_iff_append.mp hy
    have hothers : ∀ x' ∈ xs, ∃ y', (x'.1, y') ∈ before ++ after ∧ (f x'.2).Subperm (g y') := by
      intro x' hx'
      obtain ⟨y', hy', hsub'⟩ := hrest x' hx'
      refine ⟨y', ?_, hsub'⟩
      rcases List.mem_append.mp hy' with hmem | hmem
      · exact List.mem_append_left _ hmem
      · rcases mem_cons.mp hmem with e | hmem
        · have hkey : x'.1 = x.1 := (Prod.mk.inj e).1
          exact absurd (hkey ▸ List.mem_map_of_mem hx') hx
        · exact List.mem_append_right _ hmem
    have hmiddle : ((x.1, y) :: (before ++ after)).Perm (before ++ (x.1, y) :: after) := List.perm_middle.symm
    refine (hsub.append (ih hkeys hothers)).trans ?_
    exact (hmiddle.flatMap_right fun y => g y.2).subperm

theorem Renders.ids (h : r.Renders b) (hb : ∀ c ∈ b.reached, c.Ordered) : r.ids.Perm b.keptIds := by
  induction b using part_induct generalizing r with
  | h b ih =>
    have hordered := hb b (mem_reached_self b)
    have hlater : ∀ {s : Step} {d : Block}, (s, d) ∈ b.entries → ∀ e ∈ d.reached, e.Ordered :=
      fun hmem e he => hb e (reached_entry hmem he)
    have hsteps := (h.ordered hordered).nodup_steps
    rw [ids_eq, keptIds_eq, h.id_eq hordered]
    apply List.Perm.cons
    -- On both sides the steps are different from each other, so it is enough to find each part on the other side.
    apply List.Subperm.antisymm
    · apply subperm_flatMap (f := ids) (g := keptIds) hsteps
      rintro ⟨s, c⟩ hentry
      obtain ⟨hread, d, hd, hrenders⟩ := h.exists_given hordered (part?_of_mem_entries hsteps hentry)
      have hmem := mem_entries_of_part? hd
      exact ⟨d, List.mem_filter.mpr ⟨hmem, hread⟩, (ih (s, d) hmem hrenders (hlater hmem)).subperm⟩
    · apply subperm_flatMap (f := keptIds) (g := ids) (hordered.nodup_steps.sublist (List.filter_sublist.map Prod.fst))
      rintro ⟨s, d⟩ hentry
      obtain ⟨hmem, hread⟩ := List.mem_filter.mp hentry
      obtain ⟨c, hc, hrenders⟩ := h.exists_rendered hordered hread (part?_of_mem_entries hordered.nodup_steps hmem)
      exact ⟨c, mem_entries_of_part? hc, (ih (s, d) hmem hrenders (hlater hmem)).symm.subperm⟩

theorem Renders.exists_of_mem_kept (h : r.Renders b) (hb : ∀ c ∈ b.reached, c.Ordered) :
    ∀ c ∈ b.kept, ∃ r', Renders r' c := by
  induction b using part_induct generalizing r with
  | h b ih =>
    have hordered := hb b (mem_reached_self b)
    intro c hc
    rw [kept_entries, flatMap_keptPart] at hc
    rcases mem_cons.mp hc with rfl | hc
    · exact ⟨r, h⟩
    · obtain ⟨⟨s, d⟩, hentry, hc⟩ := mem_flatMap.mp hc
      obtain ⟨hmem, hread⟩ := List.mem_filter.mp hentry
      obtain ⟨r', -, hrenders⟩ := h.exists_rendered hordered hread (part?_of_mem_entries hordered.nodup_steps hmem)
      exact ih (s, d) hmem hrenders (fun e he => hb e (reached_entry hmem he)) c hc

theorem Renders.exists_of_mem_reached (h : r.Renders b) (hb : ∀ c ∈ b.reached, c.Ordered) :
    ∀ c ∈ r.reached, ∃ d ∈ b.reached, c.Renders d := by
  induction b using part_induct generalizing r with
  | h b ih =>
    have hordered := hb b (mem_reached_self b)
    intro c hc
    rw [reached_entries] at hc
    rcases mem_cons.mp hc with rfl | hc
    · exact ⟨b, mem_reached_self b, h⟩
    · obtain ⟨⟨s, r'⟩, hentry, hc⟩ := mem_flatMap.mp hc
      obtain ⟨-, d, hd, hrenders⟩ :=
        h.exists_given hordered (part?_of_mem_entries (h.ordered hordered).nodup_steps hentry)
      have hsub := reached_entry (mem_entries_of_part? hd)
      obtain ⟨e, he, hce⟩ := ih (s, d) (mem_entries_of_part? hd) hrenders (fun e he => hb e (hsub he)) c hc
      exact ⟨e, hsub he, hce⟩

theorem Renders.allRead (h : r.Renders b) (hb : b.Ordered) {tag : Tag} (htag : b.tag = tag.name)
    (hothers : tag.refusesOthers = true) : b.AllRead := by
  obtain ⟨⟨tag', hrebuilds⟩, -⟩ := h.exists_rebuilds hb
  have hfound : Tag.ofName? b.tag = some tag := Tag.ofName?_eq_some_iff.mpr htag
  have hsame : Tag.ofName? b.tag = some tag' := Tag.ofName?_eq_some_iff.mpr hrebuilds.named
  rw [hfound] at hsame
  cases hsame
  obtain ⟨hvalues, hstatements⟩ := hrebuilds.others hothers
  exact fun entry hentry => reads_of_keys htag hvalues hstatements hentry

end Block

/-! ## Workspaces -/

namespace Program

theorem perm_ids_of_renders {blocks rendered : List Block}
    (h : List.Forall₂ (fun b r => Block.Renders r b) blocks rendered)
    (hordered : ∀ b ∈ blocks, ∀ c ∈ b.reached, c.Ordered) :
    (Block.allIds rendered).Perm (blocks.flatMap Block.keptIds) := by
  unfold Block.allIds
  induction h with
  | nil => exact .refl _
  | cons hrenders _ ih =>
    obtain ⟨hfirst, hrest⟩ := List.forall_mem_cons.mp hordered
    rw [flatMap_cons, flatMap_cons]
    exact (hrenders.ids hfirst).append (ih hrest)

theorem regular_toBlocks {p : Program} {blocks : List Block} (hfrom : List.Forall₂ Root.ComesFrom p.roots blocks)
    (h : Block.Regular blocks) : Block.Regular p.toBlocks := by
  have hrenders := renders_toBlocks hfrom
  have hordered : ∀ b ∈ blocks, ∀ c ∈ b.reached, c.Ordered :=
    fun b hb c hc => h.ordered c (mem_flatMap.mpr ⟨b, hb, hc⟩)
  have hkept : (blocks.flatMap Block.keptIds).Sublist (blocks.flatMap Block.ids) :=
    Block.sublist_flatMap fun b _ => b.kept_sublist.map Block.id
  have hreached : ∀ c ∈ p.toBlocks.flatMap Block.reached, c.Ordered ∧ c.Solid := by
    intro c hc
    obtain ⟨r, hr, hc⟩ := mem_flatMap.mp hc
    obtain ⟨b, hb, hrendered⟩ := exists_of_mem_right hrenders hr
    obtain ⟨d, hd, hcd⟩ := hrendered.exists_of_mem_reached (hordered b hb) c hc
    have hsolid := h.solid d (mem_flatMap.mpr ⟨b, hb, hd⟩)
    exact ⟨hcd.ordered (hordered b hb d hd), hcd.solid (hordered b hb d hd) hsolid⟩
  exact ⟨(perm_ids_of_renders hrenders hordered).nodup_iff.mpr (h.distinct.sublist hkept),
    fun c hc => (hreached c hc).1, fun c hc => (hreached c hc).2⟩

/-- An accepted workspace comes back with the blocks that are kept. All of its blocks come back if and only if
the rules of their tags read all of their parts; for the blocks of the rules that refuse other slots this is so. -/
theorem toBlocks?_keeps_ids {blocks : List Block} {allowFloating : Bool} {p : Program}
    (h : ofBlocks blocks allowFloating = .ok p) (hordered : ∀ b ∈ blocks, ∀ c ∈ b.reached, c.Ordered) :
    ∃ rendered, p.toBlocks? = .ok rendered ∧
      (Block.allIds rendered).Perm (blocks.flatMap Block.keptIds) ∧
      ((Block.allIds rendered).Perm (Block.allIds blocks) ↔ ∀ b ∈ blocks, ∀ c ∈ b.reached, c.AllRead) ∧
      ∀ b ∈ blocks, ∀ c ∈ b.kept, ∀ tag : Tag, c.tag = tag.name → tag.refusesOthers = true → c.AllRead := by
  obtain ⟨roots, env, settled, haccepted⟩ := exists_accepted h
  have hfrom : List.Forall₂ Root.ComesFrom p.roots blocks := haccepted.resolved.imp fun _ _ => And.left
  have hrenders := renders_toBlocks hfrom
  have hperm := perm_ids_of_renders hrenders hordered
  have hsub : ∀ b ∈ blocks, b.keptIds.Sublist b.ids := fun b _ => b.kept_sublist.map Block.id
  refine ⟨p.toBlocks, toBlocks?_eq_ok hfrom, hperm, ⟨fun hall b hb => ?_, fun hall => ?_⟩, ?_⟩
  · have hlength : (blocks.flatMap Block.keptIds).length = (blocks.flatMap Block.ids).length :=
      hperm.length_eq.symm.trans hall.length_eq
    apply Block.allRead_of_length
    simpa [Block.keptIds, Block.ids] using Block.length_eq_of_flatMap hsub hlength b hb
  · have hkept : blocks.flatMap Block.keptIds = Block.allIds blocks := by
      apply List.flatMap_congr
      intro b hb
      rw [Block.keptIds, Block.kept_eq_of_allRead (hall b hb), Block.ids]
    rwa [hkept] at hperm
  · intro b hb c hc tag htag hothers
    obtain ⟨r, -, hr⟩ := exists_of_mem_left hrenders hb
    obtain ⟨r', hr'⟩ := hr.exists_of_mem_kept (hordered b hb) c hc
    exact hr'.allRead (hordered b hb c (b.kept_sublist.subset hc)) htag hothers

/-- A block that prints, with one more block in a slot that is not read. -/
def straySlot : List Block :=
  [{ tag := Tag.print.name, attrs := { id := "p" },
     values := [("NOTE", truthBlock "n"), ("TEXT", truthBlock "t")] }]

theorem toBlocks?_keeps_ids_straySlot :
    ∃ p rendered, ofBlocks straySlot false = .ok p ∧ p.toBlocks? = .ok rendered ∧
      (Block.allIds rendered).Perm ["p", "t"] := by
  have hordered : ∀ b ∈ straySlot, ∀ c ∈ b.reached, c.Ordered := by decide +kernel
  obtain ⟨p, hp⟩ : ∃ p, ofBlocks straySlot false = .ok p := Except.exists_of_isOk (by decide +kernel)
  obtain ⟨rendered, hrendered, hperm, -⟩ := toBlocks?_keeps_ids hp hordered
  exact ⟨p, rendered, hp, hrendered, hperm⟩

/-- The block in the slot that is not read is gone, although the workspace is accepted. -/
theorem straySlot_is_lost :
    ∃ p rendered, ofBlocks straySlot false = .ok p ∧ p.toBlocks? = .ok rendered ∧
      ¬(Block.allIds rendered).Perm (Block.allIds straySlot) := by
  have hids : ((ofBlocks straySlot false).toOption.bind fun p => p.toBlocks?.toOption).map Block.allIds =
      some ["p", "t"] := by decide +kernel
  obtain ⟨rendered, hrendered, hall⟩ := Option.map_eq_some_iff.mp hids
  obtain ⟨p, hp, hblocks⟩ := Option.bind_eq_some_iff.mp hrendered
  refine ⟨p, rendered, Except.toOption_eq_some_iff.mp hp, Except.toOption_eq_some_iff.mp hblocks, fun hperm => ?_⟩
  rw [hall] at hperm
  exact absurd hperm.length_eq (by decide)

end Program

end Blockwork
