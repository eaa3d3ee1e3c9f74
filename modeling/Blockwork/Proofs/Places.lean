import Mathlib.Data.List.Induction
import Blockwork.Block.OfJson
import Blockwork.Proofs.KeyOrder
import Blockwork.Proofs.Reached

/-! # Places in documents and forests

A record and a block both have parts: what stands in a value slot, what stands in a statement slot, and
what comes next. A place names a tree of a forest and the steps from its root.
-/

namespace Blockwork

set_option autoImplicit false

open Dict (keys)
open Option (filter_eq_some_iff bind_eq_some_iff)

/-- A way from a record or a block to one of its parts. -/
inductive Step where
  | value (slot : String)
  | statement (slot : String)
  | next
deriving DecidableEq

/-- A place in a forest: a tree, and the steps from its root. -/
structure Place where
  tree : Nat
  steps : List Step
deriving DecidableEq

namespace Step

variable {α : Type} {values statements : Dict α} {next : Option α} {slot : String} {a : α}

def label (values statements : Dict α) (next : Option α) : List (Step × α) :=
  (values.map fun slot => (.value slot.1, slot.2)) ++ (statements.map fun slot => (.statement slot.1, slot.2)) ++
    next.toList.map fun a => (.next, a)

theorem mem_label_value : (.value slot, a) ∈ label values statements next ↔ (slot, a) ∈ values := by
  simp [label]

theorem mem_label_statement : (.statement slot, a) ∈ label values statements next ↔ (slot, a) ∈ statements := by
  simp [label]

theorem mem_label_next : (.next, a) ∈ label values statements next ↔ next = some a := by
  simp [label]

theorem nodup_label_iff :
    ((label values statements next).map Prod.fst).Nodup ↔
      (keys values).Nodup ∧ (keys statements).Nodup := by
  have hsteps : (label values statements next).map Prod.fst =
      (keys values).map Step.value ++ (keys statements).map Step.statement ++
        next.toList.map fun _ => Step.next := by
    simp [label, keys, Function.comp_def]
  have hvalues : ((keys values).map Step.value).Nodup ↔ (keys values).Nodup :=
    List.nodup_map_iff fun a b h => Step.value.inj h
  have hstatements : ((keys statements).map Step.statement).Nodup ↔ (keys statements).Nodup :=
    List.nodup_map_iff fun a b h => Step.statement.inj h
  have hnext : (next.toList.map fun _ => Step.next).Nodup := by
    cases next <;> simp
  rw [hsteps, List.nodup_append', List.nodup_append', hvalues, hstatements]
  simp only [hnext, true_and, and_assoc]
  constructor
  · exact fun h => ⟨h.1, h.2.1⟩
  · refine fun h => ⟨h.1, h.2, ?_, ?_⟩
    all_goals
      intro s hs hs'
      simp only [List.mem_map, List.mem_append] at hs hs'
      grind

end Step

namespace Place

variable {α : Type} {part? : α → Step → Option α} {forest : List α}

def step (p : Place) (s : Step) : Place :=
  ⟨p.tree, p.steps ++ [s]⟩

def find? (part? : α → Step → Option α) (forest : List α) (p : Place) : Option α :=
  forest[p.tree]?.bind fun root => p.steps.foldlM part? root

@[simp] theorem find?_root (i : Nat) : find? part? forest ⟨i, []⟩ = forest[i]? := by
  cases h : forest[i]? <;> simp [find?, h]

theorem find?_step (p : Place) (s : Step) :
    find? part? forest (p.step s) = (find? part? forest p).bind fun a => part? a s := by
  simp only [find?, step, List.foldlM_append, Option.bind_assoc]
  congr 1
  funext root
  show ((p.steps.foldlM part? root).bind fun a => [s].foldlM part? a) = _
  congr 1
  funext a
  cases h : part? a s <;> simp [h]

theorem find?_step_of_find? {p : Place} {s : Step} {a : α} (h : find? part? forest p = some a) :
    find? part? forest (p.step s) = part? a s := by
  rw [find?_step, h, Option.bind_some]

theorem step_ne_root (p : Place) (s : Step) : (p.step s).steps ≠ [] := by
  simp [step]

theorem step_inj {p q : Place} {s t : Step} (h : p.step s = q.step t) : p = q ∧ s = t := by
  obtain ⟨i, ps⟩ := p
  obtain ⟨j, qs⟩ := q
  obtain ⟨rfl, hsteps⟩ := Place.mk.inj h
  obtain ⟨rfl, hlast⟩ := List.append_inj' hsteps rfl
  exact ⟨rfl, List.singleton_inj.mp hlast⟩

theorem induct {motive : Place → Prop} (root : ∀ i, motive ⟨i, []⟩)
    (step : ∀ p s, motive p → motive (p.step s)) (p : Place) : motive p := by
  obtain ⟨i, steps⟩ := p
  induction steps using List.reverseRecOn with
  | nil => exact root i
  | append_singleton steps s ih => exact step ⟨i, steps⟩ s ih

end Place

namespace Json

/-! ## Parts of a record -/

def held (v : Json) (key slot : String) : Option Json :=
  ((v.get? key).bind (get? slot)).filter fun t => !t.isNull

def part? (v : Json) : Step → Option Json
  | .value slot => v.held "value-slots" slot
  | .statement slot => v.held "statement-slots" slot
  | .next => (v.get? "next").filter fun t => !t.isNull

variable {v t : Json} {s : Step}

theorem sizeOf_part?_lt (h : v.part? s = some t) : sizeOf t < sizeOf v := by
  have hheld : ∀ {key slot : String}, v.held key slot = some t → sizeOf t < sizeOf v := by
    intro key slot h
    obtain ⟨h, -⟩ := filter_eq_some_iff.mp h
    obtain ⟨x, hx, ht⟩ := bind_eq_some_iff.mp h
    exact Nat.lt_trans (sizeOf_get?_lt ht) (sizeOf_get?_lt hx)
  cases s with
  | value slot => exact hheld h
  | statement slot => exact hheld h
  | next => exact sizeOf_get?_lt (filter_eq_some_iff.mp h).1

theorem Ordered.part? (hv : v.Ordered) (h : v.part? s = some t) : t.Ordered := by
  have hheld : ∀ {key slot : String}, v.held key slot = some t → t.Ordered := by
    intro key slot h
    obtain ⟨h, -⟩ := filter_eq_some_iff.mp h
    obtain ⟨x, hx, ht⟩ := bind_eq_some_iff.mp h
    exact (hv.get? hx).get? ht
  cases s with
  | value slot => exact hheld h
  | statement slot => exact hheld h
  | next => exact hv.get? (filter_eq_some_iff.mp h).1

theorem part?_eq_none (h : v.isObject = false) (s : Step) : v.part? s = none := by
  cases v with
  | object members => cases h
  | _ => cases s <;> rfl

theorem isObject_of_part? (h : v.part? s = some t) : v.isObject = true := by
  by_contra hv
  rw [part?_eq_none (Bool.not_eq_true _ ▸ hv)] at h
  cases h

theorem part_induct {motive : Json → Prop}
    (h : ∀ v, (∀ s t, v.part? s = some t → motive t) → motive v) (v : Json) : motive v :=
  h v fun _ t _ => part_induct h t
termination_by sizeOf v
decreasing_by exact sizeOf_part?_lt ‹_›

def slots (v : Json) (key : String) : List (String × Json) :=
  (((v.get? key).map members).getD []).filter fun slot => !slot.2.isNull

def entries (v : Json) : List (Step × Json) :=
  Step.label (v.slots "value-slots") (v.slots "statement-slots") (v.part? .next)

theorem Ordered.sorted_slots (h : v.Ordered) (key : String) : Dict.Sorted (v.slots key) := by
  have hmembers : Dict.Sorted (((v.get? key).map members).getD []) := by
    cases hx : v.get? key with
    | none => exact List.Pairwise.nil
    | some x => exact (h.get? hx).sorted_members
  exact List.Pairwise.sublist (List.Sublist.map Prod.fst List.filter_sublist) hmembers

theorem Ordered.mem_slots_iff {key slot : String} (h : v.Ordered) :
    (slot, t) ∈ v.slots key ↔ v.held key slot = some t := by
  unfold slots held
  rw [List.mem_filter, filter_eq_some_iff]
  cases hx : v.get? key with
  | none => simp
  | some x =>
    rw [Option.bind_some, (h.get? hx).get?_iff]
    rfl

theorem Ordered.mem_entries_iff (h : v.Ordered) : (s, t) ∈ v.entries ↔ v.part? s = some t := by
  cases s with
  | value slot => exact Step.mem_label_value.trans h.mem_slots_iff
  | statement slot => exact Step.mem_label_statement.trans h.mem_slots_iff
  | next => exact Step.mem_label_next

theorem Ordered.nodup_entries (h : v.Ordered) : (v.entries.map Prod.fst).Nodup :=
  Step.nodup_label_iff.mpr ⟨(h.sorted_slots _).nodup_keys, (h.sorted_slots _).nodup_keys⟩

end Json

namespace Block

/-! ## Parts of a block -/

def part? (b : Block) : Step → Option Block
  | .value slot => b.value? slot
  | .statement slot => b.statement? slot
  | .next => b.next

def entries (b : Block) : List (Step × Block) :=
  Step.label b.values b.statements b.next

variable {b : Block} {id : String}

theorem mem_entries_of_part? {c : Block} {s : Step} (h : b.part? s = some c) : (s, c) ∈ b.entries := by
  cases s with
  | value slot => exact Step.mem_label_value.mpr (Dict.mem_of_get? h)
  | statement slot => exact Step.mem_label_statement.mpr (Dict.mem_of_get? h)
  | next => exact Step.mem_label_next.mpr h

theorem part?_of_mem_entries {c : Block} {s : Step} (hb : (b.entries.map Prod.fst).Nodup)
    (h : (s, c) ∈ b.entries) : b.part? s = some c := by
  obtain ⟨hvalues, hstatements⟩ := Step.nodup_label_iff.mp hb
  cases s with
  | value slot => exact Dict.get?_of_mem hvalues (Step.mem_label_value.mp h)
  | statement slot => exact Dict.get?_of_mem hstatements (Step.mem_label_statement.mp h)
  | next => exact Step.mem_label_next.mp h

theorem Ordered.nodup_steps (h : b.Ordered) : (b.entries.map Prod.fst).Nodup :=
  Step.nodup_label_iff.mpr ⟨h.values.nodup_keys, h.statements.nodup_keys⟩

theorem sizeOf_entry_lt {entry : Step × Block} (h : entry ∈ b.entries) : sizeOf entry.2 < sizeOf b := by
  have hslot : ∀ {slot : String} {slots : List (String × Block)}, (slot, entry.2) ∈ slots →
      sizeOf entry.2 < sizeOf slots := by
    intro slot slots hmem
    have hlt := List.sizeOf_lt_of_mem hmem
    simp only [Prod.mk.sizeOf_spec] at hlt
    omega
  obtain ⟨s, c⟩ := entry
  cases s with
  | value slot =>
    have hlt := hslot (Step.mem_label_value.mp h)
    cases b
    simp only [Block.mk.sizeOf_spec] at *
    omega
  | statement slot =>
    have hlt := hslot (Step.mem_label_statement.mp h)
    cases b
    simp only [Block.mk.sizeOf_spec] at *
    omega
  | next => exact sizeOf_next_lt (Step.mem_label_next.mp h)

theorem part_induct {motive : Block → Prop}
    (h : ∀ b : Block, (∀ entry ∈ b.entries, motive entry.2) → motive b) (b : Block) : motive b :=
  h b fun entry _ => part_induct h entry.2
termination_by sizeOf b
decreasing_by exact sizeOf_entry_lt ‹_›

theorem reachedSlots_eq (slots : List (String × Block)) :
    reachedSlots slots = slots.flatMap fun slot => slot.2.reached := by
  induction slots with
  | nil => rw [reachedSlots, List.flatMap_nil]
  | cons slot slots ih => rw [reachedSlots, List.flatMap_cons, ih]

theorem reached_entries (b : Block) : b.reached = b :: b.entries.flatMap fun entry => entry.2.reached := by
  have hnext : reachedNext b.next = b.next.toList.flatMap reached := by
    cases b.next <;> simp [reachedNext]
  simp only [reached_eq b, reachedSlots_eq, hnext, entries, Step.label, List.flatMap_append, List.flatMap_map]

theorem reached_entry {entry : Step × Block} (h : entry ∈ b.entries) : entry.2.reached ⊆ b.reached := by
  intro c hc
  rw [reached_entries]
  exact List.mem_cons_of_mem _ (List.mem_flatMap.mpr ⟨entry, h, hc⟩)

theorem ids_eq (b : Block) : b.ids = b.id :: b.entries.flatMap fun entry => entry.2.ids := by
  rw [ids, reached_entries, List.map_cons, List.map_flatMap]
  rfl

/-! ## References -/

theorem slotsReferences_eq (x : Json) :
    slotsReferences x = x.members.flatMap fun member => slotReferences member.2 := by
  have hmembers : ∀ members : List (String × Json),
      memberReferences members = members.flatMap fun member => slotReferences member.2 := by
    intro members
    induction members with
    | nil => rw [memberReferences, List.flatMap_nil]
    | cons member members ih => rw [memberReferences, List.flatMap_cons, ih]
  cases x with
  | object members => rw [slotsReferences, hmembers, Json.members]
  | _ => simp [slotsReferences, Json.members]

theorem mem_references_iff {members : List (String × Json)} : id ∈ references members ↔ ∃ key x, (key, x) ∈ members ∧
      ((key = "value-slots" ∨ key = "statement-slots") ∧ id ∈ slotsReferences x ∨
        key = "next" ∧ id ∈ slotReferences x) := by
  induction members with
  | nil => simp [references]
  | cons member members ih =>
    obtain ⟨key, x⟩ := member
    rw [references, List.mem_append, ih]
    constructor
    · rintro (h | ⟨key', x', hmem, h⟩)
      · refine ⟨key, x, List.mem_cons_self, ?_⟩
        by_cases hslots : key = "value-slots" ∨ key = "statement-slots"
        · rw [if_pos hslots] at h
          exact .inl ⟨hslots, h⟩
        · by_cases hnext : key = "next"
          · rw [if_neg hslots, if_pos hnext] at h
            exact .inr ⟨hnext, h⟩
          · simp [hslots, hnext] at h
      · exact ⟨key', x', List.mem_cons_of_mem _ hmem, h⟩
    · rintro ⟨key', x', hmem, h⟩
      rcases List.mem_cons.mp hmem with e | hmem
      · cases e
        refine .inl ?_
        rcases h with ⟨hslots, h⟩ | ⟨rfl, h⟩
        · rwa [if_pos hslots]
        · simpa using h
      · exact .inr ⟨key', x', hmem, h⟩

theorem not_isNull_of_mem {t : Json} (h : id ∈ slotReferences t) : (!t.isNull) = true := by
  cases t with
  | null => simp [slotReferences] at h
  | _ => rfl

theorem mem_slotReferences_step {v : Json} (hv : v.Ordered) :
    id ∈ slotReferences v ↔ v = .text id ∨ ∃ s t, v.part? s = some t ∧ id ∈ slotReferences t := by
  have hpart := fun h => Json.part?_eq_none (v := v) h
  cases v with
  | text other => simp [slotReferences, hpart rfl, eq_comm]
  | object members =>
    rw [slotReferences, mem_references_iff]
    constructor
    · rintro ⟨key, x, hmem, ⟨hslots, h⟩ | ⟨rfl, h⟩⟩
      · rw [slotsReferences_eq, List.mem_flatMap] at h
        obtain ⟨⟨slot, t⟩, hslot, h⟩ := h
        have hx : (Json.object members).get? key = some x := hv.get?_iff.mpr hmem
        have ht : x.get? slot = some t := (hv.get? hx).get?_iff.mpr hslot
        have hheld : (Json.object members).held key slot = some t := by
          simp [Json.held, hx, ht, Option.filter, not_isNull_of_mem h]
        rcases hslots with rfl | rfl
        · exact .inr ⟨.value slot, t, hheld, h⟩
        · exact .inr ⟨.statement slot, t, hheld, h⟩
      · have hx : (Json.object members).get? "next" = some x := hv.get?_iff.mpr hmem
        refine .inr ⟨.next, x, ?_, h⟩
        simp [Json.part?, hx, Option.filter, not_isNull_of_mem h]
    · rintro (h | ⟨s, t, hpart, h⟩)
      · cases h
      · have hheld : ∀ {key slot : String}, (Json.object members).held key slot = some t →
            ∃ x, (key, x) ∈ members ∧ id ∈ slotsReferences x := by
          intro key slot hpart
          obtain ⟨hpart, -⟩ := filter_eq_some_iff.mp hpart
          obtain ⟨x, hx, ht⟩ := bind_eq_some_iff.mp hpart
          refine ⟨x, hv.get?_iff.mp hx, ?_⟩
          rw [slotsReferences_eq, List.mem_flatMap]
          exact ⟨(slot, t), (hv.get? hx).get?_iff.mp ht, h⟩
        cases s with
        | value slot =>
          obtain ⟨x, hmem, h⟩ := hheld hpart
          exact ⟨_, x, hmem, .inl ⟨.inl rfl, h⟩⟩
        | statement slot =>
          obtain ⟨x, hmem, h⟩ := hheld hpart
          exact ⟨_, x, hmem, .inl ⟨.inr rfl, h⟩⟩
        | next =>
          have hx := (filter_eq_some_iff.mp hpart).1
          exact ⟨_, t, hv.get?_iff.mp hx, .inr ⟨rfl, h⟩⟩
  | _ => simp [slotReferences, hpart rfl]

theorem mem_slotReferences_iff {v : Json} (hv : v.Ordered) :
    id ∈ slotReferences v ↔ ∃ steps : List Step, steps.foldlM Json.part? v = some (.text id) := by
  induction v using Json.part_induct with
  | h v ih =>
    rw [mem_slotReferences_step hv]
    constructor
    · rintro (rfl | ⟨s, t, hpart, h⟩)
      · exact ⟨[], rfl⟩
      · obtain ⟨steps, hsteps⟩ := (ih s t hpart (hv.part? hpart)).mp h
        refine ⟨s :: steps, ?_⟩
        rw [List.foldlM_cons, hpart]
        exact hsteps
    · rintro ⟨steps, hsteps⟩
      cases steps with
      | nil => exact .inl (Option.some.inj hsteps)
      | cons s steps =>
        rw [List.foldlM_cons] at hsteps
        obtain ⟨t, hpart, hsteps⟩ := bind_eq_some_iff.mp hsteps
        exact .inr ⟨s, t, hpart, (ih s t hpart (hv.part? hpart)).mpr ⟨steps, hsteps⟩⟩

end Block

end Blockwork
