import Mathlib.Data.Option.Basic
import Blockwork.Proofs.Equivalence
import Blockwork.Proofs.Places

/-! # Laws of equivalence

A block is found again in itself, and in whatever is found again from it. Two blocks that are found again in each other
have the same names everywhere. All of this goes from a block to its parts, whichever way they are reached.
-/

namespace Blockwork.Block

set_option autoImplicit false

open Dict (keys)

/-! ## Attributes -/

theorem sameAttribute_trans {key x y z : String} (h : sameAttribute key x y = true)
    (h' : sameAttribute key y z = true) : sameAttribute key x z = true := by
  unfold sameAttribute Text.sameLetters at *
  split at h <;> simp_all

theorem reproduces_iff {given rendered : Option Mutation} :
    reproduces given rendered = true ↔ ∀ key value, (key, value) ∈ given.getD [] →
      ∃ found, Dict.get? key (rendered.getD []) = some found ∧ sameAttribute key value found = true := by
  have hget : ∀ key, rendered.bind (Dict.get? key) = Dict.get? key (rendered.getD []) := by
    intro key
    cases rendered <;> rfl
  unfold reproduces
  simp only [List.all_eq_true, Prod.forall, hget]
  refine forall₃_congr fun key value _ => ?_
  cases Dict.get? key (rendered.getD []) <;> simp

theorem reproduces_self {mutation : Option Mutation} (h : Dict.Sorted (mutation.getD [])) :
    reproduces mutation mutation = true :=
  reproduces_iff.mpr fun key value hmem => ⟨value, h.get?_of_mem hmem, sameAttribute_self key value⟩

theorem reproduces_trans {m m' m'' : Option Mutation} (h : reproduces m m' = true) (h' : reproduces m' m'' = true) :
    reproduces m m'' = true := by
  refine reproduces_iff.mpr fun key value hmem => ?_
  obtain ⟨found, hfound, hsame⟩ := reproduces_iff.mp h key value hmem
  obtain ⟨found', hfound', hsame'⟩ := reproduces_iff.mp h' key found (Dict.mem_of_get? hfound)
  exact ⟨found', hfound', sameAttribute_trans hsame hsame'⟩

theorem keys_subset_of_reproduces {m m' : Option Mutation} (h : reproduces m m' = true) :
    keys (m.getD []) ⊆ keys (m'.getD []) := by
  intro key hkey
  obtain ⟨⟨_, value⟩, hmem, rfl⟩ := List.mem_map.mp hkey
  obtain ⟨found, hfound, -⟩ := reproduces_iff.mp h _ value hmem
  exact Dict.mem_keys_of_get? hfound

/-! ## Parts -/

/-- Apart from its parts, the block is found again in another one. -/
structure FoundApart (a b : Block) : Prop where
  tag : a.tag = b.tag
  attrs : equivalentAttributes a.attrs b.attrs = true
  fields : a.fields = b.fields
  values : a.values.length = b.values.length
  statements : a.statements.length = b.statements.length
  next : a.next.isSome = b.next.isSome

variable {a b c : Block}

theorem equivalentSlots_iff {given rendered : Dict Block} :
    equivalentSlots given rendered = true ↔
      ∀ entry ∈ given, ∃ r, Dict.get? entry.1 rendered = some r ∧ entry.2.equivalent r = true := by
  refine ⟨fun h => ?_, equivalentSlots_of_forall⟩
  induction given with
  | nil => exact List.forall_mem_nil _
  | cons entry rest ih =>
    obtain ⟨name, b⟩ := entry
    rw [equivalentSlots, Bool.and_eq_true] at h
    refine List.forall_mem_cons.mpr ⟨?_, ih h.2⟩
    cases hr : Dict.get? name rendered with
    | none => simp [hr] at h
    | some r => exact ⟨r, rfl, by simpa [hr] using h.1⟩

theorem equivalentNext_iff {given rendered : Option Block} :
    equivalentNext given rendered = true ↔ given.isSome = rendered.isSome ∧
      ∀ x, given = some x → ∃ y, rendered = some y ∧ x.equivalent y = true := by
  cases given <;> cases rendered <;> simp [equivalentNext]

/-- A block is found again in another one if it is apart from its parts, and if each of its parts is found again in the
part of the other one that is reached in the same way. -/
theorem equivalent_iff : a.equivalent b = true ↔
    a.FoundApart b ∧ ∀ s x, (s, x) ∈ a.entries → ∃ y, b.part? s = some y ∧ x.equivalent y = true := by
  rw [equivalent_eq]
  simp only [Bool.and_eq_true, beq_iff_eq, equivalentSlots_iff, equivalentNext_iff, Prod.forall]
  constructor
  · rintro ⟨⟨⟨⟨⟨⟨⟨htag, hattrs⟩, hfields⟩, hvalues⟩, hvalue⟩, hstatements⟩, hstatement⟩, hnext, hpart⟩
    refine ⟨⟨htag, hattrs, hfields, hvalues, hstatements, hnext⟩, fun s x hx => ?_⟩
    cases s with
    | value slot => exact hvalue slot x (Step.mem_label_value.mp hx)
    | statement slot => exact hstatement slot x (Step.mem_label_statement.mp hx)
    | next => exact hpart x (Step.mem_label_next.mp hx)
  · rintro ⟨h, hparts⟩
    exact ⟨⟨⟨⟨⟨⟨⟨h.tag, h.attrs⟩, h.fields⟩, h.values⟩,
      fun slot x hx => hparts (.value slot) x (Step.mem_label_value.mpr hx)⟩, h.statements⟩,
      fun slot x hx => hparts (.statement slot) x (Step.mem_label_statement.mpr hx)⟩, h.next,
      fun x hx => hparts .next x (Step.mem_label_next.mpr hx)⟩

/-! ## A preorder -/

theorem equivalent_self (h : ∀ c ∈ a.reached, c.Ordered) : a.equivalent a = true := by
  induction a using part_induct with
  | h a ih =>
    have hordered := h a (mem_reached_self a)
    refine equivalent_iff.mpr ⟨⟨rfl, ?_, rfl, rfl, rfl, rfl⟩, fun s x hx => ?_⟩
    · simp [equivalentAttributes, reproduces_self hordered.mutation]
    · exact ⟨x, part?_of_mem_entries hordered.nodup_steps hx, ih (s, x) hx fun c hc => h c (reached_entry hx hc)⟩

theorem FoundApart.trans (h : a.FoundApart b) (h' : b.FoundApart c) : a.FoundApart c := by
  refine ⟨h.tag.trans h'.tag, ?_, h.fields.trans h'.fields, h.values.trans h'.values,
    h.statements.trans h'.statements, h.next.trans h'.next⟩
  have hattrs := h.attrs
  have hattrs' := h'.attrs
  simp only [equivalentAttributes, Bool.and_eq_true, beq_iff_eq] at hattrs hattrs' ⊢
  obtain ⟨⟨⟨⟨⟨hid, hdisabled⟩, hcollapsed⟩, hinline⟩, hcomment⟩, hmutation⟩ := hattrs
  obtain ⟨⟨⟨⟨⟨hid', hdisabled'⟩, hcollapsed'⟩, hinline'⟩, hcomment'⟩, hmutation'⟩ := hattrs'
  exact ⟨⟨⟨⟨⟨hid.trans hid', hdisabled.trans hdisabled'⟩, hcollapsed.trans hcollapsed'⟩, hinline.trans hinline'⟩,
    hcomment.trans hcomment'⟩, reproduces_trans hmutation hmutation'⟩

theorem equivalent_trans (h : a.equivalent b = true) (h' : b.equivalent c = true) : a.equivalent c = true := by
  induction a using part_induct generalizing b c with
  | h a ih =>
    obtain ⟨hfound, hparts⟩ := equivalent_iff.mp h
    obtain ⟨hfound', hparts'⟩ := equivalent_iff.mp h'
    refine equivalent_iff.mpr ⟨hfound.trans hfound', fun s x hx => ?_⟩
    obtain ⟨y, hy, hxy⟩ := hparts s x hx
    obtain ⟨z, hz, hyz⟩ := hparts' s y (mem_entries_of_part? hy)
    exact ⟨z, hz, ih (s, x) hx hxy hyz⟩

/-! ## The same names -/

/-- The blocks have the same identifier, tag and fields, and the same names of slots and of attributes. -/
structure SameNames (a b : Block) : Prop where
  id : a.id = b.id
  tag : a.tag = b.tag
  fields : a.fields = b.fields
  values : keys a.values = keys b.values
  statements : keys a.statements = keys b.statements
  mutation : ∀ key, key ∈ keys (a.attrs.mutation.getD []) ↔ key ∈ keys (b.attrs.mutation.getD [])

/-- The block at the end of the steps from a block. -/
def at? (b : Block) (steps : List Step) : Option Block :=
  steps.foldlM part? b

theorem at?_cons (s : Step) (steps : List Step) : a.at? (s :: steps) = (a.part? s).bind fun x => x.at? steps :=
  List.foldlM_cons

theorem keys_eq_of_found {given rendered : Dict Block} (hgiven : Dict.Sorted given) (hrendered : Dict.Sorted rendered)
    (hlength : given.length = rendered.length) (h : equivalentSlots given rendered = true) :
    keys given = keys rendered := by
  have hsubset : keys given ⊆ keys rendered := by
    intro slot hslot
    obtain ⟨entry, hentry, rfl⟩ := List.mem_map.mp hslot
    obtain ⟨r, hr, -⟩ := equivalentSlots_iff.mp h entry hentry
    exact Dict.mem_keys_of_get? hr
  have hperm : (keys given).Perm (keys rendered) := by
    refine (List.subperm_of_subset hgiven.nodup_keys hsubset).perm_of_length_le ?_
    simp [keys, hlength]
  exact hperm.eq_of_pairwise (fun _ _ _ _ hlt hlt' => absurd (String.lt_trans hlt hlt') (String.lt_irrefl _))
    hgiven hrendered

theorem sameNames_of_equivalent (ha : a.Ordered) (hb : b.Ordered) (h : a.equivalent b = true)
    (h' : b.equivalent a = true) : a.SameNames b := by
  simp only [equivalent_eq, equivalentAttributes, Bool.and_eq_true, beq_iff_eq] at h h'
  obtain ⟨⟨⟨⟨⟨⟨⟨htag, hid, hmutation⟩, hfields⟩, hlength⟩, hvalues⟩, hlength'⟩, hstatements⟩, -⟩ := h
  obtain ⟨⟨⟨⟨⟨⟨⟨-, -, hmutation'⟩, -⟩, -⟩, -⟩, -⟩, -⟩, -⟩ := h'
  refine ⟨hid.1.1.1.1, htag, hfields, keys_eq_of_found ha.values hb.values hlength hvalues,
    keys_eq_of_found ha.statements hb.statements hlength' hstatements, fun key => ?_⟩
  exact ⟨fun hkey => keys_subset_of_reproduces hmutation hkey, fun hkey => keys_subset_of_reproduces hmutation' hkey⟩

/-- If two blocks are found again in each other, so are their parts, whichever way these are reached. -/
theorem part?_of_equivalent (h : a.equivalent b = true) (h' : b.equivalent a = true) (s : Step) :
    (a.part? s = none ∧ b.part? s = none) ∨
      ∃ x y, a.part? s = some x ∧ b.part? s = some y ∧ x.equivalent y = true ∧ y.equivalent x = true := by
  obtain ⟨-, hparts⟩ := equivalent_iff.mp h
  obtain ⟨-, hparts'⟩ := equivalent_iff.mp h'
  cases hy : b.part? s with
  | some y =>
    obtain ⟨x, hx, hyx⟩ := hparts' s y (mem_entries_of_part? hy)
    obtain ⟨y', hy', hxy⟩ := hparts s x (mem_entries_of_part? hx)
    rw [hy, Option.some.injEq] at hy'
    exact .inr ⟨x, y, hx, rfl, hy' ▸ hxy, hyx⟩
  | none =>
    refine .inl ⟨Option.eq_none_iff_forall_ne_some.mpr fun x hx => ?_, rfl⟩
    obtain ⟨y, hy', -⟩ := hparts s x (mem_entries_of_part? hx)
    rw [hy] at hy'
    cases hy'

theorem sameNames_at (ha : ∀ x ∈ a.reached, x.Ordered) (hb : ∀ x ∈ b.reached, x.Ordered) (h : a.equivalent b = true)
    (h' : b.equivalent a = true) (steps : List Step) : Option.Rel SameNames (a.at? steps) (b.at? steps) := by
  induction steps generalizing a b with
  | nil => exact .some (sameNames_of_equivalent (ha a (mem_reached_self a)) (hb b (mem_reached_self b)) h h')
  | cons s steps ih =>
    rw [at?_cons, at?_cons]
    obtain ⟨hx, hy⟩ | ⟨x, y, hx, hy, hxy, hyx⟩ := part?_of_equivalent h h' s
    · rw [hx, hy]
      exact .none
    · rw [hx, hy]
      exact ih (fun z hz => ha z (reached_entry (mem_entries_of_part? hx) hz))
        (fun z hz => hb z (reached_entry (mem_entries_of_part? hy) hz)) hxy hyx

/-- Equivalence is a preorder, and blocks that are equivalent both ways have the same names wherever one goes. -/
theorem equivalent_preorder (a b c : Block) (ha : ∀ x ∈ a.reached, x.Ordered) (hb : ∀ x ∈ b.reached, x.Ordered) :
    a.equivalent a = true ∧ (a.equivalent b = true → b.equivalent c = true → a.equivalent c = true) ∧
      (a.equivalent b = true → b.equivalent a = true →
        ∀ steps, Option.Rel SameNames (a.at? steps) (b.at? steps)) :=
  ⟨equivalent_self ha, equivalent_trans, sameNames_at ha hb⟩

/-- The length of an empty list, with the type of the list in a spelling of its own. -/
def lengthBlock (listType : String) (further : Mutation) (comment : Option Comment) : Block :=
  { tag := "lists_length", attrs := { id := "n", comment },
    values := [("VALUE",
      { tag := "lists_create_with", attrs := { id := "l", mutation := some (further ++ [("list_type", listType)]) } })] }

theorem respelled_preorder :
    let a := lengthBlock "Number" [] (some { text := "" })
    let b := lengthBlock "NUMBER" [] none
    let c := lengthBlock "number" [("items", "0")] none
    (∀ x ∈ a.reached, x.Ordered) ∧ (∀ x ∈ b.reached, x.Ordered) ∧
      a.equivalent b = true ∧ b.equivalent c = true ∧ b.equivalent a = true ∧
      a.equivalent a = true ∧ a.equivalent c = true ∧ ∀ steps, Option.Rel SameNames (a.at? steps) (b.at? steps) := by
  intro a b c
  have ha : ∀ x ∈ a.reached, x.Ordered := by decide +kernel
  have hb : ∀ x ∈ b.reached, x.Ordered := by decide +kernel
  have hab : a.equivalent b = true := by decide +kernel
  have hbc : b.equivalent c = true := by decide +kernel
  have hba : b.equivalent a = true := by decide +kernel
  obtain ⟨hself, htrans, hnames⟩ := equivalent_preorder a b c ha hb
  exact ⟨ha, hb, hab, hbc, hba, hself, htrans hab hbc, hnames hab hba⟩

end Blockwork.Block
