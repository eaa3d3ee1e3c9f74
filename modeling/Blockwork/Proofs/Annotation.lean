import Blockwork.Proofs.Equivalence
import Blockwork.Proofs.RuleEquations
import Blockwork.Proofs.Slots

/-! # Nodes with the attributes they are rendered with

A node that comes from a block comes from the block it is rendered as too, once its attributes are those it is
rendered with. It is rendered as the same block then.
-/

namespace Blockwork

set_option autoImplicit false

open List (Forall₂ range)

namespace Attributes

theorem Informs.refl (a : Attributes) : a.Informs a :=
  fun _ _ _ h => h

variable {a a' : Attributes} {key : String}

theorem Informs.derive (h : a.Informs a') (hkey : key ∉ ["datatype", "list_type"]) (value : String) :
    a.Informs (a'.derive key value) := by
  intro key' hkey' kept hkept
  rw [mutation?_derive_of_ne]
  · exact h key' hkey' kept hkept
  · rintro rfl
    exact hkey hkey'

theorem Informs.deriveType {b : Block} {t : Ty} (h : a.Informs a')
    (hkey : key = "datatype" ∨ key = "list_type") (hdeclares : b.Declares key t)
    (ha' : a'.mutation? key = b.attrs.mutation? key) : a.Informs (a'.deriveType key t) := by
  unfold Attributes.deriveType
  split
  · next name hname =>
    intro key' hkey' kept hkept
    refine mutation?_derive_of_keeps (fun kept hkept => ?_) (h key' hkey' kept hkept)
    exact (Block.keeps_type_iff hkey hname (ha' ▸ hkept)).mpr hdeclares
  · exact h

def Written (a : Attributes) : Prop :=
  a.writtenComment = a.comment

theorem Written.derive (h : a.Written) (key value : String) : (a.derive key value).Written := by
  obtain ⟨mutation, e⟩ := a.derive_eq key value
  rw [e]
  exact h

theorem Written.deriveType (h : a.Written) (key : String) (t : Ty) : (a.deriveType key t).Written := by
  unfold Attributes.deriveType
  split
  · exact h.derive key _
  · exact h

end Attributes

namespace Block

variable {b : Block}

theorem written_nodeAttrs (b : Block) : b.nodeAttrs.Written :=
  Attributes.writtenComment_writtenComment b.attrs

theorem nodeAttrs_of_written {a : Attributes} (hattrs : b.attrs = a) (h : a.Written) : b.nodeAttrs = a := by
  subst hattrs
  unfold nodeAttrs
  rw [h]

/-! ## Numbered slots -/

/-- No block that is reached has more values than a machine number can count. A dictionary in memory never
has. -/
def Countable (b : Block) : Prop :=
  ∀ c ∈ b.reached, c.values.length < UInt64.size

instance (b : Block) : Decidable b.Countable :=
  inferInstanceAs (Decidable (∀ c ∈ b.reached, c.values.length < UInt64.size))

theorem Countable.mono {c : Block} (h : b.Countable) (hc : c.reached ⊆ b.reached) : c.Countable :=
  fun part hpart => h part (hc hpart)

theorem Countable.value {c : Block} {slot : String} (h : b.Countable) (hplug : b.Plugged slot c) : c.Countable :=
  h.mono (reached_value hplug.value)

theorem Countable.body (h : b.Countable) (slot : String) : ∀ c ∈ b.body slot, c.Countable :=
  fun _ hc => h.mono (reached_of_mem_body hc)

section Numbered

variable {r base : Block} {name : Nat → String} {children : List Block}
  (hr : r.values = (base.withValues (numbered name 0 children)).values) (hbase : base.values = [])

include hr

theorem plugged_numbered (hname : Function.Injective name) (halone : ∀ c ∈ children, c.next = none) :
    Forall₂ r.Plugged ((range children.length).map name) children := by
  refine List.forall₂_iff_get.mpr ⟨by simp, fun k hk hk' => ⟨?_, halone _ (List.get_mem children _)⟩⟩
  have hvalue := @value?_withValues base name hname 0 k children _ (List.getElem?_eq_getElem hk')
  rw [Nat.zero_add] at hvalue
  rw [value?] at hvalue ⊢
  rw [hr]
  simpa using hvalue

include hbase

theorem keys_numbered : Dict.keys r.values ⊆ (range children.length).map name := by
  intro slot hslot
  by_contra hne
  have hnone : (base.withValues (numbered name 0 children)).value? slot = none := by
    rw [value?_withValues_of_ne, value?, hbase]
    · rfl
    · rintro k hk rfl
      rw [Nat.zero_add] at hne
      exact hne (List.mem_map_of_mem (List.mem_range.mpr hk))
  rw [hr, ← Dict.isSome_get?_iff] at hslot
  rw [value?] at hnone
  rw [hnone] at hslot
  cases hslot

end Numbered

theorem length_le_values {name : Nat → String} (hname : Function.Injective name) {n : Nat}
    {children : List Block} (h : Forall₂ b.Plugged ((range n).map name) children) : n ≤ b.values.length := by
  have hsubset : (range n).map name ⊆ Dict.keys b.values := by
    intro slot hslot
    obtain ⟨c, -, hplugged⟩ := exists_of_mem_left h hslot
    exact Dict.mem_keys_of_get? hplugged.value
  have hle := (List.subperm_of_subset (List.nodup_range.map hname) hsubset).length_le
  simpa [Dict.keys] using hle

end Block

/-! ## Expressions -/

namespace Expr

attribute [local simp] toBlock toBlocks

structure Annotates (q' q : Expr) : Prop where
  comesFrom : q'.ComesFrom q.toBlock
  toBlock_eq : q'.toBlock = q.toBlock
  informs : q.Below Attributes.Informs q'

def Annotable (q : Expr) : Prop :=
  ∀ b : Block, q.ComesFrom b → b.Countable → ∃ q' : Expr, q'.Annotates q

theorem comesFrom_of_written {r : Block} {a : Attributes} {f : Attributes → Expr} (hattrs : r.attrs = a)
    (ha : a.Written) (h : (f r.nodeAttrs).ComesFrom r) : (f a).ComesFrom r := by
  rwa [Block.nodeAttrs_of_written hattrs ha] at h

theorem annotable_var (v : Var) : (var v).Annotable := by
  intro b hfrom _
  cases hfrom with | var htag hname hdeclares hattrs => ?_
  have hmutation : v.attrs.mutation? "datatype" = b.attrs.mutation? "datatype" := by
    rw [hattrs]
    rfl
  have hwritten : v.attrs.Written := by
    rw [hattrs]
    exact b.written_nodeAttrs
  refine ⟨var { v with attrs := v.attrs.deriveType "datatype" v.type }, ?_, ?_, .var ⟨rfl, .refl _, ?_⟩⟩
  · rw [toBlock, Var.toBlock]
    refine .var rfl ⟨rfl, hname.visible⟩ (hdeclares.deriveType (.inl rfl) hmutation rfl) ?_
    exact Eq.symm (Block.nodeAttrs_of_written rfl (hwritten.deriveType "datatype" v.type))
  · rw [toBlock, toBlock, Var.toBlock, Var.toBlock, Block.deriveType_deriveType (.inl rfl)]
  · exact (Attributes.Informs.refl v.attrs).deriveType (.inl rfl) hdeclares hmutation

theorem annotable_binary {op : BinaryOp} {l r : Expr} (attrs : Attributes) (hl : l.Annotable) (hr : r.Annotable) :
    (binary op l r attrs).Annotable := by
  intro b hfrom hb
  cases hfrom with | binary htag hfield hplugA hplugB hfromA hfromB => ?_
  obtain ⟨l', hl'⟩ := hl _ hfromA (hb.value hplugA)
  obtain ⟨r', hr'⟩ := hr _ hfromB (hb.value hplugB)
  refine ⟨binary op l' r' b.nodeAttrs, ?_, ?_, .binary hl'.informs hr'.informs (.refl _)⟩
  · rw [toBlock]
    refine comesFrom_of_written (f := binary op l' r') rfl b.written_nodeAttrs ?_
    exact .binary rfl rfl ⟨rfl, l.next_toBlock⟩ ⟨rfl, r.next_toBlock⟩ hl'.comesFrom hr'.comesFrom
  · rw [toBlock, toBlock, hl'.toBlock_eq, hr'.toBlock_eq]

theorem annotable_unary {op : UnaryOp} {operand : Expr} (attrs : Attributes) (hoperand : operand.Annotable) :
    (unary op operand attrs).Annotable := by
  intro b hfrom hb
  cases hfrom with | unary htag hfield hplug hfrom => ?_
  obtain ⟨operand', hoperand'⟩ := hoperand _ hfrom (hb.value hplug)
  refine ⟨unary op operand' b.nodeAttrs, ?_, ?_, .unary hoperand'.informs (.refl _)⟩
  · rw [toBlock]
    refine comesFrom_of_written (f := unary op operand') rfl b.written_nodeAttrs ?_
    refine .unary rfl (fun word hword => ?_) ⟨?_, operand.next_toBlock⟩ hoperand'.comesFrom
    · rw [Block.field?, hword]
      rfl
    · exact if_pos rfl
  · rw [toBlock, toBlock, hoperand'.toBlock_eq]

theorem annotable_length {operand : Expr} (attrs : Attributes) (hoperand : operand.Annotable) :
    (length operand attrs).Annotable := by
  intro b hfrom hb
  cases hfrom with | length htag hplug hfrom => ?_
  obtain ⟨operand', hoperand'⟩ := hoperand _ hfrom (hb.value hplug)
  refine ⟨length operand' b.nodeAttrs, ?_, ?_, .length hoperand'.informs (.refl _)⟩
  · rw [toBlock]
    refine comesFrom_of_written (f := length operand') rfl b.written_nodeAttrs ?_
    exact .length rfl ⟨rfl, operand.next_toBlock⟩ hoperand'.comesFrom
  · rw [toBlock, toBlock, hoperand'.toBlock_eq]

/-! ## Values with items -/

variable {items items' : List Expr}

theorem exists_annotates_items {b : Block} {slots : List String} {children : List Block}
    (hplugged : Forall₂ b.Plugged slots children) (hfrom : Forall₂ ComesFrom items children)
    (hb : b.Countable) (hitems : ∀ e ∈ items, e.Annotable) :
    ∃ items' : List Expr, Forall₂ Annotates items' items := by
  induction hfrom generalizing slots with
  | nil => exact ⟨[], .nil⟩
  | cons hfrom _ ih =>
    cases hplugged with | cons hplug hplugs => ?_
    obtain ⟨hitem, hrest⟩ := List.forall_mem_cons.mp hitems
    obtain ⟨e', he'⟩ := hitem _ hfrom (hb.value hplug)
    obtain ⟨rest', hrest'⟩ := ih hplugs hrest
    exact ⟨e' :: rest', .cons he' hrest'⟩

theorem toBlocks_of_annotates (h : Forall₂ Annotates items' items) : toBlocks items' = toBlocks items := by
  induction h with
  | nil => rfl
  | cons hhead _ ih => rw [toBlocks, toBlocks, hhead.toBlock_eq, ih]

theorem comesFrom_of_annotates (h : Forall₂ Annotates items' items) : Forall₂ ComesFrom items' (toBlocks items) := by
  rw [toBlocks_eq_map, List.forall₂_map_right_iff]
  exact h.imp fun _ _ => Annotates.comesFrom

theorem informs_of_annotates (h : Forall₂ Annotates items' items) : Forall₂ (Below Attributes.Informs) items items' :=
  h.flip.imp fun _ _ => Annotates.informs

section Items

variable {b r base : Block} {children : List Block} {items : List Expr} {attrs : Attributes}
  (hholds : b.Holds children) (hfrom : Forall₂ ComesFrom items children) (hb : b.Countable)

include hholds hfrom hb in
theorem length_lt_of_holds : items.length < UInt64.size := by
  have hle := Block.length_le_values Block.itemSlot_injective hholds.plugged
  rw [hfrom.length_eq]
  exact Nat.lt_of_le_of_lt hle (hb b b.mem_reached_self)

theorem holds_numbered (hr : r.values = (base.withValues (numbered Block.itemSlot 0 (toBlocks items))).values)
    (hbase : base.values = []) (hstatements : r.statements = [])
    (hcount : r.declaredCount "items" = .ok (some items.length)) : r.Holds (toBlocks items) := by
  have hlength : (toBlocks items).length = items.length := by rw [toBlocks_eq_map, List.length_map]
  have halone : ∀ c ∈ toBlocks items, c.next = none := by
    rw [toBlocks_eq_map]
    intro c hc
    obtain ⟨e, -, rfl⟩ := List.mem_map.mp hc
    exact e.next_toBlock
  have hplugged := Block.plugged_numbered hr Block.itemSlot_injective halone
  refine ⟨Block.itemSlots_ok_iff.mpr ⟨?_, Block.refuseOthers_ok_iff.mpr ⟨?_, ?_⟩⟩, hplugged⟩
  · exact Block.itemCount_of_declaredCount (hlength ▸ hcount)
      (Block.length_le_values Block.itemSlot_injective hplugged)
  · exact Block.keys_numbered hr hbase
  · rw [hstatements]
    exact List.nil_subset _

end Items

def listAttrs (attrs : Attributes) (n : Nat) (element : Ty) : Attributes :=
  (attrs.derive "items" (Text.natText n)).deriveType "list_type" element

theorem toBlock_list (element : Ty) (items : List Expr) (attrs : Attributes) :
    (list element items attrs).toBlock =
      ({ tag := Tag.list.name, attrs := listAttrs attrs items.length element } : Block).withValues
        (numbered Block.itemSlot 0 (toBlocks items)) := by
  rw [toBlock]
  rfl

theorem mutation?_listAttrs (attrs : Attributes) (n : Nat) (element : Ty) :
    (listAttrs attrs n element).mutation? "items" = (attrs.derive "items" (Text.natText n)).mutation? "items" :=
  Attributes.mutation?_deriveType_of_ne _ element (by decide)

theorem listAttrs_listAttrs (attrs : Attributes) {n : Nat} (element : Ty) (hn : n < UInt64.size) :
    listAttrs (listAttrs attrs n element) n element = listAttrs attrs n element := by
  obtain ⟨kept, hkept, hkeeps⟩ := attrs.exists_mutation?_derive
    (Block.keeps_natText_self (by decide : ¬("items" = "datatype" ∨ "items" = "list_type")) (by decide) hn)
  have hsame : (listAttrs attrs n element).derive "items" (Text.natText n) = listAttrs attrs n element :=
    Attributes.derive_of_keeps ((mutation?_listAttrs attrs n element).trans hkept) hkeeps
  rw [listAttrs, hsame]
  exact Block.deriveType_deriveType (.inr rfl)

theorem annotable_list {element : Ty} (attrs : Attributes)
    (hitems : ∀ e ∈ items, e.Annotable) : (list element items attrs).Annotable := by
  intro b hfrom hb
  cases hfrom with | list htag hdeclares hholds hfrom => ?_
  obtain ⟨items', hitems'⟩ := exists_annotates_items hholds.plugged hfrom hb hitems
  have hsize : items.length < UInt64.size := length_lt_of_holds hholds hfrom hb
  have hwritten : (listAttrs b.nodeAttrs items.length element).Written :=
    (b.written_nodeAttrs.derive _ _).deriveType _ _
  have hmutation : (b.nodeAttrs.derive "items" (Text.natText items.length)).mutation? "list_type" =
      b.attrs.mutation? "list_type" := Attributes.mutation?_derive_of_ne _ _ (by decide)
  refine ⟨list element items' (listAttrs b.nodeAttrs items.length element), ?_, ?_,
    .list (.refl _) (informs_of_annotates hitems') ?_⟩
  · rw [toBlock_list]
    obtain ⟨hextends, hstatements⟩ := Block.extends_withValues
      { tag := Tag.list.name, attrs := listAttrs b.nodeAttrs items.length element }
      (numbered Block.itemSlot 0 (toBlocks items))
    refine comesFrom_of_written (f := list element items') hextends.attrs hwritten ?_
    refine .list hextends.tag (hdeclares.deriveType (.inr rfl) hmutation ?_)
      (holds_numbered rfl rfl hstatements ?_) (comesFrom_of_annotates hitems')
    · rw [hextends.attrs, listAttrs]
    · refine @Block.declaredCount_of_derive _ _ b.nodeAttrs _ (by decide) (by decide) hsize ?_
      rw [hextends.attrs, mutation?_listAttrs]
  · rw [toBlock_list, toBlock_list, hitems'.length_eq, listAttrs_listAttrs _ _ hsize, toBlocks_of_annotates hitems']
  · exact ((Attributes.Informs.refl _).derive (by decide) _).deriveType (.inr rfl) hdeclares hmutation

theorem annotable_join (attrs : Attributes) (hitems : ∀ e ∈ items, e.Annotable) : (join items attrs).Annotable := by
  intro b hfrom hb
  cases hfrom with | join htag hholds hfrom => ?_
  obtain ⟨items', hitems'⟩ := exists_annotates_items hholds.plugged hfrom hb hitems
  have hsize : items.length < UInt64.size := length_lt_of_holds hholds hfrom hb
  have hself : keeps "items" (Text.natText items.length) (Text.natText items.length) = true :=
    Block.keeps_natText_self (by decide) (by decide) hsize
  refine ⟨join items' (b.nodeAttrs.derive "items" (Text.natText items.length)), ?_, ?_,
    .join (informs_of_annotates hitems') ((Attributes.Informs.refl _).derive (by decide) _)⟩
  · rw [toBlock]
    obtain ⟨hextends, hstatements⟩ := Block.extends_withValues
      { tag := Tag.join.name, attrs := b.nodeAttrs.derive "items" (Text.natText items.length) }
      (numbered Block.itemSlot 0 (toBlocks items))
    refine comesFrom_of_written (f := join items') hextends.attrs
      (b.written_nodeAttrs.derive _ _) ?_
    refine .join hextends.tag (holds_numbered rfl rfl hstatements ?_) (comesFrom_of_annotates hitems')
    refine @Block.declaredCount_of_derive _ _ b.nodeAttrs _ (by decide) (by decide) hsize ?_
    rw [hextends.attrs]
  · rw [toBlock, toBlock, hitems'.length_eq, Attributes.derive_derive _ hself, toBlocks_of_annotates hitems']

theorem exists_annotates (q : Expr) : q.Annotable := by
  induction q with
  | var v => exact annotable_var v
  | number literal value attrs =>
    intro b hfrom _
    cases hfrom with | number htag hfield hvalue => ?_
    refine ⟨number literal value b.nodeAttrs, ?_, rfl, .number (.refl _)⟩
    rw [toBlock]
    exact comesFrom_of_written (f := number literal value) rfl
      b.written_nodeAttrs (.number rfl rfl hvalue)
  | boolean value attrs =>
    intro b hfrom _
    cases hfrom with | boolean htag hfield => ?_
    refine ⟨boolean value b.nodeAttrs, ?_, rfl, .boolean (.refl _)⟩
    rw [toBlock]
    exact comesFrom_of_written (f := boolean value) rfl
      b.written_nodeAttrs (.boolean rfl rfl)
  | text value attrs =>
    intro b hfrom _
    cases hfrom with | text htag hfield => ?_
    refine ⟨text value b.nodeAttrs, ?_, rfl, .text (.refl _)⟩
    rw [toBlock]
    exact comesFrom_of_written (f := text value) rfl
      b.written_nodeAttrs (.text rfl rfl)
  | binary _ _ _ attrs hl hr => exact annotable_binary attrs hl hr
  | unary _ _ attrs hoperand => exact annotable_unary attrs hoperand
  | list _ _ attrs hitems => exact annotable_list attrs hitems
  | length _ attrs hoperand => exact annotable_length attrs hoperand
  | join _ attrs hitems => exact annotable_join attrs hitems

end Expr

end Blockwork
