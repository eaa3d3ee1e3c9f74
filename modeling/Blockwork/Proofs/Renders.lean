import Blockwork.Proofs.Equivalence
import Blockwork.Proofs.Places
import Blockwork.Proofs.Slots
import Blockwork.Proofs.Words

/-! # Rendered blocks

* `Tag.fields`, `Tag.values` and `Tag.statements` say what the rule of a tag reads.
* `Block.Renders` relates a rendered block and the one from which its node comes. `Block.Rebuilds` says what the
  one has of the other.
* `Block.Renders.exists_rendered` and `Block.Renders.exists_given` say that the parts of the one are rendered from
  the parts of the other that are read, in the same slots.
-/

namespace Blockwork

set_option autoImplicit false

open List (range Forall₂ mem_map mem_range forall_mem_nil forall_mem_singleton)

/-! ## What the rule of a tag reads -/

namespace Tag

def fields : Tag → List String
  | assign | count | forEach | var => ["VAR"]
  | loop => ["MODE"]
  | flow => ["FLOW"]
  | number => ["NUM"]
  | boolean => ["BOOL"]
  | text => ["TEXT"]
  | arithmetic | compare | logic | function => ["OP"]
  | choose | .repeat | wait | print | negate | list | length | join => []

def values (filled : Nat) : Tag → List String
  | choose => (range filled).map Block.conditionSlot
  | list | join => (range filled).map Block.itemSlot
  | assign | length => ["VALUE"]
  | .repeat => ["TIMES"]
  | loop | negate => ["BOOL"]
  | count => ["BY", "FROM", "TO"]
  | forEach => ["LIST"]
  | wait => ["WAIT"]
  | print => ["TEXT"]
  | arithmetic | compare | logic => ["A", "B"]
  | function => ["NUM"]
  | flow | var | number | boolean | text => []

def statements (filled : Nat) : Tag → List String
  | choose => (range filled).map Block.branchSlot ++ ["ELSE"]
  | .repeat | loop | count | forEach => ["DO"]
  | _ => []

end Tag

theorem Tag.mem_all (tag : Tag) : tag ∈ Tag.all := by
  cases tag <;> decide

theorem BinaryOp.exists_tag (op : BinaryOp) :
    ∃ tag : Tag, op.tag = tag.name ∧ tag.fields = ["OP"] ∧ (∀ n, tag.values n = ["A", "B"]) ∧
      ∀ n, tag.statements n = [] := by
  cases op with
  | add | minus | multiply | divide | power => exact ⟨.arithmetic, rfl, rfl, fun _ => rfl, fun _ => rfl⟩
  | eq | neq | lt | lte | gt | gte => exact ⟨.compare, rfl, rfl, fun _ => rfl, fun _ => rfl⟩
  | and | or => exact ⟨.logic, rfl, rfl, fun _ => rfl, fun _ => rfl⟩

theorem UnaryOp.exists_tag (op : UnaryOp) :
    ∃ tag : Tag, op.tag = tag.name ∧ (op.word? = none → tag.fields = []) ∧
      (op.word?.isSome = true → tag.fields = ["OP"]) ∧ (∀ n, tag.values n = [op.slot]) ∧
      ∀ n, tag.statements n = [] := by
  cases op with
  | not => exact ⟨.negate, rfl, fun _ => rfl, nofun, fun _ => rfl, fun _ => rfl⟩
  | _ => exact ⟨.function, rfl, nofun, fun _ => rfl, fun _ => rfl, fun _ => rfl⟩

/-- Whether the rule of the tag refuses a block with a slot that it does not read. -/
def Tag.refusesOthers : Tag → Bool
  | choose | list | join => true
  | _ => false

theorem Tag.values_zero {tag : Tag} (h : tag.refusesOthers = true) : tag.values 0 = [] := by
  cases tag with
  | choose | list | join => rfl
  | _ => cases h

/-! ## Attributes -/

namespace Attributes

/-- The identifier is kept, and so are the order of the mutation and that it has an attribute. -/
structure Preserves (r a : Attributes) : Prop where
  id : r.id = a.id
  sorted : Dict.Sorted (a.mutation.getD []) → Dict.Sorted (r.mutation.getD [])
  solid : a.mutation ≠ some [] → r.mutation ≠ some []

variable {r a : Attributes}

theorem preserves_nodeAttrs (b : Block) : b.nodeAttrs.Preserves b.attrs :=
  ⟨rfl, fun h => h, fun h => h⟩

theorem Preserves.derive (h : r.Preserves a) (key value : String) : (r.derive key value).Preserves a := by
  rcases r.derive_cases key value with ⟨kept, -, -, e⟩ | ⟨-, e⟩
  · rw [e]
    exact h
  · rw [e]
    refine ⟨h.id, fun ha => Dict.sorted_insert _ _ _ (h.sorted ha), fun _ hempty => ?_⟩
    have hget := Dict.get?_insert key key value (r.mutation.getD [])
    rw [Option.some.inj hempty, if_pos rfl] at hget
    cases hget

theorem Preserves.deriveType (h : r.Preserves a) (key : String) (t : Ty) : (r.deriveType key t).Preserves a := by
  unfold Attributes.deriveType
  split
  · exact h.derive key _
  · exact h

theorem Preserves.chooseAttrs (h : r.Preserves a) (branches : Nat) (hasElse : Bool) :
    (Stmt.chooseAttrs r branches hasElse).Preserves a := by
  have hfurther : (if 1 < branches then r.derive "elseif" (Text.natText (branches - 1)) else r).Preserves a := by
    split
    · exact h.derive _ _
    · exact h
  unfold Stmt.chooseAttrs
  dsimp only
  split
  · exact hfurther.derive _ _
  · exact hfurther

end Attributes

namespace Block

variable {n : Nat} {body : List Stmt} {key : String} {base : Block}

/-- The block has nothing that the rule of its tag does not read, and no blank text where a count of items or
the count of last branches is read. -/
structure Plain (b : Block) : Prop where
  fields : ∀ tag ∈ Tag.all, b.tag = tag.name → Dict.keys b.fields ⊆ tag.fields
  values : ∀ tag ∈ Tag.all, b.tag = tag.name → Dict.keys b.values ⊆ tag.values b.values.length
  statements : ∀ tag ∈ Tag.all, b.tag = tag.name →
    Dict.keys b.statements ⊆ tag.statements b.values.length
  counts : ∀ key ∈ ["items", "else"], ∀ text ∈ b.attrs.mutation? key,
    (Text.strip text.toList).isEmpty = false

instance (b : Block) : Decidable b.Plain :=
  decidable_of_iff
    ((∀ tag ∈ Tag.all, b.tag = tag.name → Dict.keys b.fields ⊆ tag.fields ∧
        Dict.keys b.values ⊆ tag.values b.values.length ∧
        Dict.keys b.statements ⊆ tag.statements b.values.length) ∧
      ∀ key ∈ ["items", "else"], ∀ text ∈ b.attrs.mutation? key, (Text.strip text.toList).isEmpty = false)
    ⟨fun h => ⟨fun tag ht e => (h.1 tag ht e).1, fun tag ht e => (h.1 tag ht e).2.1,
        fun tag ht e => (h.1 tag ht e).2.2, h.2⟩,
      fun h => ⟨fun tag ht e => ⟨h.fields tag ht e, h.values tag ht e, h.statements tag ht e⟩, h.counts⟩⟩

variable {b r : Block}

theorem extends_deriveType {r : Attributes} {t : Ty} (hkey : key = "datatype" ∨ key = "list_type")
    (hdeclares : b.Declares key t) (hr : r.Extends b.attrs) (hsame : r.mutation? key = b.attrs.mutation? key) :
    (r.deriveType key t).Extends b.attrs := by
  refine hr.deriveType fun name kept hname hkept => ?_
  rw [hsame] at hkept
  exact (keeps_type_iff hkey hname hkept).mpr hdeclares

theorem exists_count {text : String} {count : Option Nat} (htext : b.attrs.mutation? key = some text)
    (hvisible : (Text.strip text.toList).isEmpty = false) (h : b.declaredCount key = .ok count) :
    ∃ n, count = some n := by
  rw [declaredCount_of_mutation? htext, hvisible, if_neg Bool.false_ne_true] at h
  split at h
  · exact ⟨_, (Except.ok.inj h).symm⟩
  · cases h

theorem extends_items (hb : b.Plain) (h : b.itemCount = .ok n) :
    (b.nodeAttrs.derive "items" (Text.natText n)).Extends b.attrs := by
  refine (Attributes.extends_nodeAttrs b).derive fun kept hkept => ?_
  have hvisible := hb.counts "items" (by decide) kept hkept
  obtain ⟨count, hcount, -⟩ := Except.bind_ok_iff.mp h
  have hdeclared := (boundedCount_ok_iff.mp hcount).1
  obtain ⟨m, rfl⟩ := exists_count hkept hvisible hdeclared
  cases declaredCount_of_itemCount h hdeclared
  exact (keeps_count_iff (by decide) (by decide) (declaredCount_lt hdeclared) hkept).mpr hdeclared

theorem extends_chooseAttrs {hasElse : Bool} (hb : b.Plain) (h : b.Branches n hasElse) :
    (Stmt.chooseAttrs b.nodeAttrs n hasElse).Extends b.attrs := by
  have hfurther : (if 1 < n then b.nodeAttrs.derive "elseif" (Text.natText (n - 1))
      else b.nodeAttrs).Extends b.attrs := by
    split
    · next hn =>
      refine (Attributes.extends_nodeAttrs b).derive fun kept hkept => ?_
      obtain ⟨count, hcount, rfl⟩ := h.further
      have hdeclared := (boundedCount_ok_iff.mp hcount).1
      cases count with
      | none => simp at hn
      | some m =>
        exact (keeps_count_iff (by decide) (by decide) (declaredCount_lt hdeclared) hkept).mpr hdeclared
    · exact Attributes.extends_nodeAttrs b
  unfold Stmt.chooseAttrs
  dsimp only
  split
  · refine hfurther.derive fun kept hkept => ?_
    have hsame : b.attrs.mutation? "else" = some kept := by
      split at hkept
      · rwa [Attributes.mutation?_derive_of_ne _ _ (by decide)] at hkept
      · exact hkept
    obtain ⟨count, hcount, -⟩ := h.last
    obtain ⟨m, rfl⟩ := exists_count hsame (hb.counts "else" (by decide) kept hsame) hcount
    exact (keeps_else_iff hsame).mpr ⟨m, hcount⟩
  · exact hfurther

/-- Rendered attributes say what the attributes of the block say, in so far as the block is plain. -/
structure Carries (b : Block) (r : Attributes) : Prop where
  preserves : r.Preserves b.attrs
  extended : b.Plain → r.Extends b.attrs

theorem carries_nodeAttrs (b : Block) : b.Carries b.nodeAttrs :=
  ⟨Attributes.preserves_nodeAttrs b, fun _ => Attributes.extends_nodeAttrs b⟩

theorem Carries.deriveType {a : Attributes} {t : Ty} (h : b.Carries a) (hkey : key = "datatype" ∨ key = "list_type")
    (hdeclares : b.Declares key t) (hsame : a.mutation? key = b.attrs.mutation? key) :
    b.Carries (a.deriveType key t) :=
  ⟨h.preserves.deriveType key t, fun hb => extends_deriveType hkey hdeclares (h.extended hb) hsame⟩

/-! ## Slots -/

def reads (b : Block) : Step → Bool
  | .value slot => (Tag.ofName? b.tag).any fun tag => (tag.values b.values.length).contains slot
  | .statement slot => (Tag.ofName? b.tag).any fun tag => (tag.statements b.values.length).contains slot
  | .next => true

def Renders (r b : Block) : Prop :=
  ∃ root : Root, root.ComesFrom b ∧ root.toBlock? = some r

def RendersSlots (read : List String) (rendered given : String → Option Block) : Prop :=
  ∀ slot, (slot ∈ read → Option.Rel Renders (rendered slot) (given slot)) ∧ (slot ∉ read → rendered slot = none)

/-- The slots of a rendered block, for the rule that reads the other block. -/
structure RendersBy (tag : Tag) (r b : Block) : Prop where
  named : b.tag = tag.name
  values : RendersSlots (tag.values b.values.length) r.value? b.value?
  statements : RendersSlots (tag.statements b.values.length) r.statement? b.statement?
  others : tag.refusesOthers = true →
    Dict.keys b.values ⊆ tag.values b.values.length ∧ Dict.keys b.statements ⊆ tag.statements b.values.length

variable {b r : Block}

theorem passes {tag : Tag} {P : Prop} (h : tag.refusesOthers = false) : tag.refusesOthers = true → P := by
  intro hothers
  rw [h] at hothers
  cases hothers

theorem renders_plugged {child : Block} {slot : String} {e : Expr} (h : b.Plugged slot child)
    (hfrom : e.ComesFrom child) : Renders e.toBlock child :=
  ⟨.value e, ⟨hfrom, h.alone⟩, rfl⟩

theorem rel_link {next : Option Block} (h : Forall₂ Stmt.ComesFrom body (chainFrom next)) :
    Option.Rel Renders (link (Stmt.toBlocks body)) next := by
  cases next with
  | none =>
    rw [chainFrom_none] at h
    cases h
    rw [Stmt.toBlocks]
    exact .none
  | some first =>
    rw [chainFrom_some] at h
    have hroot : (Root.statements body).ComesFrom first := h
    rw [chain_eq] at h
    cases h with
    | @cons s _ rest _ _ _ =>
      rw [Stmt.toBlocks, link_cons]
      refine .some ⟨.statements (s :: rest), hroot, ?_⟩
      rw [Root.toBlock?, Stmt.toBlocks, link_cons]

theorem rendersSlots_nil (given : String → Option Block) : RendersSlots [] (fun _ => none) given :=
  fun _ => ⟨fun h => absurd h List.not_mem_nil, fun _ => rfl⟩

theorem rendersSlots_entries {values : Dict Block} {given : String → Option Block} (hsorted : Dict.Sorted values)
    (h : ∀ entry ∈ values, ∃ d, given entry.1 = some d ∧ Renders entry.2 d) :
    RendersSlots (Dict.keys values) (fun slot => Dict.get? slot values) given := by
  intro slot
  refine ⟨fun hslot => ?_, Dict.get?_eq_none_iff.mpr⟩
  obtain ⟨⟨name, c⟩, hentry, rfl⟩ := mem_map.mp hslot
  obtain ⟨d, hd, hrenders⟩ := h _ hentry
  dsimp only at hd ⊢
  rw [hsorted.get?_of_mem hentry, hd]
  exact .some hrenders

theorem rendersSlots_numbered {name : Nat → String} (hname : Function.Injective name)
    {children rendered : List Block} (hplugged : Forall₂ b.Plugged ((range n).map name) children)
    (hrenders : Forall₂ Renders rendered children) (hbase : base.values = []) :
    RendersSlots ((range n).map name) (base.withValues (numbered name 0 rendered)).value? b.value? := by
  have hchildren : n = children.length := by simpa using hplugged.length_eq
  have hrendered : rendered.length = children.length := hrenders.length_eq
  intro slot
  constructor
  · intro hslot
    obtain ⟨k, hk, rfl⟩ := mem_map.mp hslot
    have hk' := mem_range.mp hk
    have hplug := hplugged.get (i := k) (by simpa using hk') (by omega)
    have hback := @value?_withValues base name hname 0 k rendered _ (List.getElem?_eq_getElem (by omega))
    simp only [List.get_eq_getElem, List.getElem_map, List.getElem_range] at hplug
    rw [Nat.zero_add] at hback
    rw [hback, hplug.value]
    exact .some (hrenders.get (by omega) (by omega))
  · intro hslot
    rw [value?_withValues_of_ne, value?, hbase]
    · rfl
    · intro k hk e
      rw [Nat.zero_add] at e
      exact hslot (mem_map.mpr ⟨k, mem_range.mpr (by omega), e.symm⟩)

theorem rendersSlots_body (hbase : base.statements = []) (hfrom : Forall₂ Stmt.ComesFrom body (b.body "DO")) :
    RendersSlots ["DO"] (base.withBody "DO" (Stmt.toBlocks body)).statement? b.statement? := by
  have hempty : ∀ slot, base.statement? slot = none := by
    intro slot
    rw [statement?, hbase]
    rfl
  intro slot
  rw [statement?_withBody (hempty "DO"), hempty slot, List.mem_singleton]
  by_cases hslot : "DO" = slot
  · subst hslot
    simpa using rel_link hfrom
  · rw [if_neg hslot]
    exact ⟨fun h => absurd h.symm hslot, fun _ => rfl⟩

theorem rendersSlots_branches {branches : List (Expr × List Stmt)} {otherwise : Option (List Stmt)}
    (hbase : base.statements = [])
    (hbodies : Forall₂ (Forall₂ Stmt.ComesFrom) (branches.map Prod.snd)
      ((range branches.length).map fun i => b.body (branchSlot i)))
    (hotherwise : Forall₂ Stmt.ComesFrom (otherwise.getD []) (b.body "ELSE")) :
    RendersSlots ((range branches.length).map branchSlot ++ ["ELSE"])
      ((Stmt.branchesToBlock base 0 branches).withBody "ELSE" (Stmt.otherwiseToBlocks otherwise)).statement?
      b.statement? := by
  intro slot
  rw [List.mem_append, List.mem_singleton, mem_map]
  by_cases helse : "ELSE" = slot
  · subst helse
    rw [Stmt.statement?_choose hbase, if_pos rfl]
    exact ⟨fun _ => rel_link hotherwise, fun h => absurd (.inr rfl) h⟩
  by_cases hslot : ∃ k < branches.length, slot = branchSlot k
  · obtain ⟨k, hk, rfl⟩ := hslot
    have hbody := hbodies.get (i := k) (by simpa using hk) (by simpa using hk)
    simp only [List.get_eq_getElem, List.getElem_map, List.getElem_range] at hbody
    rw [Stmt.statement?_choose_branch hbase _ _ (List.getElem?_eq_getElem hk)]
    exact ⟨fun _ => rel_link hbody, fun h => absurd (.inl ⟨k, mem_range.mpr hk, rfl⟩) h⟩
  · refine ⟨?_, fun _ => Stmt.statement?_choose_of_ne hbase _ _ helse fun k hk e => hslot ⟨k, hk, e⟩⟩
    rintro (⟨k, hk, rfl⟩ | rfl)
    · exact absurd ⟨k, mem_range.mp hk, rfl⟩ hslot
    · exact absurd rfl helse

theorem length_values_of_plugged {name : Nat → String} (hname : Function.Injective name) {children : List Block}
    (hb : b.Ordered) (hkeys : Dict.keys b.values ⊆ (range n).map name)
    (hplugged : Forall₂ b.Plugged ((range n).map name) children) : b.values.length = n := by
  have hslots : ((range n).map name).Nodup := List.nodup_range.map hname
  have hback : (range n).map name ⊆ Dict.keys b.values := by
    intro slot hslot
    obtain ⟨child, -, hchild⟩ := exists_of_mem_left hplugged hslot
    exact Dict.mem_keys_of_get? hchild.value
  have hperm : (Dict.keys b.values).Perm ((range n).map name) :=
    (List.perm_ext_iff_of_nodup hb.values.nodup_keys hslots).mpr fun slot =>
      ⟨fun h => hkeys h, fun h => hback h⟩
  simpa [Dict.keys] using hperm.length_eq

/-! ## Nodes -/

/-- A rendered block, by the rule that reads the other block: its slots, and what it says by itself. -/
structure Rebuilds (tag : Tag) (r b : Block) : Prop extends RendersBy tag r b where
  tagged : r.tag = tag.name
  keys : Dict.keys r.fields = tag.fields
  fields : ∀ entry ∈ r.fields, b.field? entry.1 = some entry.2
  sortedValues : Dict.Sorted r.values
  sortedStatements : Dict.Sorted r.statements
  attrs : b.Carries r.attrs

theorem Rebuilds.withNext {tag : Tag} (h : Rebuilds tag r b) (next : Option Block) : Rebuilds tag { r with next } b :=
  ⟨⟨h.named, h.values, h.statements, h.others⟩, h.tagged, h.keys, h.fields, h.sortedValues, h.sortedStatements, h.attrs⟩

section Entries

variable {tag : Tag} {attrs : Attributes} {fields : Dict String} {values : Dict Block} (htag : b.tag = tag.name)
  (hattrs : b.Carries attrs) (hkeys : Dict.keys fields = tag.fields)
  (hfields : ∀ entry ∈ fields, b.field? entry.1 = some entry.2) (hothers : tag.refusesOthers = false)

include htag hattrs hkeys hfields hothers

section Values

variable (hvalues : tag.values b.values.length = Dict.keys values) (hsorted : Dict.Sorted values)
  (hentries : ∀ entry ∈ values, ∃ d, b.value? entry.1 = some d ∧ Renders entry.2 d)

include hvalues hsorted hentries

theorem rebuilds_entries (hstatements : tag.statements b.values.length = []) :
    Rebuilds tag { tag := tag.name, attrs, fields, values } b := by
  refine ⟨⟨htag, ?_, ?_, passes hothers⟩, rfl, hkeys, hfields, hsorted, .nil, hattrs⟩
  · rw [hvalues]
    exact rendersSlots_entries hsorted hentries
  · rw [hstatements]
    exact rendersSlots_nil _

theorem rebuilds_entries_body (hstatements : tag.statements b.values.length = ["DO"])
    (hbody : Forall₂ Stmt.ComesFrom body (b.body "DO")) :
    Rebuilds tag (({ tag := tag.name, attrs, fields, values } : Block).withBody "DO" (Stmt.toBlocks body)) b := by
  have hextends := extends_withBody { tag := tag.name, attrs, fields, values } "DO" (Stmt.toBlocks body)
  refine ⟨⟨htag, ?_, ?_, passes hothers⟩, hextends.tag, ?_, ?_, ?_, sorted_withBody .nil, ?_⟩
  · rw [hvalues]
    have hslots : (({ tag := tag.name, attrs, fields, values } : Block).withBody "DO" (Stmt.toBlocks body)).value? =
        fun slot => Dict.get? slot values := by
      funext slot
      rw [value?, values_withBody]
    rw [hslots]
    exact rendersSlots_entries hsorted hentries
  · rw [hstatements]
    exact rendersSlots_body rfl hbody
  · rw [hextends.fields]
    exact hkeys
  · rw [hextends.fields]
    exact hfields
  · rw [values_withBody]
    exact hsorted
  · rw [hextends.attrs]
    exact hattrs

end Values

theorem rebuilds_leaf (hvalues : tag.values b.values.length = []) (hstatements : tag.statements b.values.length = []) :
    Rebuilds tag { tag := tag.name, attrs, fields } b :=
  rebuilds_entries htag hattrs hkeys hfields hothers hvalues .nil (forall_mem_nil _) hstatements

section Single

variable {slot : String} {child : Block} {e : Expr} (hvalues : tag.values b.values.length = [slot])
  (hplug : b.Plugged slot child) (hfrom : e.ComesFrom child)

include hvalues hplug hfrom

theorem rebuilds_single (hstatements : tag.statements b.values.length = []) :
    Rebuilds tag { tag := tag.name, attrs, fields, values := [(slot, e.toBlock)] } b := by
  refine rebuilds_entries htag hattrs hkeys hfields hothers hvalues (List.pairwise_singleton _ _) ?_ hstatements
  exact forall_mem_singleton.mpr ⟨child, hplug.value, renders_plugged hplug hfrom⟩

theorem rebuilds_single_body (hstatements : tag.statements b.values.length = ["DO"])
    (hbody : Forall₂ Stmt.ComesFrom body (b.body "DO")) :
    Rebuilds tag (({ tag := tag.name, attrs, fields, values := [(slot, e.toBlock)] } : Block).withBody "DO"
      (Stmt.toBlocks body)) b := by
  have hslots : tag.values b.values.length = Dict.keys [(slot, e.toBlock)] := hvalues
  refine rebuilds_entries_body htag hattrs hkeys hfields hothers hslots (List.pairwise_singleton _ _) ?_ hstatements
    hbody
  exact forall_mem_singleton.mpr ⟨child, hplug.value, renders_plugged hplug hfrom⟩

end Single

end Entries

end Block

namespace Expr

variable {b : Block} {children : List Block} {items : List Expr}

theorem renders_items {slots : List String} (hplugged : Forall₂ b.Plugged slots children)
    (hfrom : Forall₂ ComesFrom items children) : Forall₂ Block.Renders (items.map toBlock) children := by
  induction hfrom generalizing slots with
  | nil => exact .nil
  | cons hhead _ ih =>
    cases hplugged with
    | cons hplug hplugs => exact .cons (Block.renders_plugged hplug hhead) (ih hplugs)

theorem carries_items (hholds : b.Holds children) (hfrom : Forall₂ ComesFrom items children) :
    b.Carries (b.nodeAttrs.derive "items" (Text.natText items.length)) := by
  have hcount : b.itemCount = .ok items.length := by
    rw [hfrom.length_eq]
    exact (Block.itemSlots_ok_iff.mp hholds.slots).1
  exact ⟨(Attributes.preserves_nodeAttrs b).derive _ _, fun hb => Block.extends_items hb hcount⟩

theorem rebuilds_items {tag : Tag} {attrs : Attributes} (hb : b.Ordered) (htag : b.tag = tag.name)
    (hattrs : b.Carries attrs) (hholds : b.Holds children) (hfrom : Forall₂ ComesFrom items children)
    (hfields : tag.fields = []) (hvalues : ∀ n, tag.values n = (range n).map Block.itemSlot)
    (hstatements : ∀ n, tag.statements n = []) :
    Block.Rebuilds tag (({ tag := tag.name, attrs } : Block).withValues
      (numbered Block.itemSlot 0 (toBlocks items))) b := by
  obtain ⟨hkeys, hnone⟩ := Block.refuseOthers_ok_iff.mp (Block.itemSlots_ok_iff.mp hholds.slots).2
  have hlength := Block.length_values_of_plugged Block.itemSlot_injective hb hkeys hholds.plugged
  obtain ⟨hextends, hempty⟩ := Block.extends_withValues ({ tag := tag.name, attrs } : Block)
    (numbered Block.itemSlot 0 (toBlocks items))
  refine ⟨⟨htag, ?_, ?_, fun _ => ?_⟩, hextends.tag, ?_, ?_, Block.sorted_withValues .nil, ?_, ?_⟩
  · rw [hvalues, hlength, toBlocks_eq_map]
    exact Block.rendersSlots_numbered Block.itemSlot_injective hholds.plugged (renders_items hholds.plugged hfrom) rfl
  · have hnone : (({ tag := tag.name, attrs } : Block).withValues
        (numbered Block.itemSlot 0 (toBlocks items))).statement? = fun _ => none := by
      funext slot
      rw [Block.statement?, hempty]
      rfl
    rw [hstatements, hnone]
    exact Block.rendersSlots_nil _
  · rw [hvalues, hstatements, hlength]
    exact ⟨hkeys, hnone⟩
  · rw [hextends.fields, hfields]
    rfl
  · rw [hextends.fields]
    exact forall_mem_nil _
  · rw [hempty]
    exact .nil
  · rw [hextends.attrs]
    exact hattrs

theorem exists_rebuilds {e : Expr} (h : e.ComesFrom b) (hb : b.Ordered) : ∃ tag, Block.Rebuilds tag e.toBlock b := by
  have hattrs := Block.carries_nodeAttrs b
  cases h with
  | var htag hname hdeclared hsame =>
    refine ⟨.var, Block.rebuilds_leaf htag ?_ rfl (forall_mem_singleton.mpr hname.field) rfl rfl rfl⟩
    rw [hsame]
    exact hattrs.deriveType (.inl rfl) hdeclared rfl
  | number htag hfield =>
    exact ⟨.number, Block.rebuilds_leaf htag hattrs rfl (forall_mem_singleton.mpr hfield) rfl rfl rfl⟩
  | boolean htag hfield =>
    exact ⟨.boolean, Block.rebuilds_leaf htag hattrs rfl (forall_mem_singleton.mpr hfield) rfl rfl rfl⟩
  | text htag hfield =>
    exact ⟨.text, Block.rebuilds_leaf htag hattrs rfl (forall_mem_singleton.mpr hfield) rfl rfl rfl⟩
  | @binary _ _ _ op left right htag hfield hplugA hplugB hfromA hfromB =>
    obtain ⟨tag, hop, hfields, hvalues, hstatements⟩ := op.exists_tag
    have hothers : tag.refusesOthers = false := by
      refine Bool.eq_false_iff.mpr fun hothers => ?_
      cases (hvalues 0).symm.trans (Tag.values_zero hothers)
    rw [toBlock, hop]
    refine ⟨tag, Block.rebuilds_entries (htag.trans hop) hattrs hfields.symm (forall_mem_singleton.mpr hfield)
      hothers (hvalues _) ?_ ?_ (hstatements _)⟩
    · change List.Pairwise (· < ·) ["A", "B"]
      decide
    · simp only [List.mem_cons, List.not_mem_nil, or_false, forall_eq_or_imp, forall_eq]
      exact ⟨⟨_, hplugA.value, Block.renders_plugged hplugA hfromA⟩,
        ⟨_, hplugB.value, Block.renders_plugged hplugB hfromB⟩⟩
  | @unary _ _ op _ htag hfield hplug hfrom =>
    obtain ⟨tag, hop, hnone, hsome, hvalues, hstatements⟩ := op.exists_tag
    have hothers : tag.refusesOthers = false := by
      refine Bool.eq_false_iff.mpr fun hothers => ?_
      cases (hvalues 0).symm.trans (Tag.values_zero hothers)
    rw [toBlock, hop]
    refine ⟨tag, Block.rebuilds_single (htag.trans hop) hattrs ?_ ?_ hothers (hvalues _) hplug hfrom (hstatements _)⟩
    · cases hword : op.word? with
      | none => exact (hnone hword).symm
      | some word => exact (hsome (hword ▸ rfl)).symm
    · cases hword : op.word? with
      | none => exact forall_mem_nil _
      | some word => exact forall_mem_singleton.mpr (hfield word hword)
  | @list _ _ _ items htag hdeclared hholds hfrom =>
    have hsame := b.nodeAttrs.mutation?_derive_of_ne (Text.natText items.length) (by decide : "items" ≠ "list_type")
    rw [toBlock]
    exact ⟨.list, rebuilds_items hb htag ((carries_items hholds hfrom).deriveType (.inr rfl) hdeclared hsame) hholds
      hfrom rfl (fun _ => rfl) fun _ => rfl⟩
  | length htag hplug hfrom =>
    exact ⟨.length, Block.rebuilds_single htag hattrs rfl (forall_mem_nil _) rfl rfl hplug hfrom rfl⟩
  | join htag hholds hfrom =>
    rw [toBlock]
    exact ⟨.join, rebuilds_items hb htag (carries_items hholds hfrom) hholds hfrom rfl (fun _ => rfl) fun _ => rfl⟩

end Expr

namespace Stmt

variable {b : Block}

theorem rebuilds_choose {branches : List (Expr × List Stmt)} {otherwise : Option (List Stmt)} {attrs : Attributes}
    (h : (choose branches otherwise attrs).ComesFrom b) (hb : b.Ordered) :
    Block.Rebuilds .choose (choose branches otherwise attrs).toBlock b := by
  cases h with | choose htag hhas hplugged hconditions hbodies hotherwise => ?_
  have hothers := Block.refuseOthers_ok_iff.mp hhas.slots
  have hlength := Block.length_values_of_plugged Block.conditionSlot_injective hb hothers.1 hplugged
  rw [toBlock]
  have hextends := extends_choose
    { tag := Tag.choose.name, attrs := chooseAttrs b.nodeAttrs branches.length otherwise.isSome } branches
    (otherwiseToBlocks otherwise)
  refine ⟨⟨htag, ?_, ?_, fun _ => hlength.symm ▸ hothers⟩, hextends.tag, ?_, ?_, ?_,
    Block.sorted_withBody (sorted_branchesToBlock .nil), ?_⟩
  · have hrenders := Expr.renders_items hplugged hconditions
    rw [List.map_map] at hrenders
    intro slot
    rw [hlength, Block.value?, Block.values_withBody, values_branchesToBlock]
    exact Block.rendersSlots_numbered Block.conditionSlot_injective hplugged hrenders rfl slot
  · rw [hlength]
    exact Block.rendersSlots_branches rfl hbodies hotherwise
  · rw [hextends.fields]
    rfl
  · rw [hextends.fields]
    exact forall_mem_nil _
  · rw [Block.values_withBody, values_branchesToBlock]
    exact Block.sorted_withValues .nil
  · rw [hextends.attrs]
    exact ⟨(Attributes.preserves_nodeAttrs b).chooseAttrs _ _, fun hb => Block.extends_chooseAttrs hb hhas⟩

theorem exists_rebuilds {s : Stmt} (h : s.ComesFrom b) (hb : b.Ordered) : ∃ tag, Block.Rebuilds tag s.toBlock b := by
  have hattrs := Block.carries_nodeAttrs b
  cases h with
  | assign htag hname hdeclared _ hplug hfrom =>
    exact ⟨.assign, Block.rebuilds_single htag (hattrs.deriveType (.inl rfl) hdeclared rfl) rfl
      (forall_mem_singleton.mpr hname.field) rfl rfl hplug hfrom rfl⟩
  | choose htag hhas hplugged hconditions hbodies hotherwise =>
    exact ⟨.choose, rebuilds_choose (.choose htag hhas hplugged hconditions hbodies hotherwise) hb⟩
  | repeat' htag hplug hfrom hbody =>
    rw [toBlock]
    exact ⟨.repeat, Block.rebuilds_single_body htag hattrs rfl (forall_mem_nil _) rfl rfl hplug hfrom rfl hbody⟩
  | loop htag hfield hplug hfrom hbody =>
    rw [toBlock]
    exact ⟨.loop, Block.rebuilds_single_body htag hattrs rfl (forall_mem_singleton.mpr hfield) rfl rfl hplug hfrom
      rfl hbody⟩
  | count htag hname _ _ hplugFirst hplugLast hplugStep hfromFirst hfromLast hfromStep hbody =>
    rw [toBlock]
    refine ⟨.count, Block.rebuilds_entries_body htag hattrs rfl (forall_mem_singleton.mpr hname.field) rfl rfl ?_ ?_
      rfl hbody⟩
    · change List.Pairwise (· < ·) ["BY", "FROM", "TO"]
      decide
    · simp only [List.mem_cons, List.not_mem_nil, or_false, forall_eq_or_imp, forall_eq]
      exact ⟨⟨_, hplugStep.value, Block.renders_plugged hplugStep hfromStep⟩,
        ⟨_, hplugFirst.value, Block.renders_plugged hplugFirst hfromFirst⟩,
        ⟨_, hplugLast.value, Block.renders_plugged hplugLast hfromLast⟩⟩
  | forEach htag hname _ hplug hfrom hbody =>
    rw [toBlock]
    exact ⟨.forEach, Block.rebuilds_single_body htag hattrs rfl (forall_mem_singleton.mpr hname.field) rfl rfl hplug
      hfrom rfl hbody⟩
  | flow htag hfield =>
    exact ⟨.flow, Block.rebuilds_leaf htag hattrs rfl (forall_mem_singleton.mpr hfield) rfl rfl rfl⟩
  | wait htag hplug hfrom =>
    exact ⟨.wait, Block.rebuilds_single htag hattrs rfl (forall_mem_nil _) rfl rfl hplug hfrom rfl⟩
  | print htag hplug hfrom =>
    exact ⟨.print, Block.rebuilds_single htag hattrs rfl (forall_mem_nil _) rfl rfl hplug hfrom rfl⟩

end Stmt

/-! ## Parts -/

namespace Block

variable {b r : Block}

theorem RendersSlots.rel {read : List String} {rendered given : String → Option Block}
    (h : RendersSlots read rendered given) (slot : String) :
    if read.contains slot = true then Option.Rel Renders (rendered slot) (given slot) else rendered slot = none := by
  obtain ⟨hread, hunread⟩ := h slot
  by_cases hslot : slot ∈ read
  · rw [if_pos (List.contains_iff_mem.mpr hslot)]
    exact hread hslot
  · rw [if_neg fun h => hslot (List.contains_iff_mem.mp h)]
    exact hunread hslot

theorem RendersBy.parts {tag : Tag} (h : RendersBy tag r b) (hnext : Option.Rel Renders r.next b.next) (s : Step) :
    if b.reads s = true then Option.Rel Renders (r.part? s) (b.part? s) else r.part? s = none := by
  have htag : Tag.ofName? b.tag = some tag := Tag.ofName?_eq_some_iff.mpr h.named
  cases s with
  | value slot =>
    simp only [reads, htag, Option.any_some]
    exact h.values.rel slot
  | statement slot =>
    simp only [reads, htag, Option.any_some]
    exact h.statements.rel slot
  | next => exact hnext

theorem reads_of_keys {tag : Tag} (htag : b.tag = tag.name) (hvalues : Dict.keys b.values ⊆ tag.values b.values.length)
    (hstatements : Dict.keys b.statements ⊆ tag.statements b.values.length) {entry : Step × Block}
    (hentry : entry ∈ b.entries) : b.reads entry.1 = true := by
  have hfound : Tag.ofName? b.tag = some tag := Tag.ofName?_eq_some_iff.mpr htag
  obtain ⟨s, c⟩ := entry
  cases s with
  | value slot =>
    have hslot : slot ∈ Dict.keys b.values := List.mem_map_of_mem (Step.mem_label_value.mp hentry)
    simpa [reads, hfound] using hvalues hslot
  | statement slot =>
    have hslot : slot ∈ Dict.keys b.statements := List.mem_map_of_mem (Step.mem_label_statement.mp hentry)
    simpa [reads, hfound] using hstatements hslot
  | next => rfl

theorem Renders.exists_rebuilds (h : r.Renders b) (hb : b.Ordered) :
    (∃ tag, Rebuilds tag r b) ∧ Option.Rel Renders r.next b.next := by
  obtain ⟨root, hfrom, hr⟩ := h
  cases root with
  | statements body =>
    have hchain : Forall₂ Stmt.ComesFrom body b.chain := hfrom
    rw [chain_eq] at hchain
    cases hchain with | @cons s _ rest _ hs hrest => ?_
    rw [Root.toBlock?, Stmt.toBlocks, link_cons] at hr
    cases hr
    obtain ⟨tag, hrebuilds⟩ := s.exists_rebuilds hs hb
    exact ⟨⟨tag, hrebuilds.withNext _⟩, rel_link hrest⟩
  | value e =>
    cases hr
    refine ⟨e.exists_rebuilds hfrom.1 hb, ?_⟩
    rw [hfrom.2, e.next_toBlock]
    exact .none

theorem Renders.parts (h : r.Renders b) (hb : b.Ordered) (s : Step) :
    if b.reads s = true then Option.Rel Renders (r.part? s) (b.part? s) else r.part? s = none := by
  obtain ⟨⟨tag, hrebuilds⟩, hnext⟩ := h.exists_rebuilds hb
  exact hrebuilds.parts hnext s

theorem Renders.exists_rendered (h : r.Renders b) (hb : b.Ordered) {s : Step} {d : Block}
    (hread : b.reads s = true) (hd : b.part? s = some d) : ∃ c, r.part? s = some c ∧ c.Renders d := by
  have hpart := h.parts hb s
  rw [if_pos hread, hd] at hpart
  cases hc : r.part? s with
  | none =>
    rw [hc] at hpart
    cases hpart
  | some c =>
    rw [hc] at hpart
    cases hpart with
    | some hrenders => exact ⟨c, rfl, hrenders⟩

theorem Renders.exists_given (h : r.Renders b) (hb : b.Ordered) {s : Step} {c : Block}
    (hc : r.part? s = some c) : b.reads s = true ∧ ∃ d, b.part? s = some d ∧ c.Renders d := by
  have hpart := h.parts hb s
  rw [hc] at hpart
  by_cases hread : b.reads s = true
  · rw [if_pos hread] at hpart
    cases hd : b.part? s with
    | none =>
      rw [hd] at hpart
      cases hpart
    | some d =>
      rw [hd] at hpart
      cases hpart with
      | some hrenders => exact ⟨hread, d, rfl, hrenders⟩
  · rw [if_neg hread] at hpart
    cases hpart

theorem Renders.id_eq (h : r.Renders b) (hb : b.Ordered) : r.id = b.id := by
  obtain ⟨⟨tag, hrebuilds⟩, -⟩ := h.exists_rebuilds hb
  exact hrebuilds.attrs.preserves.id

theorem Renders.ordered (h : r.Renders b) (hb : b.Ordered) : r.Ordered := by
  obtain ⟨⟨tag, hrebuilds⟩, -⟩ := h.exists_rebuilds hb
  have hfields : Dict.Sorted r.fields := by
    rw [Dict.Sorted, hrebuilds.keys]
    cases tag <;> decide
  exact ⟨hfields, hrebuilds.sortedValues, hrebuilds.sortedStatements, hrebuilds.attrs.preserves.sorted hb.mutation⟩

theorem Renders.solid (h : r.Renders b) (hb : b.Ordered) (hsolid : b.Solid) : r.Solid := by
  obtain ⟨⟨tag, hrebuilds⟩, -⟩ := h.exists_rebuilds hb
  exact hrebuilds.attrs.preserves.solid hsolid

end Block

theorem Root.exists_renders {root : Root} {b : Block} (h : root.ComesFrom b) :
    ∃ r, root.toBlock? = some r ∧ r.Renders b := by
  cases root with
  | statements body =>
    have hlink : Option.Rel Block.Renders (Block.link (Stmt.toBlocks body)) (some b) := by
      apply Block.rel_link
      rw [Block.chainFrom_some]
      exact h
    cases hr : Block.link (Stmt.toBlocks body) with
    | none =>
      rw [hr] at hlink
      cases hlink
    | some r => exact ⟨r, hr, .statements body, h, hr⟩
  | value e => exact ⟨e.toBlock, rfl, .value e, h, rfl⟩

namespace Program

theorem forall₂_toBlocks {α : Type} {roots : List Root} {xs : List α} {Q : α → Block → Prop}
    (h : Forall₂ (fun x root => ∃ r, root.toBlock? = some r ∧ Q x r) xs roots) :
    Forall₂ Q xs (roots.filterMap Root.toBlock?) := by
  induction h with
  | nil => exact .nil
  | cons hroot _ ih =>
    obtain ⟨r, hr, hQ⟩ := hroot
    rw [List.filterMap_cons_some hr]
    exact .cons hQ ih

theorem renders_toBlocks {p : Program} {blocks : List Block} (h : Forall₂ Root.ComesFrom p.roots blocks) :
    Forall₂ (fun b r => Block.Renders r b) blocks p.toBlocks :=
  forall₂_toBlocks (h.flip.imp fun _ root hroot => root.exists_renders hroot)

end Program

end Blockwork
