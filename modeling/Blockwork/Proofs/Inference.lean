import Blockwork.Proofs.RuleEquations
import Blockwork.Proofs.Slots
import Blockwork.Proofs.Typings

/-! # Reading infers typings

Reading a block that has a typing succeeds, whatever is known before, as long as the typing agrees with it. The
typing is above what was read. If all list literals tell their types by themselves, then there is also no
solution after reading that is not a typing of the block.
-/

namespace Blockwork

set_option autoImplicit false

open Reading (Infers infers_pure infers_node constrain)
open List (Forall₂ forall_mem_cons)
open Block (read_of_tag)

/-! ## Blocks that tell their types -/

/-- The type of the value of a block does not depend on what else is known. -/
inductive Block.SaysType : Block → Prop where
  | plain {b : Block} (notVar : b.tag ≠ Tag.var.name) (notList : b.tag ≠ Tag.list.name) : SaysType b
  | var {b : Block} {t : Ty} (tag : b.tag = Tag.var.name) (declared : b.declaredType "datatype" = .ok (some t)) :
      SaysType b
  | list {b : Block} {t : Ty} (tag : b.tag = Tag.list.name)
      (declared : b.declaredType "list_type" = .ok (some t)) : SaysType b
  | first {b c : Block} (tag : b.tag = Tag.list.name) (value : b.value? (Block.itemSlot 0) = some c)
      (child : SaysType c) : SaysType b

/-- All list literals in the block tell their types by themselves. -/
def Block.ListsTyped (b : Block) : Prop :=
  ∀ c ∈ b.reached, c.tag = Tag.list.name → c.SaysType

theorem Block.ListsTyped.of_reached {b c : Block} (h : b.ListsTyped) (hc : c.reached ⊆ b.reached) : c.ListsTyped :=
  fun d hd => h d (hc hd)

theorem Block.ListsTyped.plugged {b c : Block} {slot : String} (h : b.ListsTyped) (hc : b.Plugged slot c) :
    c.ListsTyped :=
  h.of_reached (Block.reached_value hc.value)

theorem Block.ListsTyped.of_plugged {b : Block} {slots : List String} {children : List Block} (h : b.ListsTyped)
    (hplugged : Forall₂ b.Plugged slots children) : ∀ c ∈ children, c.ListsTyped := by
  intro c hc
  obtain ⟨slot, -, hslot⟩ := exists_of_mem_right hplugged hc
  exact h.plugged hslot

theorem Block.ListsTyped.of_body {b : Block} (h : b.ListsTyped) (slot : String) : ∀ c ∈ b.body slot, c.ListsTyped :=
  fun _ hc => h.of_reached (Block.reached_of_mem_body hc)

def Expr.ListKnown : Expr → Prop
  | .list t _ _ => t.isConcrete = true
  | _ => True

/-- No list literal in the expression has a placeholder in its type. -/
abbrev Expr.ListsKnown (e : Expr) : Prop :=
  e.Everywhere Expr.ListKnown

theorem Expr.ListsKnown.determined {e : Expr} (h : e.ListsKnown) : e.Determined := by
  have hhere := Everywhere.here h
  cases e with
  | var v => exact .inl ⟨v, rfl⟩
  | list t items a => exact .inr hhere
  | binary op => cases op <;> exact .inr rfl
  | unary op => cases op <;> exact .inr rfl
  | _ => exact .inr rfl

/-! ## Values -/

/-- What is known about a value `e` that was read from a block with the typing `q`, where `expected` was
asked for. -/
structure Expr.Found (b : Block) (expected : Ty) (q : Expr) (env : TypeEnv) (e : Expr) (env' : TypeEnv) : Prop where
  below : e.Below Eq q
  frame : ∀ v, e = .var v → ∀ other, v.name ≠ other → env'.lookup other = env.lookup other
  self : b.SaysType → e.type.isConcrete = true
  known : b.ListsTyped → e.ListsKnown
  typings : b.ListsTyped → ∀ σ, env'.Solution σ →
    ∃ q', q'.ComesFrom b ∧ q'.Agrees σ ∧ e.Below Eq q' ∧ q'.type.Refines expected

def Expr.Inferred (τ : String → Ty) (q : Expr) : Prop :=
  ∀ (b : Block) (env : TypeEnv), q.ComesFrom b → env.Solution τ →
    Infers τ env b.read fun p env' => ∃ e, p = .value e ∧ q.Found b .captured env e env'

namespace Block

variable {τ : String → Ty} {env : TypeEnv} {b c : Block} {slot : String} {q : Expr}

theorem infers_value {r : Reading Expr} {expected : Ty} (h : Infers τ env r (q.Found b expected env)) :
    Infers τ env (value r) fun p env' => ∃ e, p = .value e ∧ q.Found b expected env e env' := by
  unfold value
  exact h.bind fun e env₁ h₁ _ hfound => infers_pure h₁ ⟨e, rfl, hfound⟩

theorem infers_valueIn {expected : Ty} (hq : q.Inferred τ) (hagrees : q.Agrees τ) (hplugged : b.Plugged slot c)
    (hfrom : q.ComesFrom c) (h : env.Solution τ) (hbound : q.type.Refines expected) :
    Infers τ env (b.valueIn (fun child _ => child.read) slot expected) (q.Found c expected env) := by
  rw [valueIn_of_plugged hplugged]
  have hread : Infers τ env c.readExpr (q.Found c .captured env) := by
    unfold readExpr asExpr
    rw [hplugged.alone]
    refine (hq c env hfrom h).bind fun p env₁ h₁ _ hpost => ?_
    obtain ⟨e, rfl, hfound⟩ := hpost
    exact infers_pure h₁ hfound
  refine hread.bind fun e env₁ h₁ _ hfound => ?_
  refine (Reading.infers_constrain h₁ hfound.below hagrees hbound).bind fun _ env₂ h₂ hkept₂ htells => ?_
  refine infers_pure h₂ ⟨hfound.below, ?_, hfound.self, hfound.known, ?_⟩
  · intro v hv other hne
    rw [htells.frame v hv other hne, hfound.frame v hv other hne]
  · intro hlists σ hσ
    obtain ⟨q', hfrom', hagrees', hbelow', -⟩ := hfound.typings hlists σ (hkept₂ σ hσ)
    exact ⟨q', hfrom', hagrees', hbelow', htells.asked (hfound.known hlists).determined σ q' hσ hbelow' hagrees'⟩

end Block

namespace Expr

variable {τ : String → Ty}

theorem inferred_var (v : Var) (hv : v.type = τ v.name) : (var v).Inferred τ := by
  intro b env hfrom h
  cases hfrom with | var htag hname hdeclared hattrs => ?_
  obtain ⟨declared, hd, ht⟩ := hdeclared.exists_declared
  rw [read_of_tag htag]
  refine Block.infers_value ?_
  rw [Block.readVar_eq, Block.requiredName_of_names hname, hd]
  simp only [Reading.ofExcept_ok, pure_bind]
  refine (Reading.infers_bindDeclared h fun t e => ?_).bind fun _ env₁ h₁ _ hbound => ?_
  · rw [ht t e, hv]
    exact .refl _
  obtain ⟨hknown, hframe⟩ := hbound
  refine (Reading.infers_lookup h₁ v.name).bind fun t env₂ h₂ _ hlookup => ?_
  obtain ⟨rfl, rfl⟩ := hlookup
  rw [Reading.node_of_ok (Block.makeVar_of_visible hname.visible _ b.nodeAttrs), pure_bind]
  refine infers_pure h₂ ⟨.var ⟨rfl, ?_, hattrs.symm⟩, ?_, ?_, fun _ => everywhere_var.mpr trivial, ?_⟩
  · rw [hv]
    exact h₂.within v.name
  · rintro _ ⟨⟩
    exact hframe
  · intro hsays
    cases hsays with
    | plain hvar _ => exact absurd htag hvar
    | var _ hdeclared =>
      rw [hd] at hdeclared
      cases hdeclared
      exact (hknown _ rfl).isConcrete (Block.isConcrete_of_declaredType hd)
    | list hlist _ =>
      rw [htag] at hlist
      simp [Tag.name] at hlist
    | first hlist _ _ =>
      rw [htag] at hlist
      simp [Tag.name] at hlist
  · intro _ σ hσ
    refine ⟨.var ⟨v.name, σ v.name, v.attrs⟩, .var htag hname ?_ hattrs, .var rfl,
      .var ⟨rfl, hσ.within v.name, hattrs.symm⟩, .captured _⟩
    exact Block.declares_of_refines hd fun t e => (hσ.within v.name).trans (hknown t e)

theorem type_eq_of_operandType {op : BinaryOp} {l r : Expr} (hl : l.type.Refines op.operandType)
    (hr : r.type.Refines op.operandType) (hshare : op.isEquality = true → r.type = l.type) : r.type = l.type := by
  by_cases hop : op.isEquality = true
  · exact hshare hop
  · have hconcrete : op.operandType.isConcrete = true := by
      cases op <;> first | rfl | exact absurd rfl hop
    rw [hl.eq_of_isConcrete hconcrete, hr.eq_of_isConcrete hconcrete]

theorem inferred_binary {op : BinaryOp} {l r : Expr} (attrs : Attributes) (hl : l.Agrees τ) (hr : r.Agrees τ)
    (hsame : r.type = l.type) (hasked : l.type.Refines op.operandType) (ihl : l.Inferred τ) (ihr : r.Inferred τ) :
    (binary op l r attrs).Inferred τ := by
  intro b env hfrom h
  cases hfrom with | binary htag hfield hplugA hplugB hfromA hfromB => ?_
  have hasked' : r.type.Refines op.operandType := hsame ▸ hasked
  have hword := BinaryOp.ofWord?_eq_some_iff.mpr ⟨rfl, htag⟩
  rw [Block.read_binary htag]
  refine Block.infers_value ?_
  rw [Block.readBinary_eq, Block.requiredWord_of_field hfield hword]
  simp only [Reading.ofExcept_ok, pure_bind]
  refine (Block.infers_valueIn ihl hl hplugA hfromA h hasked).bind fun left env₁ h₁ _ hleft => ?_
  refine (Block.infers_valueIn ihr hr hplugB hfromB h₁ hasked').bind fun right env₂ h₂ hkept₂ hright => ?_
  refine (Reading.infers_share op h₂ hleft.below hl hright.below hr hsame).bind fun _ env₃ h₃ hkept₃ hshared => ?_
  refine infers_node h₃ (a := .binary op left right b.nodeAttrs) ?_ ?_
  · exact Block.makeBinary_of_accepts (hasked.accepts hleft.below.type) (hasked'.accepts hright.below.type) _
      (hleft.below.type.accepts (hsame ▸ hright.below.type))
  · refine ⟨.binary hleft.below hright.below rfl, (fun _ hv => nomatch hv), fun _ => ?_, fun hlists => ?_,
      fun hlists σ hσ => ?_⟩
    · cases op <;> rfl
    · exact everywhere_binary.mpr ⟨trivial, hleft.known (hlists.plugged hplugA), hright.known (hlists.plugged hplugB)⟩
    · have hσ₂ := hkept₃ σ hσ
      obtain ⟨l', hfromL, hl', hbelowL, haskedL⟩ :=
        hleft.typings (hlists.plugged hplugA) σ (hkept₂ σ hσ₂)
      obtain ⟨r', hfromR, hr', hbelowR, haskedR⟩ := hright.typings (hlists.plugged hplugB) σ hσ₂
      have hsame' : r'.type = l'.type := by
        refine type_eq_of_operandType haskedL haskedR fun hop => ?_
        exact hshared hop (hleft.known (hlists.plugged hplugA)).determined
          (hright.known (hlists.plugged hplugB)).determined σ l' r' hσ hbelowL hl' hbelowR hr'
      exact ⟨.binary op l' r' b.nodeAttrs, .binary htag hfield hplugA hplugB hfromL hfromR,
        .binary hl' hr' hsame' haskedL, .binary hbelowL hbelowR rfl, .captured _⟩

theorem inferred_unary {op : UnaryOp} {operand : Expr} (attrs : Attributes) (hagrees : operand.Agrees τ)
    (hasked : operand.type = op.operandType) (ih : operand.Inferred τ) : (unary op operand attrs).Inferred τ := by
  intro b env hfrom h
  cases hfrom with | unary htag hfield hplug hfrom => ?_
  have hbound : operand.type.Refines op.operandType := .of_eq hasked
  rw [Block.read_unary htag hfield]
  refine Block.infers_value ?_
  unfold Block.readUnary
  refine (Block.infers_valueIn ih hagrees hplug hfrom h hbound).bind fun e env₁ h₁ _ hfound => ?_
  refine infers_node h₁ (if_pos (hbound.accepts hfound.below.type)) ⟨.unary hfound.below rfl,
    (fun _ hv => nomatch hv), fun _ => ?_, fun hlists => ?_, fun hlists σ hσ => ?_⟩
  · cases op <;> rfl
  · exact everywhere_unary.mpr ⟨trivial, hfound.known (hlists.plugged hplug)⟩
  · obtain ⟨q', hfrom', hq', hbelow', hasked'⟩ := hfound.typings (hlists.plugged hplug) σ hσ
    have hconcrete : op.operandType.isConcrete = true := by cases op <;> rfl
    exact ⟨.unary op q' b.nodeAttrs, .unary htag hfield hplug hfrom',
      .unary hq' (hasked'.eq_of_isConcrete hconcrete), .unary hbelow' rfl, .captured _⟩

theorem inferred_length {operand : Expr} {t : Ty} (attrs : Attributes) (hagrees : operand.Agrees τ)
    (hasked : operand.type = .list t) (ih : operand.Inferred τ) : (length operand attrs).Inferred τ := by
  intro b env hfrom h
  cases hfrom with | length htag hplug hfrom => ?_
  have hbound : operand.type.Refines (.list .captured) := hasked ▸ .list (.captured t)
  rw [read_of_tag htag]
  refine Block.infers_value ?_
  unfold Block.readLength
  refine (Block.infers_valueIn ih hagrees hplug hfrom h hbound).bind fun e env₁ h₁ _ hfound => ?_
  have hmade : makeLength e b.nodeAttrs = .ok (.length e b.nodeAttrs) := by
    have htype := hfound.below.type
    rw [hasked] at htype
    unfold makeLength
    cases he : e.type with
    | list => rfl
    | captured => rfl
    | _ =>
      rw [he] at htype
      cases htype
  refine infers_node h₁ hmade ⟨.length hfound.below rfl, (fun _ hv => nomatch hv), fun _ => rfl, fun hlists => ?_,
    fun hlists σ hσ => ?_⟩
  · exact everywhere_length.mpr ⟨trivial, hfound.known (hlists.plugged hplug)⟩
  · obtain ⟨q', hfrom', hq', hbelow', hasked'⟩ := hfound.typings (hlists.plugged hplug) σ hσ
    obtain ⟨u, hu, -⟩ := hasked'.exists_list
    exact ⟨.length q' b.nodeAttrs, .length htag hplug hfrom', .length hq' hu, .length hbelow' rfl, .captured _⟩

/-! ## Values with items -/

section Items

variable {b : Block} {env : TypeEnv} {slots : List String} {children : List Block} {items : List Expr}

theorem infers_readAll (hplugged : Forall₂ b.Plugged slots children)
    (hfrom : Forall₂ ComesFrom items children) (hitems : ∀ e ∈ items, e.Agrees τ ∧ e.Inferred τ)
    (h : env.Solution τ) :
    Infers τ env (slots.mapM fun slot => b.valueIn (fun child _ => child.read) slot .captured) fun es env' =>
      Forall₂ (Below Eq) es items ∧ ((∀ c ∈ children, c.ListsTyped) → (∀ e ∈ es, e.ListsKnown) ∧
        ∀ σ, env'.Solution σ → ∃ items', Forall₂ ComesFrom items' children ∧ (∀ e ∈ items', e.Agrees σ) ∧
          Forall₂ (Below Eq) es items') := by
  induction hfrom generalizing slots env with
  | nil =>
    cases hplugged
    exact infers_pure h ⟨.nil, fun _ => ⟨by simp, fun σ _ => ⟨[], .nil, by simp, .nil⟩⟩⟩
  | cons hfrom hfroms ih =>
    cases hplugged with | cons hplug hplugs => ?_
    obtain ⟨⟨hagrees, hinferred⟩, hrest⟩ := forall_mem_cons.mp hitems
    rw [List.mapM_cons]
    refine (Block.infers_valueIn hinferred hagrees hplug hfrom h (.captured _)).bind fun e env₁ h₁ _ hfound => ?_
    refine (ih hplugs hrest h₁).bind fun es env₂ h₂ hkept₂ hlater => ?_
    refine infers_pure h₂ ⟨.cons hfound.below hlater.1, fun hlists => ?_⟩
    obtain ⟨hlist, hlists⟩ := forall_mem_cons.mp hlists
    obtain ⟨hknown, htypings⟩ := hlater.2 hlists
    refine ⟨forall_mem_cons.mpr ⟨hfound.known hlist, hknown⟩, fun σ hσ => ?_⟩
    obtain ⟨q', hfrom', hq', hbelow', -⟩ := hfound.typings hlist σ (hkept₂ σ hσ)
    obtain ⟨items', hfroms', hitems', hbelows'⟩ := htypings σ hσ
    exact ⟨q' :: items', .cons hfrom' hfroms', forall_mem_cons.mpr ⟨hq', hitems'⟩, .cons hbelow' hbelows'⟩

def Pinned (start : Ty) (children : List Block) : Prop :=
  start.isConcrete = true ∨ ∃ c ∈ children.head?, c.SaysType

theorem infers_readElements {t start : Ty} (hplugged : Forall₂ b.Plugged slots children)
    (hfrom : Forall₂ ComesFrom items children)
    (hitems : ∀ e ∈ items, e.Agrees τ ∧ e.Inferred τ ∧ e.type = t) (h : env.Solution τ) (hbound : t.Refines start) :
    Infers τ env (b.readElements (fun child _ => child.read) start slots) fun found env' =>
      (t.Refines found.1 ∧ found.1.Refines start ∧ ∀ e ∈ found.2, found.1.Refines e.type) ∧
      Forall₂ (Below Eq) found.2 items ∧ (Pinned start children → found.1.isConcrete = true) ∧
      ((∀ c ∈ children, c.ListsTyped) → (∀ e ∈ found.2, e.ListsKnown) ∧
        (Pinned start children → ∀ σ, env'.Solution σ → ∃ items', Forall₂ ComesFrom items' children ∧
          (∀ e ∈ items', e.Agrees σ ∧ e.type = found.1) ∧ Forall₂ (Below Eq) found.2 items')) := by
  induction hfrom generalizing slots env start with
  | nil =>
    cases hplugged
    refine infers_pure h ⟨⟨hbound, .refl _, by simp⟩, .nil, ?_, fun _ => ⟨by simp, ?_⟩⟩
    · rintro (hconcrete | ⟨c, hc, -⟩)
      · exact hconcrete
      · cases hc
    · exact fun _ σ _ => ⟨[], .nil, by simp, .nil⟩
  | @cons _ c _ rest hfrom hfroms ih =>
    cases hplugged with | cons hplug hplugs => ?_
    obtain ⟨⟨hagrees, hinferred, htype⟩, hrest⟩ := forall_mem_cons.mp hitems
    unfold Block.readElements
    refine (Block.infers_valueIn hinferred hagrees hplug hfrom h (htype ▸ hbound)).bind fun e env₁ h₁ _ hfound => ?_
    refine (Reading.infers_unify h₁ hbound (htype ▸ hfound.below.type)).bind fun u env₂ h₂ _ hunified => ?_
    obtain ⟨hu, hboundu, rfl⟩ := hunified
    have hpinned : Pinned start (c :: rest) → u.isConcrete = true := by
      rintro (hconcrete | ⟨c, hc, hsays⟩)
      · exact (Ty.unify?_refines_left hu).isConcrete hconcrete
      · cases hc
        exact (Ty.unify?_refines_right hu).isConcrete (hfound.self hsays)
    refine (ih hplugs hrest h₂ hboundu).bind fun found env₃ h₃ hkept₃ hlater => ?_
    obtain ⟨final, es⟩ := found
    obtain ⟨⟨hboundFinal, hgrown, htypes⟩, hbelows, hconcrete, hexact⟩ := hlater
    refine infers_pure h₃ ⟨⟨hboundFinal, hgrown.trans (Ty.unify?_refines_left hu),
      forall_mem_cons.mpr ⟨hgrown.trans (Ty.unify?_refines_right hu), htypes⟩⟩,
      .cons hfound.below hbelows, fun hp => hconcrete (.inl (hpinned hp)), fun hlists => ?_⟩
    obtain ⟨hlist, hlists⟩ := forall_mem_cons.mp hlists
    obtain ⟨hknown, htypings⟩ := hexact hlists
    refine ⟨forall_mem_cons.mpr ⟨hfound.known hlist, hknown⟩, fun hp σ hσ => ?_⟩
    obtain ⟨q', hfrom', hq', hbelow', hasked'⟩ := hfound.typings hlist σ (hkept₃ σ hσ)
    obtain ⟨items', hfroms', hitems', hbelows'⟩ := htypings (.inl (hpinned hp)) σ hσ
    -- The type of the first item and the type of the list are both the one that is known after the first item.
    have hfinal : final = u := hgrown.eq_of_isConcrete (hpinned hp)
    have hfirst : q'.type = u := (hasked'.of_unify? hbelow'.type hu).eq_of_isConcrete (hpinned hp)
    exact ⟨q' :: items', .cons hfrom' hfroms', forall_mem_cons.mpr ⟨⟨hq', hfirst.trans hfinal.symm⟩, hitems'⟩,
      .cons hbelow' hbelows'⟩

end Items

theorem pinned_of_saysType {b : Block} {children : List Block} {declared : Option Ty}
    (htag : b.tag = Tag.list.name) (hholds : b.Holds children)
    (hdeclared : b.declaredType "list_type" = .ok declared) (h : b.SaysType) :
    Pinned (declared.getD .captured) children := by
  cases h with
  | plain _ hlist => exact absurd htag hlist
  | var hvar _ =>
    rw [htag] at hvar
    simp [Tag.name] at hvar
  | list _ hnamed =>
    rw [hdeclared] at hnamed
    cases hnamed
    exact .inl (Block.isConcrete_of_declaredType hdeclared)
  | @first _ c _ hvalue hchild =>
    refine .inr ⟨c, ?_, hchild⟩
    have hplugged := hholds.plugged
    cases children with
    | nil =>
      -- A slot for an item is filled, so there is an item.
      obtain ⟨hkeys, -⟩ := Block.refuseOthers_ok_iff.mp (Block.itemSlots_ok_iff.mp hholds.slots).2
      exact absurd (hkeys (Dict.mem_keys_of_get? hvalue)) List.not_mem_nil
    | cons d rest =>
      rw [List.length_cons, List.range_succ_eq_map, List.map_cons] at hplugged
      cases hplugged with
      | cons hplug _ =>
        have hd := hplug.value
        rw [hvalue] at hd
        exact hd.symm

theorem inferred_list {element : Ty} {items : List Expr} (attrs : Attributes) (hagree : ∀ e ∈ items, e.Agrees τ)
    (hsame : ∀ e ∈ items, e.type = element) (ih : ∀ e ∈ items, e.Inferred τ) :
    (list element items attrs).Inferred τ := by
  intro b env hfrom h
  cases hfrom with | list htag hdeclared hholds hfrom => ?_
  obtain ⟨declared, hd, ht⟩ := hdeclared.exists_declared
  rw [read_of_tag htag]
  refine Block.infers_value ?_
  unfold Block.readList
  rw [hd, hholds.slots]
  simp only [Reading.ofExcept_ok, pure_bind]
  have hbound : element.Refines (declared.getD .captured) := by
    cases declared with
    | none => exact .captured _
    | some t => exact .of_eq (ht t rfl).symm
  refine (infers_readElements hholds.plugged hfrom (fun e he => ⟨hagree e he, ih e he, hsame e he⟩) h hbound).bind
    fun found env₁ h₁ _ hpost => ?_
  obtain ⟨final, es⟩ := found
  obtain ⟨⟨hfinal, -, htypes⟩, hbelows, hconcrete, hexact⟩ := hpost
  have hmade : makeList final es b.nodeAttrs = .ok (.list final es b.nodeAttrs) := by
    unfold makeList
    rw [Block.checkItems_of_refines htypes]
    rfl
  have hself : b.SaysType → final.isConcrete = true :=
    fun hsays => hconcrete (pinned_of_saysType htag hholds hd hsays)
  refine infers_node h₁ hmade ⟨.list hfinal hbelows rfl, (fun _ hv => nomatch hv), hself, fun hlists => ?_,
    fun hlists σ hσ => ?_⟩
  · have hsays := hlists b b.mem_reached_self htag
    exact everywhere_list.mpr ⟨hself hsays, (hexact (hlists.of_plugged hholds.plugged)).1⟩
  · have hsays := hlists b b.mem_reached_self htag
    obtain ⟨items', hfrom', hitems', hbelows'⟩ :=
      (hexact (hlists.of_plugged hholds.plugged)).2 (pinned_of_saysType htag hholds hd hsays) σ hσ
    have heq : element = final := hfinal.eq_of_isConcrete (hself hsays)
    exact ⟨.list final items' b.nodeAttrs, .list htag (heq ▸ hdeclared) hholds hfrom',
      .list (fun e he => (hitems' e he).1) (fun e he => (hitems' e he).2), .list (.refl _) hbelows' rfl,
      .captured _⟩

theorem inferred_join {items : List Expr} (attrs : Attributes) (hagree : ∀ e ∈ items, e.Agrees τ)
    (ih : ∀ e ∈ items, e.Inferred τ) : (join items attrs).Inferred τ := by
  intro b env hfrom h
  cases hfrom with | join htag hholds hfrom => ?_
  rw [read_of_tag htag]
  refine Block.infers_value ?_
  unfold Block.readJoin
  rw [hholds.slots]
  simp only [Reading.ofExcept_ok, pure_bind]
  refine (infers_readAll hholds.plugged hfrom (fun e he => ⟨hagree e he, ih e he⟩) h).bind
    fun es env₁ h₁ _ hpost => ?_
  obtain ⟨hbelows, hexact⟩ := hpost
  refine infers_pure h₁ ⟨.join hbelows rfl, (fun _ hv => nomatch hv), fun _ => rfl, fun hlists => ?_,
    fun hlists σ hσ => ?_⟩
  · exact everywhere_join.mpr ⟨trivial, (hexact (hlists.of_plugged hholds.plugged)).1⟩
  · obtain ⟨items', hfrom', hitems', hbelows'⟩ := (hexact (hlists.of_plugged hholds.plugged)).2 σ hσ
    exact ⟨.join items' b.nodeAttrs, .join htag hholds hfrom', .join hitems', .join hbelows' rfl, .captured _⟩

theorem inferred_leaf {q : Expr} (hagrees : ∀ σ, q.Agrees σ) (hbelow : q.Below Eq q) (hvar : ∀ v, q ≠ .var v)
    (hconcrete : q.type.isConcrete = true) (hknown : q.ListsKnown)
    (hread : ∀ b : Block, q.ComesFrom b → b.read = Block.value (pure q)) : q.Inferred τ := by
  intro b env hfrom h
  rw [hread b hfrom]
  apply Block.infers_value
  refine infers_pure h ⟨hbelow, fun v hv => absurd hv (hvar v), fun _ => hconcrete, fun _ => hknown, fun _ σ _ => ?_⟩
  exact ⟨q, hfrom, hagrees σ, hbelow, .captured _⟩

theorem Agrees.inferred {q : Expr} (hq : q.Agrees τ) : q.Inferred τ := by
  induction hq with
  | var hknown => exact inferred_var _ hknown
  | number =>
    refine inferred_leaf (fun _ => .number) (.number rfl) (by simp) rfl (everywhere_number.mpr trivial) fun b hfrom => ?_
    cases hfrom with
    | number htag hfield hvalue =>
      rw [read_of_tag htag, Block.rule, Block.readNumber_of_field hfield hvalue]
  | boolean =>
    refine inferred_leaf (fun _ => .boolean) (.boolean rfl) (by simp) rfl (everywhere_boolean.mpr trivial)
      fun b hfrom => ?_
    cases hfrom with
    | boolean htag hfield => rw [read_of_tag htag, Block.rule, Block.readBoolean_of_field hfield]
  | text =>
    refine inferred_leaf (fun _ => .text) (.text rfl) (by simp) rfl (everywhere_text.mpr trivial) fun b hfrom => ?_
    cases hfrom with
    | text htag hfield => rw [read_of_tag htag, Block.rule, Block.readText_of_field hfield]
  | binary hl hr hsame hasked ihl ihr => exact inferred_binary _ hl hr hsame hasked ihl ihr
  | unary hoperand hasked ih => exact inferred_unary _ hoperand hasked ih
  | list hagree hsame ih => exact inferred_list _ hagree hsame ih
  | length hoperand hasked ih => exact inferred_length _ hoperand hasked ih
  | join hagree ih => exact inferred_join _ hagree ih

end Expr

end Blockwork
