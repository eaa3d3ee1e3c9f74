import Blockwork.Proofs.Following
import Blockwork.Proofs.RuleEquations

/-! # Reading blocks that say more

Two blocks from which the same node comes are read side by side. The second one names all types that the first
one names, perhaps more of them.
-/

namespace Blockwork

set_option autoImplicit false

open Reading (Follows follows_pure follows_node)
open List (Forall₂)
open Block (read_of_tag)

/-! ## Values -/

/-- What is seen of a value that is read on both sides. If the second value is a variable, then so is the node, and
nothing was learned about other variables. -/
structure Expr.Seen (q' : Expr) (env' : TypeEnv) (e e' : Expr) (env₁' : TypeEnv) : Prop where
  below : e.Below (fun _ _ => True) e'
  var : ∀ v, e' = .var v →
    (∃ v', q' = .var v' ∧ v'.name = v.name) ∧ ∀ other, v.name ≠ other → env₁'.lookup other = env'.lookup other

def Expr.ReadBelow (q' : Expr) (b b' : Block) : Prop :=
  ∀ env env', env.CoveredBy env' → Follows env env' b.read b'.read fun p p' env₁' =>
    ∃ e e', p = .value e ∧ p' = .value e' ∧ q'.Seen env' e e' env₁'

def Expr.Rereads (q' : Expr) : Prop :=
  ∀ (q : Expr) (b b' : Block), q.ComesFrom b → q.Below Attributes.Informs q' → q'.ComesFrom b' → q'.ReadBelow b b'

theorem Expr.readBelow_of_rule {q' : Expr} {b b' : Block} {r r' : Reading Expr} (hr : b.read = Block.value r)
    (hr' : b'.read = Block.value r')
    (h : ∀ env env', env.CoveredBy env' → Follows env env' r r' (q'.Seen env')) : q'.ReadBelow b b' := by
  intro env env' hcovered
  rw [hr, hr']
  refine (h env env' hcovered).bind fun e e' env₁ env₁' hcovered₁ _ hseen => ?_
  exact follows_pure hcovered₁ ⟨e, e', rfl, rfl, hseen⟩

namespace Block

variable {env env' : TypeEnv} {b b' c c' : Block} {slot slot' : String} {q' : Expr}

theorem follows_readExpr (hq' : q'.ReadBelow c c') (hnext : c.next = none) (hnext' : c'.next = none)
    (h : env.CoveredBy env') :
    Follows env env' c.readExpr c'.readExpr fun e e' env₁' => q'.Seen env' e e' env₁' ∧ env₁'.Knows e'.vars := by
  have hread : Follows env env' c.readExpr c'.readExpr (q'.Seen env') := by
    unfold readExpr asExpr
    rw [hnext, hnext']
    refine (hq' env env' h).bind fun p p' env₁ env₁' hcovered _ hpost => ?_
    obtain ⟨e, e', rfl, rfl, hseen⟩ := hpost
    exact follows_pure hcovered hseen
  -- The variables of the second value are known because reading is sound.
  intro e env₁ e' env₁' hyields hyields'
  obtain ⟨hcovered, hgrows, hseen⟩ := hread e env₁ e' env₁' hyields hyields'
  obtain ⟨-, hsound⟩ := sound_asExpr (sound_read c' env') _ _ hyields'
  exact ⟨hcovered, hgrows, hseen, hsound.2.2⟩

theorem follows_valueIn {expected expected' : Ty} (hplugged : b.Plugged slot c) (hplugged' : b'.Plugged slot' c')
    (hq' : q'.ReadBelow c c') (h : env.CoveredBy env') (hexpected : expected'.Refines expected) :
    Follows env env' (b.valueIn (fun child _ => child.read) slot expected)
      (b'.valueIn (fun child _ => child.read) slot' expected') fun e e' env₁' =>
      q'.Seen env' e e' env₁' ∧ env₁'.Knows e'.vars ∧
        ∀ v, e' = .var v → (env₁'.lookup v.name).Refines expected' := by
  rw [valueIn_of_plugged hplugged, valueIn_of_plugged hplugged']
  refine (follows_readExpr hq' hplugged.alone hplugged'.alone h).bind fun e e' env₁ env₁' hcovered _ hpost => ?_
  obtain ⟨hseen, hknows⟩ := hpost
  refine (Reading.follows_constrain hcovered hseen.below hknows hexpected).bind
    fun _ _ env₂ env₂' hcovered₂ hgrows₂ htold => ?_
  refine follows_pure hcovered₂ ⟨⟨hseen.below, fun v hv => ⟨(hseen.var v hv).1, fun other hne => ?_⟩⟩,
    hknows.mono hgrows₂.known, fun v hv => (htold v hv).known⟩
  rw [(htold v hv).frame other hne, (hseen.var v hv).2 other hne]

theorem follows_makeVar {name : String} {t t' : Ty} {attrs attrs' : Attributes} (h : env.CoveredBy env')
    (ht : t'.Refines t) :
    Follows env env' (Reading.node (Var.make name t attrs)) (Reading.node (Var.make name t' attrs')) fun v v' env₁' =>
      v.Below (fun _ _ => True) v' ∧ v'.name = name ∧ env₁' = env' := by
  refine follows_node h fun v v' hv hv' => ?_
  unfold Var.make at hv hv'
  grind [Var.Below]

end Block

namespace Expr

theorem rereads_var (v' : Var) : (var v').Rereads := by
  intro q b b' hfrom hbelow hfrom'
  cases hbelow with | var hv => ?_
  cases hfrom with | var htag hname hdeclared hattrs => ?_
  cases hfrom' with | var htag' hname' hdeclared' hattrs' => ?_
  refine readBelow_of_rule (read_of_tag htag) (read_of_tag htag') fun env env' h => ?_
  obtain ⟨declared, hd, -⟩ := hdeclared.exists_declared
  obtain ⟨declared', hd', -⟩ := hdeclared'.exists_declared
  have hinforms : b.nodeAttrs.Informs b'.nodeAttrs := hattrs ▸ hattrs' ▸ hv.attrs
  rw [Block.readVar_eq, Block.readVar_eq, Block.requiredName_of_names hname, Block.requiredName_of_names hname', hd,
    hd', hv.name]
  simp only [Reading.ofExcept_ok, pure_bind]
  refine (Reading.follows_bindDeclared h fun t e => ?_).bind fun _ _ env₁ env₁' hcovered₁ _ hframe => ?_
  · exact Block.declaredType_of_informs (by simp) hinforms (e ▸ hd) hd'
  refine (Reading.follows_lookup hcovered₁ v'.name).bind fun t t' env₂ env₂' hcovered₂ _ hlookup => ?_
  obtain ⟨rfl, hrefines, -⟩ := hlookup
  refine (Block.follows_makeVar hcovered₂ hrefines).bind fun v w env₃ env₃' hcovered₃ _ hmade => ?_
  obtain ⟨hvar, hw, rfl⟩ := hmade
  refine follows_pure hcovered₃ ⟨.var hvar, ?_⟩
  rintro _ ⟨⟩
  exact ⟨⟨v', rfl, hw.symm⟩, hw ▸ hframe⟩

theorem rereads_binary {op : BinaryOp} {l r : Expr} (attrs : Attributes) (hl : l.Rereads) (hr : r.Rereads) :
    (binary op l r attrs).Rereads := by
  intro q b b' hfrom hbelow hfrom'
  cases hbelow with | binary hbelowLeft hbelowRight _ => ?_
  cases hfrom with | binary htag hfield hplugA hplugB hfromA hfromB => ?_
  cases hfrom' with | binary htag' hfield' hplugA' hplugB' hfromA' hfromB' => ?_
  refine readBelow_of_rule (Block.read_binary htag) (Block.read_binary htag') fun env env' h => ?_
  have hword := BinaryOp.ofWord?_eq_some_iff.mpr ⟨rfl, htag⟩
  have hword' := BinaryOp.ofWord?_eq_some_iff.mpr ⟨rfl, htag'⟩
  rw [Block.readBinary_eq, Block.readBinary_eq, Block.requiredWord_of_field hfield hword,
    Block.requiredWord_of_field hfield' hword']
  simp only [Reading.ofExcept_ok, pure_bind]
  refine (Block.follows_valueIn hplugA hplugA' (hl _ _ _ hfromA hbelowLeft hfromA') h (.refl _)).bind
    fun left left' env₁ env₁' hcovered₁ _ hleft => ?_
  refine (Block.follows_valueIn hplugB hplugB' (hr _ _ _ hfromB hbelowRight hfromB') hcovered₁ (.refl _)).bind
    fun right right' env₂ env₂' hcovered₂ hgrows₂ hright => ?_
  refine (Reading.follows_share op hcovered₂ hleft.1.below (hleft.2.1.mono hgrows₂.known) hright.1.below
    hright.2.1).bind fun _ _ env₃ env₃' hcovered₃ _ _ => ?_
  refine follows_node hcovered₃ fun e e' he he' => ?_
  rw [eq_of_makeBinary he, eq_of_makeBinary he']
  exact ⟨.binary hleft.1.below hright.1.below trivial, fun _ hv => nomatch hv⟩

theorem rereads_unary {op : UnaryOp} {operand : Expr} (attrs : Attributes) (hoperand : operand.Rereads) :
    (unary op operand attrs).Rereads := by
  intro q b b' hfrom hbelow hfrom'
  cases hbelow with | unary hbelow _ => ?_
  cases hfrom with | unary htag hfield hplug hfrom => ?_
  cases hfrom' with | unary htag' hfield' hplug' hfrom' => ?_
  refine readBelow_of_rule (Block.read_unary htag hfield) (Block.read_unary htag' hfield') fun env env' h => ?_
  unfold Block.readUnary
  refine (Block.follows_valueIn hplug hplug' (hoperand _ _ _ hfrom hbelow hfrom') h (.refl _)).bind
    fun e e' env₁ env₁' hcovered _ hpost => ?_
  refine follows_node hcovered fun made made' hmade hmade' => ?_
  rw [eq_of_makeUnary hmade, eq_of_makeUnary hmade']
  exact ⟨.unary hpost.1.below trivial, fun _ hv => nomatch hv⟩

theorem rereads_length {operand : Expr} (attrs : Attributes) (hoperand : operand.Rereads) :
    (length operand attrs).Rereads := by
  intro q b b' hfrom hbelow hfrom'
  cases hbelow with | length hbelow _ => ?_
  cases hfrom with | length htag hplug hfrom => ?_
  cases hfrom' with | length htag' hplug' hfrom' => ?_
  refine readBelow_of_rule (read_of_tag htag) (read_of_tag htag') fun env env' h => ?_
  unfold Block.readLength
  refine (Block.follows_valueIn hplug hplug' (hoperand _ _ _ hfrom hbelow hfrom') h (.refl _)).bind
    fun e e' env₁ env₁' hcovered _ hpost => ?_
  refine follows_node hcovered fun made made' hmade hmade' => ?_
  rw [eq_of_makeLength hmade, eq_of_makeLength hmade']
  exact ⟨.length hpost.1.below trivial, fun _ hv => nomatch hv⟩

/-! ## Values with items -/

/-- The values in the two slots are read side by side. -/
def ItemBelow (b b' : Block) (slot slot' : String) : Prop :=
  ∃ q' c c', b.Plugged slot c ∧ b'.Plugged slot' c' ∧ ReadBelow q' c c'

variable {b b' : Block} {slots slots' : List String} {items items' : List Expr}

theorem forall₂_readBelow {children children' : List Block} (hitems : ∀ e ∈ items', e.Rereads)
    (hfrom : Forall₂ ComesFrom items children) (hbelow : Forall₂ (Below Attributes.Informs) items items')
    (hfrom' : Forall₂ ComesFrom items' children') :
    Forall₂ (fun c c' => ∃ q', ReadBelow q' c c') children children' :=
  forall₂_of_path (fun q' hq' q c c' hfrom hbelow hfrom' => ⟨q', hitems q' hq' q c c' hfrom hbelow hfrom'⟩) hfrom
    hbelow hfrom'

theorem forall₂_itemBelow {α : Type} {slot : α → String} {as as' : List α} {children children' : List Block}
    (hplugged : Forall₂ (fun c a => b.Plugged (slot a) c) children as)
    (hchildren : Forall₂ (fun c c' => ∃ q', ReadBelow q' c c') children children')
    (hplugged' : Forall₂ (fun c' a => b'.Plugged (slot a) c') children' as') :
    Forall₂ (fun a a' => ItemBelow b b' (slot a) (slot a')) as as' := by
  refine forall₂_of_path (fun c' _ c a a' hplug hread hplug' => ?_) hplugged hchildren hplugged'
  obtain ⟨q', hread⟩ := hread
  exact ⟨q', c, c', hplug, hplug', hread⟩

section Items

variable {env env' : TypeEnv} (hslots : Forall₂ (ItemBelow b b') slots slots')

include hslots

theorem follows_readElements {element element' : Ty} (h : env.CoveredBy env') (helement : element'.Refines element) :
    Follows env env' (b.readElements (fun child _ => child.read) element slots)
      (b'.readElements (fun child _ => child.read) element' slots') fun found found' _ =>
      found'.1.Refines found.1 ∧ Forall₂ (Below fun _ _ => True) found.2 found'.2 := by
  induction hslots generalizing env env' element element' with
  | nil => exact follows_pure h ⟨helement, .nil⟩
  | cons hslot _ ih =>
    obtain ⟨q', c, c', hplug, hplug', hread⟩ := hslot
    unfold Block.readElements
    refine (Block.follows_valueIn hplug hplug' hread h helement).bind fun e e' env₁ env₁' hcovered₁ _ hpost => ?_
    refine (Reading.follows_unify hcovered₁ helement hpost.1.below.type).bind
      fun u u' env₂ env₂' hcovered₂ _ hunified => ?_
    refine (ih hcovered₂ hunified.2.1).bind fun found found' env₃ env₃' hcovered₃ _ hlater => ?_
    exact follows_pure hcovered₃ ⟨hlater.1, .cons hpost.1.below hlater.2⟩

theorem follows_readAll (h : env.CoveredBy env') :
    Follows env env' (slots.mapM fun slot => b.valueIn (fun child _ => child.read) slot .captured)
      (slots'.mapM fun slot => b'.valueIn (fun child _ => child.read) slot .captured) fun es es' _ =>
      Forall₂ (Below fun _ _ => True) es es' := by
  refine Reading.follows_mapM hslots (fun slot slot' hslot env env' h => ?_) h
  obtain ⟨q', c, c', hplug, hplug', hread⟩ := hslot
  exact (Block.follows_valueIn hplug hplug' hread h (.refl _)).imp fun _ _ _ hpost => hpost.1.below

end Items

theorem rereads_list {element : Ty} (attrs : Attributes)
    (hitems : ∀ e ∈ items', e.Rereads) : (list element items' attrs).Rereads := by
  intro q b b' hfrom hbelow hfrom'
  cases hbelow with | list _ hbelow hattrs => ?_
  cases hfrom with | list htag hdeclared hholds hfrom => ?_
  cases hfrom' with | list htag' hdeclared' hholds' hfrom' => ?_
  refine readBelow_of_rule (read_of_tag htag) (read_of_tag htag') fun env env' h => ?_
  obtain ⟨declared, hd, -⟩ := hdeclared.exists_declared
  obtain ⟨declared', hd', -⟩ := hdeclared'.exists_declared
  have hread : Forall₂ (ItemBelow b b') _ _ := forall₂_itemBelow hholds.plugged.flip
    (forall₂_readBelow hitems hfrom hbelow hfrom') hholds'.plugged.flip
  unfold Block.readList
  rw [hd, hd', hholds.slots, hholds'.slots]
  simp only [Reading.ofExcept_ok, pure_bind]
  have hstart : (declared'.getD .captured).Refines (declared.getD .captured) := by
    cases declared with
    | none => exact .captured _
    | some t =>
      rw [Block.declaredType_of_informs (by simp) hattrs hd hd']
      exact .refl _
  refine (follows_readElements hread h hstart).bind fun found found' env₁ env₁' hcovered _ hpost => ?_
  refine follows_node hcovered fun made made' hmade hmade' => ?_
  rw [eq_of_makeList hmade, eq_of_makeList hmade']
  exact ⟨.list hpost.1 hpost.2 trivial, fun _ hv => nomatch hv⟩

theorem rereads_join (attrs : Attributes) (hitems : ∀ e ∈ items', e.Rereads) : (join items' attrs).Rereads := by
  intro q b b' hfrom hbelow hfrom'
  cases hbelow with | join hbelow _ => ?_
  cases hfrom with | join htag hholds hfrom => ?_
  cases hfrom' with | join htag' hholds' hfrom' => ?_
  refine readBelow_of_rule (read_of_tag htag) (read_of_tag htag') fun env env' h => ?_
  have hread : Forall₂ (ItemBelow b b') _ _ := forall₂_itemBelow hholds.plugged.flip
    (forall₂_readBelow hitems hfrom hbelow hfrom') hholds'.plugged.flip
  unfold Block.readJoin
  rw [hholds.slots, hholds'.slots]
  simp only [Reading.ofExcept_ok, pure_bind]
  refine (follows_readAll hread h).bind fun es es' env₁ env₁' hcovered _ hpost => ?_
  exact follows_pure hcovered ⟨.join hpost trivial, fun _ hv => nomatch hv⟩

theorem rereads (q' : Expr) : q'.Rereads := by
  induction q' with
  | var v' => exact rereads_var v'
  | number literal value attrs =>
    intro q b b' hfrom hbelow hfrom'
    cases hbelow
    cases hfrom with | number htag hfield hvalue => ?_
    cases hfrom' with | number htag' hfield' hvalue' => ?_
    refine readBelow_of_rule (read_of_tag htag) (read_of_tag htag') fun env env' h => ?_
    rw [Block.readNumber_of_field hfield hvalue, Block.readNumber_of_field hfield' hvalue']
    exact follows_pure h ⟨.number trivial, fun _ hv => nomatch hv⟩
  | boolean value attrs =>
    intro q b b' hfrom hbelow hfrom'
    cases hbelow
    cases hfrom with | boolean htag hfield => ?_
    cases hfrom' with | boolean htag' hfield' => ?_
    refine readBelow_of_rule (read_of_tag htag) (read_of_tag htag') fun env env' h => ?_
    rw [Block.readBoolean_of_field hfield, Block.readBoolean_of_field hfield']
    exact follows_pure h ⟨.boolean trivial, fun _ hv => nomatch hv⟩
  | text value attrs =>
    intro q b b' hfrom hbelow hfrom'
    cases hbelow
    cases hfrom with | text htag hfield => ?_
    cases hfrom' with | text htag' hfield' => ?_
    refine readBelow_of_rule (read_of_tag htag) (read_of_tag htag') fun env env' h => ?_
    rw [Block.readText_of_field hfield, Block.readText_of_field hfield']
    exact follows_pure h ⟨.text trivial, fun _ hv => nomatch hv⟩
  | binary _ _ _ attrs hl hr => exact rereads_binary attrs hl hr
  | unary _ _ attrs hoperand => exact rereads_unary attrs hoperand
  | list _ _ attrs hitems => exact rereads_list attrs hitems
  | length _ attrs hoperand => exact rereads_length attrs hoperand
  | join _ attrs hitems => exact rereads_join attrs hitems

end Expr

end Blockwork
