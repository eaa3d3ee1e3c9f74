import Blockwork.Proofs.Origin
import Blockwork.Proofs.Reached
import Blockwork.Proofs.Steps
import Blockwork.Proofs.Syntax
import Blockwork.Proofs.TypeNames
import Blockwork.Proofs.Words

/-! # Provenance of what is read

Whatever is known before a part of a block is read, reading it gives what the part says, or an error that
names the block or a block inside it.
-/

namespace Blockwork

set_option autoImplicit false

open Blockwork.Except (sound_ok sound_error)

/-! ## What is known about variables -/

def TypeEnv.Knows (env : TypeEnv) (vars : List Var) : Prop :=
  ∀ v ∈ vars, (env.lookup v.name).Refines v.type

namespace TypeEnv

variable {env env' : TypeEnv}

variable {vars : List Var}

theorem Knows.mono (h : env.Knows vars) (hgrow : env.Within env'.lookup) : env'.Knows vars :=
  fun v hv => (hgrow v.name).trans (h v hv)

@[simp] theorem knows_nil : env.Knows [] :=
  fun _ h => absurd h List.not_mem_nil

@[simp] theorem knows_cons {v : Var} : env.Knows (v :: vars) ↔ (env.lookup v.name).Refines v.type ∧ env.Knows vars :=
  List.forall_mem_cons

@[simp] theorem knows_append {vars' : List Var} : env.Knows (vars ++ vars') ↔ env.Knows vars ∧ env.Knows vars' :=
  List.forall_mem_append

theorem knows_varsIn {items : List Expr} : env.Knows (Expr.varsIn items) ↔ ∀ e ∈ items, env.Knows e.vars := by
  induction items with
  | nil => simp [Expr.varsIn]
  | cons e rest ih => simp [Expr.varsIn, ih]

theorem knows_stmtVarsIn {body : List Stmt} : env.Knows (Stmt.varsIn body) ↔ ∀ s ∈ body, env.Knows s.vars := by
  induction body with
  | nil => simp [Stmt.varsIn]
  | cons s rest ih => simp [Stmt.varsIn, ih]

theorem knows_varsInBranches {branches : List (Expr × List Stmt)} :
    env.Knows (Stmt.varsInBranches branches) ↔
      ∀ branch ∈ branches, env.Knows branch.1.vars ∧ env.Knows (Stmt.varsIn branch.2) := by
  induction branches with
  | nil => simp [Stmt.varsInBranches]
  | cons branch rest ih =>
    obtain ⟨condition, body⟩ := branch
    simp [Stmt.varsInBranches, ih, and_assoc]

theorem knows_varsInOtherwise {otherwise : Option (List Stmt)} :
    env.Knows (Stmt.varsInOtherwise otherwise) ↔ env.Knows (Stmt.varsIn (otherwise.getD [])) := by
  cases otherwise <;> rfl

end TypeEnv

def Phrase.vars : Phrase → List Var
  | .statement s => s.vars
  | .value e => e.vars

/-! ## Identifiers -/

namespace Block

variable {b c : Block}

theorem Plugged.ids {slot : String} (h : b.Plugged slot c) : c.ids ⊆ b.ids :=
  ids_subset (reached_value h.value)

theorem ids_of_plugged {slots : List String} {children : List Block}
    (h : List.Forall₂ b.Plugged slots children) (hc : c ∈ children) : c.ids ⊆ b.ids := by
  obtain ⟨slot, -, hplugged⟩ := exists_of_mem_right h hc
  exact hplugged.ids

theorem ids_of_mem_body {slot : String} (h : c ∈ b.body slot) : c.ids ⊆ b.ids :=
  ids_subset (reached_of_mem_body h)

end Block

namespace Expr

def Among (ids : List String) (e : Expr) : Prop :=
  e.Everywhere fun part => part.id ∈ ids

variable {e : Expr} {b : Block}

theorem Among.mono {ids ids' : List String} (h : e.Among ids) (hids : ids ⊆ ids') : e.Among ids' :=
  h.imp fun _ hpart => hids hpart

theorem ComesFrom.id_eq (h : e.ComesFrom b) : e.id = b.id := by
  cases h with
  | @var _ v _ _ _ attrs =>
    have hid : v.attrs.id = b.nodeAttrs.id := congrArg Attributes.id attrs
    exact hid
  | _ => rfl

theorem ComesFrom.id_mem (h : e.ComesFrom b) : e.id ∈ b.ids :=
  h.id_eq ▸ b.id_mem_ids

theorem ComesFrom.everywhere_of_plugged {c : Block} {slot : String} (h : e.ComesFrom c) (hplugged : b.Plugged slot c)
    (ih : ∀ {c : Block}, e.ComesFrom c → (∃ d ∈ c.reached, e.ComesFrom d) →
      e.Everywhere fun part => ∃ d ∈ c.reached, part.ComesFrom d) :
    e.Everywhere fun part => ∃ d ∈ b.reached, part.ComesFrom d := by
  refine (ih h ⟨c, c.mem_reached_self, h⟩).imp ?_
  rintro part ⟨d, hd, hpart⟩
  exact ⟨d, Block.reached_value hplugged.value hd, hpart⟩

theorem ComesFrom.everywhere (h : e.ComesFrom b) : e.Everywhere fun part => ∃ c ∈ b.reached, part.ComesFrom c := by
  have here : ∃ c ∈ b.reached, e.ComesFrom c := ⟨b, b.mem_reached_self, h⟩
  induction e generalizing b with
  | var => exact everywhere_var.mpr here
  | number => exact everywhere_number.mpr here
  | boolean => exact everywhere_boolean.mpr here
  | text => exact everywhere_text.mpr here
  | binary op left right attrs ihl ihr =>
    cases h with
    | binary _ _ hl hr fromLeft fromRight =>
      exact everywhere_binary.mpr ⟨here, fromLeft.everywhere_of_plugged hl ihl,
        fromRight.everywhere_of_plugged hr ihr⟩
  | unary op operand attrs ih =>
    cases h with
    | unary _ _ hplugged fromOperand =>
      exact everywhere_unary.mpr ⟨here, fromOperand.everywhere_of_plugged hplugged ih⟩
  | list element items attrs ih =>
    cases h with
    | list _ _ holds fromItems =>
      refine everywhere_list.mpr ⟨here, fun e he => ?_⟩
      obtain ⟨c, hc, fromItem⟩ := exists_of_mem_left fromItems he
      obtain ⟨slot, -, hplugged⟩ := exists_of_mem_right holds.plugged hc
      exact fromItem.everywhere_of_plugged hplugged (ih e he)
  | length operand attrs ih =>
    cases h with
    | length _ hplugged fromList =>
      exact everywhere_length.mpr ⟨here, fromList.everywhere_of_plugged hplugged ih⟩
  | join items attrs ih =>
    cases h with
    | join _ holds fromItems =>
      refine everywhere_join.mpr ⟨here, fun e he => ?_⟩
      obtain ⟨c, hc, fromItem⟩ := exists_of_mem_left fromItems he
      obtain ⟨slot, -, hplugged⟩ := exists_of_mem_right holds.plugged hc
      exact fromItem.everywhere_of_plugged hplugged (ih e he)

theorem ComesFrom.among (h : e.ComesFrom b) : e.Among b.ids := by
  refine h.everywhere.imp ?_
  rintro part ⟨c, hc, hpart⟩
  rw [hpart.id_eq]
  exact List.mem_map_of_mem hc

end Expr

/-! ## Steps -/

namespace Reading

variable {ids : List String} {env : TypeEnv}

theorem sound_constrainAll {items : List Expr} {expected : Ty}
    (h : ∀ e ∈ items, ∀ env, Sound ids (constrain e expected) env fun _ _ => True) :
    Sound ids (constrainAll items expected) env fun _ _ => True := by
  induction items generalizing env with
  | nil =>
    rw [constrainAll]
    exact sound_pure trivial
  | cons e rest ih =>
    rw [constrainAll]
    refine (h e List.mem_cons_self env).bind fun _ env₁ _ _ => ?_
    exact ih fun e' he' => h e' (List.mem_cons_of_mem e he')

theorem sound_learn {v : Var} (t : Ty) (hid : v.attrs.id ∈ ids) : Sound ids (learn v t) env fun _ _ => True := by
  unfold learn
  split
  · exact sound_pure trivial
  · exact (sound_bindType v.name t hid).bind fun _ _ _ _ => sound_pure trivial

theorem sound_constrain {e : Expr} (h : e.Among ids) (expected : Ty) :
    Sound ids (constrain e expected) env fun _ _ => ∃ u, Ty.unify? expected e.type = some u := by
  induction e generalizing expected env with
  | var v =>
    rw [constrain_var]
    refine (sound_unify expected v.type h.here).bind fun u env₁ _ hu => ?_
    exact (sound_learn u h.here).imp fun _ _ _ _ => ⟨u, hu⟩
  | list element items attrs ih =>
    rw [constrain_list]
    refine (sound_unify expected (.list element) h.here).bind fun u env₁ _ hu => ?_
    refine (sound_constrainAll fun e he env => ?_).imp fun _ _ _ _ => ⟨u, hu⟩
    exact (ih e he ((Expr.everywhere_list.mp h).2 e he) _).imp fun _ _ _ _ => trivial
  | _ =>
    rw [constrain_of_closed rfl]
    refine (sound_unify expected _ h.here).bind fun u env₁ _ hu => ?_
    exact sound_pure ⟨u, hu⟩

variable {blockId : String}

theorem sound_bindDeclared (name : String) (declared : Option Ty) (hid : blockId ∈ ids) :
    Sound ids (bindDeclared name declared blockId) env fun _ env' =>
      ∀ t, declared = some t → (env'.lookup name).Refines t := by
  unfold bindDeclared
  split
  · next t =>
    refine (sound_bindType name t hid).bind fun u env₁ _ ⟨hu, hlookup⟩ => ?_
    refine sound_pure fun t' ht' => ?_
    cases ht'
    exact hlookup ▸ hu
  · exact sound_pure nofun

theorem sound_linkTo (name : String) (value : Expr) (t : Ty) (hid : blockId ∈ ids) :
    Sound ids (linkTo name value t blockId) env fun _ _ => True := by
  unfold linkTo
  split
  · split
    · exact sound_pure trivial
    · exact sound_equate name _ hid
  · exact sound_pure trivial

theorem sound_linkBoth (left right : Expr) (t : Ty) (hid : blockId ∈ ids) :
    Sound ids (linkBoth left right t blockId) env fun _ _ => True := by
  unfold linkBoth
  split
  · exact sound_linkTo _ right t hid
  · exact sound_pure trivial

theorem sound_linkElements (name : String) (list : Expr) (t : Ty)
    (hid : blockId ∈ ids) : Sound ids (linkElements name list t blockId) env fun _ _ => True := by
  unfold linkElements
  split
  · split
    · exact sound_pure trivial
    · exact sound_elementOf name _ hid
  · exact sound_pure trivial

theorem sound_share (op : BinaryOp) {left right : Expr} (hl : left.Among ids) (hr : right.Among ids)
    (hid : blockId ∈ ids) :
    Sound ids (share op left right blockId) env fun _ _ =>
      op.isEquality = true → ∃ u, Ty.unify? left.type right.type = some u := by
  unfold share
  split
  · refine (sound_unify left.type right.type hr.here).bind fun u env₁ _ hu => ?_
    refine (sound_constrain hl u).bind fun _ env₂ _ _ => ?_
    refine (sound_constrain hr u).bind fun _ env₃ _ _ => ?_
    exact (sound_linkBoth left right u hid).imp fun _ _ _ _ _ => ⟨u, hu⟩
  · next h => exact sound_pure fun h' => absurd h' h

end Reading

/-! ## Fields and mutations -/

namespace Block

variable (b : Block)

theorem sound_requiredField (name : String) :
    Except.Sound b.ids (b.requiredField name) fun value => b.field? name = some value := by
  unfold requiredField
  split
  · next value h => exact sound_ok h
  · exact sound_error ⟨b.id, b.id_mem_ids, rfl⟩

theorem sound_requiredName : Except.Sound b.ids b.requiredName b.Names := by
  unfold requiredName
  refine (b.sound_requiredField "VAR").bind fun name _ hfield => ?_
  cases h : (Text.strip name.toList).isEmpty with
  | true => exact sound_error ⟨b.id, b.id_mem_ids, rfl⟩
  | false => exact sound_ok ⟨hfield, h⟩

theorem sound_requiredWord {α : Type} (field : String) (ofWord? : String → Option α) :
    Except.Sound b.ids (b.requiredWord field ofWord?) fun a =>
      ∃ word, b.field? field = some word ∧ ofWord? word = some a := by
  unfold requiredWord
  refine (b.sound_requiredField field).bind fun word _ hfield => ?_
  cases h : ofWord? word with
  | none => exact sound_error ⟨b.id, b.id_mem_ids, rfl⟩
  | some a => exact sound_ok ⟨word, hfield, h⟩

theorem sound_declaredType (key : String) :
    Except.Sound b.ids (b.declaredType key) fun declared => b.declaredType key = .ok declared := by
  unfold declaredType
  split
  · exact sound_ok rfl
  · split
    · exact sound_ok rfl
    · exact sound_error ⟨b.id, b.id_mem_ids, rfl⟩
    · exact sound_error ⟨b.id, b.id_mem_ids, rfl⟩

theorem sound_declaredCount (key : String) :
    Except.Sound b.ids (b.declaredCount key) fun n => b.declaredCount key = .ok n := by
  unfold declaredCount
  split
  · exact sound_ok rfl
  · split
    · exact sound_ok rfl
    · exact sound_error ⟨b.id, b.id_mem_ids, rfl⟩

theorem sound_boundedCount (key : String) (limit : Nat) :
    Except.Sound b.ids (b.boundedCount key limit) fun n => b.boundedCount key limit = .ok n := by
  suffices h : Except.Sound b.ids (b.boundedCount key limit) fun _ => True from h.eq_ok
  unfold boundedCount
  refine (b.sound_declaredCount key).bind fun n _ _ => ?_
  cases n with
  | none => exact sound_ok trivial
  | some n =>
    by_cases h : limit < n
    · simp only [if_pos h]
      exact sound_error ⟨b.id, b.id_mem_ids, rfl⟩
    · simp only [if_neg h]
      exact sound_ok trivial

theorem sound_refuseOthers (values statements : List String) :
    Except.Sound b.ids (b.refuseOthers values statements) fun _ =>
      b.refuseOthers values statements = .ok () := by
  unfold refuseOthers
  split
  · exact sound_error ⟨b.id, b.id_mem_ids, rfl⟩
  · exact sound_ok rfl

theorem sound_itemSlots :
    Except.Sound b.ids b.itemSlots fun slots =>
      b.itemSlots = .ok slots ∧ ∃ n, slots = (List.range n).map itemSlot := by
  suffices h : Except.Sound b.ids b.itemSlots fun slots => ∃ n, slots = (List.range n).map itemSlot by
    cases hslots : b.itemSlots with
    | error e => exact h.error hslots
    | ok slots => exact ⟨rfl, h.ok hslots⟩
  unfold itemSlots
  have hcount : Except.Sound b.ids b.itemCount fun _ => True := by
    unfold itemCount
    refine (b.sound_boundedCount "items" b.values.length).bind fun n _ _ => ?_
    cases n <;> exact sound_ok trivial
  refine hcount.bind fun n _ _ => ?_
  exact (b.sound_refuseOthers _ _).bind fun _ _ _ => sound_ok ⟨n, rfl⟩

variable {b}

variable {key : String} {t : Ty}

theorem isConcrete_of_declaredType (h : b.declaredType key = .ok (some t)) : t.isConcrete = true := by
  unfold declaredType at h
  split at h
  · cases h
  · split at h
    · next ht =>
      cases h
      exact Ty.isConcrete_of_ofName ht
    · cases h
    · cases h

theorem declares_of_refines {declared : Option Ty}
    (h : b.declaredType key = .ok declared) (ht : ∀ u, declared = some u → t.Refines u) : b.Declares key t := by
  cases declared with
  | none => exact .inl h
  | some u =>
    have heq : t = u := (ht u rfl).eq_of_isConcrete (isConcrete_of_declaredType h)
    exact .inr (heq ▸ h)

theorem Declares.mono {u : Ty} (h : b.Declares key t) (hu : u.Refines t) : b.Declares key u := by
  rcases h with h | h
  · exact .inl h
  · exact declares_of_refines h fun _ e => Option.some.inj e ▸ hu

end Block

/-! ## Slots -/

namespace Block

open Reading (Sound sound_pure sound_throw sound_mapM)

def Reads (b : Block) (p : Phrase) (env : TypeEnv) : Prop :=
  p.ComesFrom b ∧ env.Knows p.vars

variable {env : TypeEnv}

theorem sound_asExpr {b : Block} {read : Reading Phrase} (h : Sound b.ids read env b.Reads) :
    Sound b.ids (b.asExpr read) env fun e env' =>
      b.next = none ∧ e.ComesFrom b ∧ env'.Knows e.vars := by
  unfold asExpr
  split
  · exact sound_throw ⟨b.id, b.id_mem_ids, rfl⟩
  · next halone =>
    refine h.bind fun p env₁ _ hp => ?_
    cases p with
    | value e => exact sound_pure ⟨halone, hp.1, hp.2⟩
    | statement s => exact sound_throw ⟨b.id, b.id_mem_ids, rfl⟩

theorem sound_asStmt {b : Block} {read : Reading Phrase} (h : Sound b.ids read env b.Reads) :
    Sound b.ids (b.asStmt read) env fun s env' => s.ComesFrom b ∧ env'.Knows s.vars := by
  unfold asStmt
  refine h.bind fun p env₁ _ hp => ?_
  cases p with
  | value e => exact sound_throw ⟨b.id, b.id_mem_ids, rfl⟩
  | statement s => exact sound_pure ⟨hp.1, hp.2⟩

theorem sound_stmts {α : Type} {ids : List String} {xs : List α} (block : α → Block)
    {readOne : α → Reading Stmt}
    (h : ∀ x ∈ xs, ∀ env, Sound ids (readOne x) env fun s env' =>
      s.ComesFrom (block x) ∧ env'.Knows s.vars) :
    Sound ids (xs.mapM readOne) env fun body env' =>
      List.Forall₂ Stmt.ComesFrom body (xs.map block) ∧ env'.Knows (Stmt.varsIn body) := by
  have hpersists : ∀ x, Reading.Persists fun (s : Stmt) env' =>
      s.ComesFrom (block x) ∧ env'.Knows s.vars :=
    fun _ _ _ _ hgrow hs => ⟨hs.1, hs.2.mono hgrow⟩
  refine (sound_mapM hpersists h).imp fun body env' _ hbody => ⟨?_, ?_⟩
  · rw [List.forall₂_map_right_iff]
    exact hbody.imp fun _ _ => And.left
  · refine TypeEnv.knows_stmtVarsIn.mpr fun s hs => ?_
    obtain ⟨x, -, hx⟩ := exists_of_mem_left hbody hs
    exact hx.2

variable {b : Block} {inner : Inner b}
  (hinner : ∀ child h env, Sound child.ids (inner child h) env child.Reads)

include hinner

theorem sound_valueIn (slot : String) (expected : Ty) :
    Sound b.ids (b.valueIn inner slot expected) env fun e env' =>
      (∃ c, b.Plugged slot c ∧ e.ComesFrom c) ∧ env'.Knows e.vars ∧
        ∃ u, Ty.unify? expected e.type = some u := by
  unfold valueIn
  split
  · exact sound_throw ⟨b.id, b.id_mem_ids, rfl⟩
  · next child h =>
    have hids : child.ids ⊆ b.ids := ids_subset (reached_value h)
    refine ((sound_asExpr (hinner child _ env)).mono hids).bind fun e env₁ _ he => ?_
    obtain ⟨halone, hfrom, hknown⟩ := he
    refine (Reading.sound_constrain (hfrom.among.mono hids) expected).bind fun _ env₂ hgrow hu => ?_
    exact sound_pure ⟨⟨child, ⟨h, halone⟩, hfrom⟩, hknown.mono hgrow.within, hu⟩

theorem sound_statementsIn (slot : String) :
    Sound b.ids (b.statementsIn inner slot) env fun body env' =>
      List.Forall₂ Stmt.ComesFrom body (b.body slot) ∧ env'.Knows (Stmt.varsIn body) := by
  unfold statementsIn
  split
  · next h =>
    have hbody : b.body slot = [] := by rw [Block.body, h, chainFrom_none]
    exact sound_pure ⟨hbody ▸ .nil, TypeEnv.knows_nil⟩
  · next first h =>
    have hbody : b.body slot = first.chain := by rw [Block.body, h, chainFrom_some]
    rw [hbody]
    refine (sound_stmts Subtype.val fun c _ env => ?_).imp fun body env' _ hread => ?_
    · have hc : c.1 ∈ b.body slot := by
        rw [hbody]
        exact c.2
      have hids : c.1.ids ⊆ b.ids := ids_of_mem_body hc
      exact (sound_asStmt (hinner c.1 _ env)).mono hids
    · rwa [List.attach_map_subtype_val] at hread

end Block

end Blockwork
