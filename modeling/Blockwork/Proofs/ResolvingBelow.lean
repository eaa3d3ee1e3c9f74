import Blockwork.Proofs.InferenceStatements

/-! # Resolving what is below a typing

A node below a well-typed one resolves to that one, or is refused because a type is still open. It is never refused
for types that do not fit. A condition that goes over from a node to its parts, with what they are asked for, can
exclude that a type is still open.
-/

namespace Blockwork

set_option autoImplicit false

open List (Forall₂)

variable {e : Expr}

namespace Except

variable {α β : Type} {known : Prop}
variable {x : Except Error α} {f : α → Except Error β}

def Settles (known : Prop) (x : Except Error α) (a : α) : Prop :=
  x = .ok a ∨ ¬known ∧ ∃ t id, x = .error (.unresolved t id)

theorem settles_ok (a : α) : Settles known (.ok a) a :=
  .inl rfl

variable {a : α}

theorem settles_unresolved (t : Ty) (id : String) (h : ¬known) : Settles known (.error (.unresolved t id)) a :=
  .inr ⟨h, t, id, rfl⟩

theorem Settles.eq_ok (h : Settles known x a) (hknown : known) : x = .ok a :=
  h.resolve_right fun hopen => hopen.1 hknown

theorem Settles.mono {known' : Prop} (h : Settles known x a) (hk : known' → known) : Settles known' x a := by
  rcases h with h | ⟨hopen, h⟩
  · exact .inl h
  · exact .inr ⟨fun hk' => hopen (hk hk'), h⟩

theorem Settles.bind {b : β} (h : Settles known x a) (hf : Settles known (f a) b) : Settles known (x >>= f) b := by
  rcases h with rfl | ⟨hopen, t, id, rfl⟩
  · exact hf
  · exact settles_unresolved t id hopen

theorem Settles.step {known' : Prop} {b : β} (h : Settles known x a) (hk : known' → known)
    (hf : Settles known' (f a) b) : Settles known' (x >>= f) b :=
  (h.mono hk).bind hf

theorem settles_mapM {R : α → β → Prop} {xs : List α} {ys : List β}
    (h : Forall₂ (fun x y => Settles (R x y) (f x) y) xs ys) :
    Settles (Forall₂ R xs ys) (xs.mapM f) ys := by
  induction h with
  | nil => exact settles_ok _
  | cons hhead _ ih =>
    rw [List.mapM_cons]
    exact hhead.step (fun hR => (List.forall₂_cons.mp hR).1) (ih.step (fun hR => (List.forall₂_cons.mp hR).2) (settles_ok _))

end Except

open Blockwork.Except (Settles settles_ok settles_unresolved)

variable {σ : String → Ty} {env : TypeEnv}

theorem Var.settles_resolve {v w : Var} (hwithin : env.Within σ) (hbelow : v.Below Eq w)
    (hvisible : (Text.strip w.name.toList).isEmpty = false) (hw : w.type = σ w.name)
    (hconcrete : w.type.isConcrete = true) : Settles (env.lookup = σ) (v.resolve env) w := by
  have hlookup : w.type.Refines (env.lookup v.name) := by
    rw [hw, hbelow.name]
    exact hwithin w.name
  obtain ⟨t, ht, hwt⟩ := hbelow.type.unify? hlookup
  unfold Var.resolve
  rw [ht]
  dsimp only
  by_cases hopen : t.isConcrete = true
  · obtain rfl := hwt.eq_of_isConcrete hopen
    rw [if_pos hopen, hbelow.name, Block.makeVar_of_visible hvisible, hbelow.attrs]
    exact settles_ok w
  · rw [if_neg hopen]
    refine settles_unresolved t v.attrs.id fun hknown => hopen ?_
    refine (Ty.unify?_refines_right ht).isConcrete ?_
    rw [hbelow.name, hknown, ← hw]
    exact hconcrete

namespace Expr

variable {expected : Ty}

/-! ## Made from parts -/

variable {op : BinaryOp} {l r : Expr} {t element : Ty}

theorem expect_of_refines (h : e.type.Refines expected) : e.expect expected = .ok e :=
  if_pos h.accepted

theorem refines_hints {left right : Expr} (hleft : l.type.Refines left.type)
    (hright : r.type.Refines right.type) (hsame : r.type = l.type) (hasked : l.type.Refines op.operandType) :
    l.type.Refines (hints op left right).1 ∧ r.type.Refines (hints op left right).2 := by
  unfold hints
  split
  · exact ⟨hsame ▸ hright, hsame ▸ hleft⟩
  · exact ⟨hasked, hsame ▸ hasked⟩

theorem makeBinary_of_types (hsame : r.type = l.type) (hasked : l.type.Refines op.operandType) (attrs : Attributes) :
    makeBinary op l r attrs = .ok (.binary op l r attrs) :=
  Block.makeBinary_of_accepts hasked.accepted (hsame ▸ hasked).accepted attrs (Ty.Refines.of_eq hsame).accepted

theorem makeLength_of_type (h : e.type = .list t) (attrs : Attributes) :
    makeLength e attrs = .ok (.length e attrs) := by
  unfold makeLength
  rw [h]

theorem startElement_mono {element' expected' : Ty} (helement : element'.Refines element)
    (hexpected : expected'.Refines expected) (ht : t.Refines element') (hbound : (Ty.list t).Refines expected') :
    (startElement element' expected').Refines (startElement element expected) ∧
      t.Refines (startElement element' expected') := by
  obtain ⟨u', hu', htu'⟩ := ht.unify? hbound.elementOrCaptured
  unfold startElement
  rw [hu']
  refine ⟨?_, htu'⟩
  cases hu : Ty.unify? element expected.elementOrCaptured with
  | none => exact (Ty.unify?_refines_left hu').trans helement
  | some u => exact Ty.unify?_mono helement hexpected.elementOrCaptured hu hu'

/-! ## Conditions on parts -/

/-- The condition holds of items with the type that is asked of each of them. -/
inductive ElementsMeet (K : Expr → Ty → Expr → Prop) : Ty → List Expr → List Expr → Prop where
  | nil {t : Ty} (known : t.isConcrete = true) : ElementsMeet K t [] []
  | cons {t : Ty} {e q : Expr} {items qs : List Expr} (head : K e t q) (tail : ElementsMeet K q.type items qs) :
      ElementsMeet K t (e :: items) (q :: qs)

/-- A condition under which no type stays open. `K e t q` is about an expression `e` below the well-typed `q` that is
asked for `t`. -/
structure Closes (σ : String → Ty) (env : TypeEnv) (K : Expr → Ty → Expr → Prop) : Prop where
  known : ∀ {e t q}, K e t q → env.lookup = σ
  binary : ∀ {op l l' r r' a a' t}, K (.binary op l r a) t (.binary op l' r' a') →
    K l (hints op l r).1 l' ∧ K r (hints op l r).2 r'
  unary : ∀ {op e q a a' t}, K (.unary op e a) t (.unary op q a') → K e op.operandType q
  length : ∀ {e q a a' t}, K (.length e a) t (.length q a') → K e (.list .captured) q
  list : ∀ {t element items qs a a' expected}, (list t items a).Below Eq (list element qs a') →
    (list element qs a').TypedBy σ → (Ty.list element).Refines expected → K (.list t items a) expected (.list element qs a') →
    ElementsMeet K (startElement t expected) items qs
  join : ∀ {items qs a a' t}, Forall₂ (Below Eq) items qs → K (.join items a) t (.join qs a') →
    Forall₂ (fun e q => K e .captured q) items qs

def SettlesTo (σ : String → Ty) (env : TypeEnv) (K : Expr → Ty → Expr → Prop) (q : Expr) : Prop :=
  ∀ (e : Expr) (b : Block) (expected : Ty), e.Below Eq q → q.ComesFrom b → q.TypedBy σ →
    q.type.Refines expected → Settles (K e expected q) (e.resolve env expected) q

variable {K : Expr → Ty → Expr → Prop} (hK : Closes σ env K)

include hK

theorem settlesTo_binary (attrs : Attributes) (hl : l.SettlesTo σ env K) (hr : r.SettlesTo σ env K) :
    (binary op l r attrs).SettlesTo σ env K := by
  intro e b expected hbelow hfrom htyped _
  cases hfrom with | binary _ _ _ _ hfromLeft hfromRight => ?_
  cases hbelow with | @binary _ left _ right _ _ _ hleft hright hattrs => ?_
  obtain ⟨hsame, hasked, htypedLeft, htypedRight⟩ := typedBy_binary.mp htyped
  obtain ⟨hboundLeft, hboundRight⟩ := refines_hints hleft.type hright.type hsame hasked
  rw [resolve]
  refine (hl left _ _ hleft hfromLeft htypedLeft hboundLeft).step (fun hk => (hK.binary hk).1) ?_
  rw [expect_of_refines hasked, Except.ok_bind]
  refine (hr right _ _ hright hfromRight htypedRight hboundRight).step (fun hk => (hK.binary hk).2) ?_
  rw [expect_of_refines (hsame ▸ hasked), Except.ok_bind, if_pos (Ty.Refines.of_eq hsame).accepted,
    makeBinary_of_types hsame hasked, hattrs]
  exact settles_ok _

theorem settlesTo_unary {op : UnaryOp} {operand : Expr} (attrs : Attributes)
    (hoperand : operand.SettlesTo σ env K) : (unary op operand attrs).SettlesTo σ env K := by
  intro e b expected hbelow hfrom htyped _
  cases hfrom with | unary _ _ _ hfrom => ?_
  cases hbelow with | unary hbelow hattrs => ?_
  obtain ⟨hasked, htyped⟩ := typedBy_unary.mp htyped
  have hbound : operand.type.Refines op.operandType := .of_eq hasked
  have hmade : makeUnary op operand b.nodeAttrs = .ok (.unary op operand b.nodeAttrs) := if_pos hbound.accepted
  rw [resolve]
  refine (hoperand _ _ _ hbelow hfrom htyped hbound).step hK.unary ?_
  rw [expect_of_refines hbound, Except.ok_bind, hattrs, hmade]
  exact settles_ok _

theorem settlesTo_length {operand : Expr} (attrs : Attributes) (hoperand : operand.SettlesTo σ env K) :
    (length operand attrs).SettlesTo σ env K := by
  intro e b expected hbelow hfrom htyped _
  cases hfrom with | length _ _ hfrom => ?_
  cases hbelow with | length hbelow hattrs => ?_
  obtain ⟨⟨t, hasked⟩, htyped⟩ := typedBy_length.mp htyped
  have hbound : operand.type.Refines (.list .captured) := hasked ▸ .list (.captured t)
  rw [resolve]
  refine (hoperand _ _ _ hbelow hfrom htyped hbound).step hK.length ?_
  rw [expect_of_refines hbound, Except.ok_bind, hattrs, makeLength_of_type hasked]
  exact settles_ok _

/-! ## Items -/

variable {items : List Expr}

omit hK in
theorem settles_resolveElements {start : Ty} {qs : List Expr} {children : List Block}
    (hbelow : Forall₂ (Below Eq) items qs) (hfrom : Forall₂ ComesFrom qs children)
    (hqs : ∀ q ∈ qs, q.SettlesTo σ env K ∧ q.type = element ∧ q.TypedBy σ) (hbound : element.Refines start) :
    ∃ final, Settles (ElementsMeet K start items qs) (resolveElements env start items) (final, qs) ∧
      element.Refines final ∧ (ElementsMeet K start items qs → final.isConcrete = true) := by
  induction hbelow generalizing children start with
  | nil =>
    rw [resolveElements]
    refine ⟨start, settles_ok _, hbound, fun hk => ?_⟩
    cases hk with | nil hconcrete => exact hconcrete
  | @cons e q items qs hbelow _ ih =>
    cases hfrom with | cons hfrom hfroms => ?_
    obtain ⟨⟨hq, htype, htyped⟩, hqs⟩ := List.forall_mem_cons.mp hqs
    have hu : Ty.unify? start q.type = some q.type := Ty.unify?_eq_right (htype ▸ hbound)
    obtain ⟨final, hsettles, hfinal, hconcrete⟩ := ih hfroms hqs (.of_eq htype.symm)
    refine ⟨final, ?_, hfinal, fun hk => ?_⟩
    · rw [resolveElements]
      refine (hq _ _ _ hbelow hfrom htyped (htype ▸ hbound)).step (fun hk => ?_) ?_
      · cases hk with | cons hhead _ => exact hhead
      rw [hu]
      refine hsettles.step (fun hk => ?_) (settles_ok _)
      cases hk with | cons _ htail => exact htail
    · cases hk with | cons _ htail => exact hconcrete htail

theorem settlesTo_list (attrs : Attributes) (hitems : ∀ e ∈ items, e.SettlesTo σ env K) :
    (list element items attrs).SettlesTo σ env K := by
  intro e b expected hbelow hfrom htyped hbound
  cases hfrom with | list _ _ _ hfrom => ?_
  cases hbelow with | @list t _ es _ _ _ helement hbelow hattrs => ?_
  obtain ⟨-, htypes⟩ := typedBy_list.mp htyped
  obtain ⟨-, hstart⟩ := startElement_mono (.refl t) (.refl expected) helement hbound
  obtain ⟨final, hsettles, hfinal, hconcrete⟩ :=
    settles_resolveElements hbelow hfrom (fun q hq => ⟨hitems q hq, htypes q hq⟩) hstart
  have hmeet := hK.list (.list helement hbelow hattrs) htyped hbound
  rw [resolve]
  refine hsettles.step hmeet ?_
  dsimp only
  by_cases hopen : final.isConcrete = true
  · obtain rfl := hfinal.eq_of_isConcrete hopen
    rw [if_pos hopen, hattrs, makeList_of_refines fun e he => .of_eq (htypes e he).1.symm]
    exact settles_ok _
  · rw [if_neg hopen]
    exact settles_unresolved _ _ fun hk => hopen (hconcrete (hmeet hk))

theorem settlesTo_join (attrs : Attributes) (hitems : ∀ e ∈ items, e.SettlesTo σ env K) :
    (join items attrs).SettlesTo σ env K := by
  intro e b expected hbelow hfrom htyped _
  cases hfrom with | join _ _ hfrom => ?_
  cases hbelow with | join hbelow hattrs => ?_
  have htypes := typedBy_join.mp htyped
  rw [resolve, resolveAll_eq_mapM, hattrs]
  refine (Except.settles_mapM (forall₂_of_mem hbelow fun e _ q hq hbelow => ?_)).step (hK.join hbelow) (settles_ok _)
  obtain ⟨c, -, hfrom⟩ := exists_of_mem_left hfrom hq
  exact hitems q hq e c .captured hbelow hfrom (htypes q hq) (.captured _)

theorem settlesTo (hwithin : env.Within σ) (q : Expr) : q.SettlesTo σ env K := by
  induction q with
  | var w =>
    intro e b expected hbelow hfrom htyped _
    cases hfrom with | var _ hname _ _ => ?_
    cases hbelow with | var hv => ?_
    obtain ⟨hconcrete, hw⟩ := typedBy_var.mp htyped
    rw [resolve]
    exact (Var.settles_resolve hwithin hv hname.visible hw hconcrete).step hK.known (settles_ok _)
  | number literal value attrs =>
    intro e b expected hbelow _ _ _
    cases hbelow with | number hattrs => ?_
    rw [resolve, hattrs]
    exact settles_ok _
  | boolean value attrs =>
    intro e b expected hbelow _ _ _
    cases hbelow with | boolean hattrs => ?_
    rw [resolve, hattrs]
    exact settles_ok _
  | text value attrs =>
    intro e b expected hbelow _ _ _
    cases hbelow with | text hattrs => ?_
    rw [resolve, hattrs]
    exact settles_ok _
  | binary op l r attrs hl hr => exact settlesTo_binary hK attrs hl hr
  | unary op operand attrs hoperand => exact settlesTo_unary hK attrs hoperand
  | list element items attrs hitems => exact settlesTo_list hK attrs hitems
  | length operand attrs hoperand => exact settlesTo_length hK attrs hoperand
  | join items attrs hitems => exact settlesTo_join hK attrs hitems

theorem settles_resolveAs {q : Expr} {b : Block} (hwithin : env.Within σ) (hbelow : e.Below Eq q)
    (hfrom : q.ComesFrom b) (htyped : q.TypedBy σ) (hbound : q.type.Refines expected) :
    Settles (K e expected q) (e.resolveAs env expected) q := by
  refine (settlesTo hK hwithin q e b expected hbelow hfrom htyped hbound).bind ?_
  rw [expect_of_refines hbound]
  exact settles_ok q

end Expr

/-! ## Statements -/

namespace Stmt

/-- Conditions on expressions and on statements under which no type stays open. -/
structure Closes (σ : String → Ty) (env : TypeEnv) (K : Expr → Ty → Expr → Prop) (S : Stmt → Stmt → Prop) :
    Prop where
  exprs : Expr.Closes σ env K
  known : ∀ {s q}, S s q → env.lookup = σ
  assign : ∀ {v w e q a a'}, S (.assign v e a) (.assign w q a') → K e w.type q
  choose : ∀ {bs bs' o o' a a'}, (choose bs o a).Below Eq (choose bs' o' a') → S (.choose bs o a) (.choose bs' o' a') →
    Forall₂ (fun e q => K e .boolean q) (bs.map Prod.fst) (bs'.map Prod.fst) ∧
      Forall₂ (Forall₂ S) (bs.map Prod.snd) (bs'.map Prod.snd) ∧ Forall₂ S (o.getD []) (o'.getD [])
  repeat' : ∀ {e q body qs a a'}, Forall₂ (Below Eq) body qs → S (.repeat e body a) (.repeat q qs a') →
    K e .number q ∧ Forall₂ S body qs
  loop : ∀ {mode e q body qs a a'}, Forall₂ (Below Eq) body qs → S (.loop mode e body a) (.loop mode q qs a') →
    K e .boolean q ∧ Forall₂ S body qs
  count : ∀ {v w e₁ q₁ e₂ q₂ e₃ q₃ body qs a a'}, Forall₂ (Below Eq) body qs →
    S (.count v e₁ e₂ e₃ body a) (.count w q₁ q₂ q₃ qs a') →
    (K e₁ .number q₁ ∧ K e₂ .number q₂ ∧ K e₃ .number q₃) ∧ Forall₂ S body qs
  forEach : ∀ {v w e q body qs a a'}, Forall₂ (Below Eq) body qs →
    S (.forEach v e body a) (.forEach w q qs a') → K e (.list w.type) q ∧ Forall₂ S body qs
  wait : ∀ {e q a a'}, S (.wait e a) (.wait q a') → K e .number q
  print : ∀ {e q a a'}, S (.print e a) (.print q a') → K e .captured q

def SettlesTo (σ : String → Ty) (env : TypeEnv) (S : Stmt → Stmt → Prop) (q : Stmt) : Prop :=
  ∀ (s : Stmt) (b : Block), s.Below Eq q → q.ComesFrom b → q.TypedBy σ → Settles (S s q) (s.resolve env) q

variable {K : Expr → Ty → Expr → Prop} {S : Stmt → Stmt → Prop} {body : List Stmt}

theorem settles_resolveAll {qs : List Stmt} {chain : List Block} (hqs : ∀ q ∈ qs, q.SettlesTo σ env S)
    (hbelow : Forall₂ (Below Eq) body qs) (hfrom : Forall₂ ComesFrom qs chain)
    (htyped : ∀ q ∈ qs, q.TypedBy σ) : Settles (Forall₂ S body qs) (resolveAll env body) qs := by
  rw [resolveAll_eq_mapM]
  refine Except.settles_mapM (forall₂_of_mem hbelow fun s _ q hq hbelow => ?_)
  obtain ⟨c, -, hfrom⟩ := exists_of_mem_left hfrom hq
  exact hqs q hq s c hbelow hfrom (htyped q hq)

variable (hK : Closes σ env K S) (hwithin : env.Within σ)

include hK hwithin

theorem settlesTo_assign (w : Var) (value : Expr) (attrs : Attributes) : (assign w value attrs).SettlesTo σ env S := by
  intro s b hbelow hfrom htyped
  cases hfrom with | assign _ hname _ _ _ hfrom => ?_
  cases hbelow with | assign hv hvalue hattrs => ?_
  obtain ⟨hconcrete, htype, hσ, htypedValue⟩ := typedBy_assign.mp htyped
  have hmade : makeAssign w value b.nodeAttrs = .ok (.assign w value b.nodeAttrs) :=
    if_pos (Ty.Refines.of_eq htype).accepted
  rw [resolve]
  refine (Var.settles_resolve hwithin hv hname.visible hσ hconcrete).step hK.known ?_
  refine (Expr.settles_resolveAs hK.exprs hwithin hvalue hfrom htypedValue (.of_eq htype)).step hK.assign ?_
  rw [hattrs, hmade]
  exact settles_ok _

theorem settlesTo_repeat (times : Expr) (attrs : Attributes) (hbody : ∀ s ∈ body, s.SettlesTo σ env S) :
    (Stmt.repeat times body attrs).SettlesTo σ env S := by
  intro s b hbelow hfrom htyped
  cases hfrom with | repeat' _ _ hfrom hfromBody => ?_
  cases hbelow with | repeat' htimes hbelow hattrs => ?_
  obtain ⟨htype, htypedTimes, htypedBody⟩ := typedBy_repeat.mp htyped
  have hmade : makeRepeat times body b.nodeAttrs = .ok (.repeat times body b.nodeAttrs) :=
    if_pos (Ty.Refines.of_eq htype).accepted
  rw [resolve]
  refine (Expr.settles_resolveAs hK.exprs hwithin htimes hfrom htypedTimes (.of_eq htype)).step
    (fun hs => (hK.repeat' hbelow hs).1) ?_
  refine (settles_resolveAll hbody hbelow hfromBody htypedBody).step (fun hs => (hK.repeat' hbelow hs).2) ?_
  rw [hattrs, hmade]
  exact settles_ok _

theorem settlesTo_loop (mode : LoopMode) (condition : Expr) (attrs : Attributes)
    (hbody : ∀ s ∈ body, s.SettlesTo σ env S) : (loop mode condition body attrs).SettlesTo σ env S := by
  intro s b hbelow hfrom htyped
  cases hfrom with | loop _ _ _ hfrom hfromBody => ?_
  cases hbelow with | loop hcondition hbelow hattrs => ?_
  obtain ⟨htype, htypedCondition, htypedBody⟩ := typedBy_loop.mp htyped
  have hmade : makeLoop mode condition body b.nodeAttrs = .ok (.loop mode condition body b.nodeAttrs) :=
    if_pos (Ty.Refines.of_eq htype).accepted
  rw [resolve]
  refine (Expr.settles_resolveAs hK.exprs hwithin hcondition hfrom htypedCondition (.of_eq htype)).step
    (fun hs => (hK.loop hbelow hs).1) ?_
  refine (settles_resolveAll hbody hbelow hfromBody htypedBody).step (fun hs => (hK.loop hbelow hs).2) ?_
  rw [hattrs, hmade]
  exact settles_ok _

theorem settlesTo_count (w : Var) (first last step : Expr) (attrs : Attributes)
    (hbody : ∀ s ∈ body, s.SettlesTo σ env S) : (count w first last step body attrs).SettlesTo σ env S := by
  intro s b hbelow hfrom htyped
  cases hfrom with | count _ hname _ _ _ _ _ hfrom₁ hfrom₂ hfrom₃ hfromBody => ?_
  cases hbelow with | count hv hfirst hlast hstep hbelow hattrs => ?_
  obtain ⟨⟨hnumber, hσ⟩, ⟨⟨htype₁, htyped₁⟩, ⟨htype₂, htyped₂⟩, htype₃, htyped₃⟩, htypedBody⟩ :=
    typedBy_count.mp htyped
  have hconcrete : w.type.isConcrete = true := by
    rw [hnumber]
    rfl
  rw [resolve]
  refine (Var.settles_resolve hwithin hv hname.visible hσ hconcrete).step hK.known ?_
  refine (Expr.settles_resolveAs hK.exprs hwithin hfirst hfrom₁ htyped₁ (.of_eq htype₁)).step
    (fun hs => (hK.count hbelow hs).1.1) ?_
  refine (Expr.settles_resolveAs hK.exprs hwithin hlast hfrom₂ htyped₂ (.of_eq htype₂)).step
    (fun hs => (hK.count hbelow hs).1.2.1) ?_
  refine (Expr.settles_resolveAs hK.exprs hwithin hstep hfrom₃ htyped₃ (.of_eq htype₃)).step
    (fun hs => (hK.count hbelow hs).1.2.2) ?_
  refine (settles_resolveAll hbody hbelow hfromBody htypedBody).step (fun hs => (hK.count hbelow hs).2) ?_
  rw [hattrs, makeCount_of_types hnumber htype₁ htype₂ htype₃]
  exact settles_ok _

theorem settlesTo_forEach (w : Var) (list : Expr) (attrs : Attributes)
    (hbody : ∀ s ∈ body, s.SettlesTo σ env S) : (forEach w list body attrs).SettlesTo σ env S := by
  intro s b hbelow hfrom htyped
  cases hfrom with | forEach _ hname _ _ hfrom hfromBody => ?_
  cases hbelow with | forEach hv hlist hbelow hattrs => ?_
  obtain ⟨htype, hσ, htypedList, htypedBody⟩ := typedBy_forEach.mp htyped
  have hconcrete : w.type.isConcrete = true := by
    have hlistConcrete := htypedList.wellTyped.isConcrete
    rw [htype] at hlistConcrete
    exact hlistConcrete
  have hmade : makeForEach w list body b.nodeAttrs = .ok (.forEach w list body b.nodeAttrs) :=
    if_pos (Ty.Refines.of_eq htype).accepted
  rw [resolve]
  refine (Var.settles_resolve hwithin hv hname.visible hσ hconcrete).step hK.known ?_
  refine (Expr.settles_resolveAs hK.exprs hwithin hlist hfrom htypedList (.of_eq htype)).step
    (fun hs => (hK.forEach hbelow hs).1) ?_
  refine (settles_resolveAll hbody hbelow hfromBody htypedBody).step (fun hs => (hK.forEach hbelow hs).2) ?_
  rw [hattrs, hmade]
  exact settles_ok _

theorem settlesTo_wait (time : Expr) (attrs : Attributes) : (wait time attrs).SettlesTo σ env S := by
  intro s b hbelow hfrom htyped
  cases hfrom with | wait _ _ hfrom => ?_
  cases hbelow with | wait htime hattrs => ?_
  obtain ⟨htype, htypedTime⟩ := typedBy_wait.mp htyped
  have hmade : makeWait time b.nodeAttrs = .ok (.wait time b.nodeAttrs) := if_pos (Ty.Refines.of_eq htype).accepted
  rw [resolve]
  refine (Expr.settles_resolveAs hK.exprs hwithin htime hfrom htypedTime (.of_eq htype)).step hK.wait ?_
  rw [hattrs, hmade]
  exact settles_ok _

theorem settlesTo_print (text : Expr) (attrs : Attributes) : (print text attrs).SettlesTo σ env S := by
  intro s b hbelow hfrom htyped
  cases hfrom with | print _ _ hfrom => ?_
  cases hbelow with | print htext hattrs => ?_
  rw [resolve, hattrs]
  exact (Expr.settlesTo hK.exprs hwithin text _ _ _ htext hfrom (typedBy_print.mp htyped) (.captured _)).step hK.print
    (settles_ok _)

/-! ## Choices -/

theorem settles_resolveBranches {branches : List (Expr × List Stmt)} {conditions : List Expr}
    {bodies : List (List Stmt)} {children : List Block} {chains : List (List Block)}
    (hbelow : Forall₂ (Expr.Below Eq) (branches.map Prod.fst) conditions)
    (hbelowBodies : Forall₂ (Forall₂ (Below Eq)) (branches.map Prod.snd) bodies)
    (hfrom : Forall₂ Expr.ComesFrom conditions children)
    (hfromBodies : Forall₂ (Forall₂ ComesFrom) bodies chains)
    (hconditions : ∀ e ∈ conditions, e.type = .boolean ∧ e.TypedBy σ)
    (hbodies : ∀ body ∈ bodies, ∀ s ∈ body, s.SettlesTo σ env S ∧ s.TypedBy σ) :
    Settles (Forall₂ (fun e q => K e .boolean q) (branches.map Prod.fst) conditions ∧
        Forall₂ (Forall₂ S) (branches.map Prod.snd) bodies)
      (resolveBranches env branches) (conditions, bodies) := by
  induction branches generalizing conditions bodies children chains with
  | nil =>
    cases hbelow
    cases hbelowBodies
    rw [resolveBranches]
    exact settles_ok _
  | cons branch rest ih =>
    obtain ⟨condition, body⟩ := branch
    cases hbelow with | cons hbelow hbelows => ?_
    cases hbelowBodies with | cons hbelowBody hbelowBodies => ?_
    cases hfrom with | cons hfrom hfroms => ?_
    cases hfromBodies with | cons hfromBody hfromBodies => ?_
    obtain ⟨⟨htype, htyped⟩, hconditions⟩ := List.forall_mem_cons.mp hconditions
    obtain ⟨hbody, hbodies⟩ := List.forall_mem_cons.mp hbodies
    simp only [List.map_cons, List.forall₂_cons]
    rw [resolveBranches]
    refine (Expr.settles_resolveAs hK.exprs hwithin hbelow hfrom htyped (.of_eq htype)).step (fun hs => hs.1.1) ?_
    refine (settles_resolveAll (fun s hs => (hbody s hs).1) hbelowBody hfromBody fun s hs => (hbody s hs).2).step
      (fun hs => hs.2.1) ?_
    exact (ih hbelows hbelowBodies hfroms hfromBodies hconditions hbodies).step (fun hs => ⟨hs.1.2, hs.2.2⟩)
      (settles_ok _)

omit hK hwithin in
theorem settles_resolveOtherwise {last final : Option (List Stmt)} {chain : List Block}
    (hfinal : ∀ s ∈ final.getD [], s.SettlesTo σ env S) (hsome : last.isSome = final.isSome)
    (hbelow : Forall₂ (Below Eq) (last.getD []) (final.getD []))
    (hfrom : Forall₂ ComesFrom (final.getD []) chain) (htyped : ∀ s ∈ final.getD [], s.TypedBy σ) :
    Settles (Forall₂ S (last.getD []) (final.getD [])) (resolveOtherwise env last) final := by
  cases last with
  | none =>
    cases final with
    | none =>
      rw [resolveOtherwise]
      exact settles_ok _
    | some => cases hsome
  | some body =>
    cases final with
    | none => cases hsome
    | some qs =>
      rw [resolveOtherwise]
      exact (settles_resolveAll hfinal hbelow hfrom htyped).bind (settles_ok _)

theorem settlesTo_choose {branches : List (Expr × List Stmt)} {otherwise : Option (List Stmt)} (attrs : Attributes)
    (hbranches : ∀ branch ∈ branches, ∀ s ∈ branch.2, s.SettlesTo σ env S)
    (hotherwise : ∀ body ∈ otherwise, ∀ s ∈ body, s.SettlesTo σ env S) :
    (choose branches otherwise attrs).SettlesTo σ env S := by
  intro s b hbelow hfrom htyped
  cases hfrom with | choose _ has _ hfrom hfromBodies hfromLast => ?_
  cases hbelow with | choose hbelow hbelowBodies hsome hbelowLast hattrs => ?_
  obtain ⟨htypedConditions, htypedBodies, htypedLast⟩ := typedBy_choose.mp htyped
  obtain ⟨further, -, hcount⟩ := has.further
  have hbodies : ∀ body ∈ branches.map Prod.snd, ∀ s ∈ body, s.SettlesTo σ env S ∧ s.TypedBy σ := by
    intro body hbody s hs
    obtain ⟨branch, hbranch, rfl⟩ := List.mem_map.mp hbody
    exact ⟨hbranches branch hbranch s hs, htypedBodies _ hbody s hs⟩
  have haccepts : ∀ e ∈ branches.map Prod.fst, Ty.boolean.accepts e.type = true := by
    intro e he
    rw [(htypedConditions e he).1]
    rfl
  have hlength : (branches.map Prod.fst).length = further.getD 0 + 1 := by rw [List.length_map, hcount]
  have hlength' : (branches.map Prod.snd).length = further.getD 0 + 1 := by rw [List.length_map, hcount]
  have hmeet := fun hs => hK.choose (.choose hbelow hbelowBodies hsome hbelowLast hattrs) hs
  rw [resolve]
  refine (settles_resolveBranches hK hwithin hbelow hbelowBodies hfrom hfromBodies htypedConditions hbodies).step
    (fun hs => ⟨(hmeet hs).1, (hmeet hs).2.1⟩) ?_
  refine (settles_resolveOtherwise (forall_mem_otherwise hotherwise) hsome hbelowLast hfromLast htypedLast).step
    (fun hs => (hmeet hs).2.2) ?_
  rw [hattrs, Block.makeChoose_of_accepts hlength hlength' haccepts, ← List.zip_of_prod rfl rfl]
  exact settles_ok _

theorem settlesTo (q : Stmt) : q.SettlesTo σ env S := by
  induction q with
  | assign target value attrs => exact settlesTo_assign hK hwithin target value attrs
  | choose _ _ attrs hbranches hotherwise => exact settlesTo_choose hK hwithin attrs hbranches hotherwise
  | repeat' times _ attrs hbody => exact settlesTo_repeat hK hwithin times attrs hbody
  | loop mode condition _ attrs hbody => exact settlesTo_loop hK hwithin mode condition attrs hbody
  | count counter first last step _ attrs hbody =>
    exact settlesTo_count hK hwithin counter first last step attrs hbody
  | forEach item list _ attrs hbody => exact settlesTo_forEach hK hwithin item list attrs hbody
  | flow choice attrs =>
    intro s b hbelow _ _
    cases hbelow with | flow hattrs => ?_
    rw [resolve, hattrs]
    exact settles_ok _
  | wait time attrs => exact settlesTo_wait hK hwithin time attrs
  | print text attrs => exact settlesTo_print hK hwithin text attrs

end Stmt

/-! ## Roots -/

/-- The condition of the statements of a root, or of its value. -/
def Root.Meets (K : Expr → Ty → Expr → Prop) (S : Stmt → Stmt → Prop) : Root → Root → Prop
  | .statements body, .statements qs => Forall₂ S body qs
  | .value e, .value q => K e .captured q
  | _, _ => False

theorem Root.settles_resolve {K : Expr → Ty → Expr → Prop} {S : Stmt → Stmt → Prop} {root q : Root} {b : Block}
    (hK : Stmt.Closes σ env K S) (hwithin : env.Within σ) (hbelow : root.Below Eq q) (hfrom : q.ComesFrom b)
    (htyped : q.TypedBy σ) : Settles (root.Meets K S q) (root.resolve env) q := by
  cases q with
  | statements qs =>
    cases root with
    | value => cases hbelow
    | statements body =>
      rw [Root.resolve]
      exact (Stmt.settles_resolveAll (fun s _ => s.settlesTo hK hwithin) hbelow hfrom htyped).bind (settles_ok _)
  | value q =>
    cases root with
    | statements => cases hbelow
    | value e =>
      rw [Root.resolve]
      exact (Expr.settlesTo hK.exprs hwithin q e b .captured hbelow hfrom.1 htyped (.captured _)).bind (settles_ok _)

/-! ## Known types -/

namespace Expr

def Known (σ : String → Ty) (env : TypeEnv) (e : Expr) (_ : Ty) (_ : Expr) : Prop :=
  env.lookup = σ ∧ e.ListsKnown

theorem elementsMeet_known {start : Ty} {items qs : List Expr} (hbelow : Forall₂ (Below Eq) items qs)
    (hstart : start.isConcrete = true) (hqs : ∀ q ∈ qs, q.type.isConcrete = true)
    (hitems : ∀ e ∈ items, ∀ t q, Known σ env e t q) : ElementsMeet (Known σ env) start items qs := by
  induction hbelow generalizing start with
  | nil => exact .nil hstart
  | cons _ _ ih =>
    obtain ⟨hq, hqs⟩ := List.forall_mem_cons.mp hqs
    obtain ⟨he, hitems⟩ := List.forall_mem_cons.mp hitems
    exact .cons (he _ _) (ih hq hqs hitems)

theorem closes_known : Closes σ env (Known σ env) where
  known h := h.1
  binary h := by
    obtain ⟨-, hl, hr⟩ := everywhere_binary.mp h.2
    exact ⟨⟨h.1, hl⟩, h.1, hr⟩
  unary h := ⟨h.1, (everywhere_unary.mp h.2).2⟩
  length h := ⟨h.1, (everywhere_length.mp h.2).2⟩
  list {t element items qs a a' expected} hbelow htyped _ h := by
    cases hbelow with | list _ hbelow _ => ?_
    obtain ⟨ht, hitems⟩ := everywhere_list.mp h.2
    obtain ⟨hconcrete, htypes⟩ := typedBy_list.mp htyped
    refine elementsMeet_known hbelow ?_ (fun q hq => (htypes q hq).1 ▸ hconcrete) fun e he _ _ => ⟨h.1, hitems e he⟩
    -- The start is the type of the list literal, which is known.
    unfold startElement
    cases hu : Ty.unify? t expected.elementOrCaptured with
    | none => exact ht
    | some u => exact (Ty.unify?_refines_left hu).isConcrete ht
  join hbelow h := forall₂_of_mem hbelow fun e he _ _ _ => ⟨h.1, (everywhere_join.mp h.2).2 e he⟩

end Expr

namespace Stmt

def Known (σ : String → Ty) (env : TypeEnv) (s _ : Stmt) : Prop :=
  env.lookup = σ ∧ s.ListsKnown

theorem Known.expr {s q : Stmt} {q' : Expr} {t : Ty} (h : s.Known σ env q) (he : e ∈ s.exprs) : e.Known σ env t q' :=
  ⟨h.1, h.2.here e he⟩

theorem forall₂_known {body qs : List Stmt} (hknown : env.lookup = σ) (hbody : ∀ s ∈ body, s.ListsKnown)
    (hbelow : Forall₂ (Below Eq) body qs) : Forall₂ (Known σ env) body qs :=
  forall₂_of_mem hbelow fun s hs _ _ _ => ⟨hknown, hbody s hs⟩

theorem closes_known : Closes σ env (Expr.Known σ env) (Known σ env) where
  exprs := Expr.closes_known
  known h := h.1
  assign h := h.expr (by simp [exprs])
  choose hbelow h := by
    cases hbelow with | choose hbelow hbelowBodies _ hbelowLast _ => ?_
    obtain ⟨-, hbodies, hlast⟩ := everywhere_choose.mp h.2
    refine ⟨forall₂_of_mem hbelow fun e he _ _ _ => h.expr he, ?_,
      forall₂_known h.1 (forall_mem_otherwise hlast) hbelowLast⟩
    refine forall₂_of_mem hbelowBodies fun body hbody _ _ hbelow => ?_
    obtain ⟨branch, hbranch, rfl⟩ := List.mem_map.mp hbody
    exact forall₂_known h.1 (hbodies branch hbranch) hbelow
  repeat' hbelow h := ⟨h.expr (by simp [exprs]), forall₂_known h.1 (everywhere_repeat.mp h.2).2 hbelow⟩
  loop hbelow h := ⟨h.expr (by simp [exprs]), forall₂_known h.1 (everywhere_loop.mp h.2).2 hbelow⟩
  count hbelow h := ⟨⟨h.expr (by simp [exprs]), h.expr (by simp [exprs]), h.expr (by simp [exprs])⟩,
    forall₂_known h.1 (everywhere_count.mp h.2).2 hbelow⟩
  forEach hbelow h := ⟨h.expr (by simp [exprs]), forall₂_known h.1 (everywhere_forEach.mp h.2).2 hbelow⟩
  wait h := h.expr (by simp [exprs])
  print h := h.expr (by simp [exprs])

end Stmt

theorem Root.meets_known {root q : Root} (hbelow : root.Below Eq q) (hknown : env.lookup = σ) (h : root.ListsKnown) :
    root.Meets (Expr.Known σ env) (Stmt.Known σ env) q := by
  cases root with
  | statements body =>
    cases q with
    | value => cases hbelow
    | statements qs => exact Stmt.forall₂_known hknown h hbelow
  | value e =>
    cases q with
    | statements => cases hbelow
    | value q => exact ⟨hknown, h⟩

end Blockwork
