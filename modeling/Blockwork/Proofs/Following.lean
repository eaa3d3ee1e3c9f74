import Blockwork.Proofs.Typings

/-! # Readings side by side

A reading is compared with another one that knows more from the start on. If both of them succeed, then the second
one still knows all that the first one knows.
-/

namespace Blockwork

set_option autoImplicit false

namespace TypeEnv

/-- The second environment knows what the first one knows, and its solutions satisfy all links of the first one. -/
structure CoveredBy (env env' : TypeEnv) : Prop where
  known : env.Within env'.lookup
  implied : ∀ τ, env'.Solution τ → env.SolvedBy τ

variable {env env' env'' : TypeEnv} {name target source item list id : String} {t : Ty}

theorem CoveredBy.refl (env : TypeEnv) : env.CoveredBy env :=
  ⟨.refl env, fun _ h => h.solved⟩

theorem CoveredBy.keptIn (h : env.CoveredBy env') : env.KeptIn env' :=
  fun τ hτ => ⟨h.known.trans hτ.within, h.implied τ hτ⟩

theorem CoveredBy.trans (h : env.CoveredBy env') (h' : env'.CoveredBy env'') : env.CoveredBy env'' :=
  ⟨h.known.trans h'.known, fun τ hτ => h.implied τ (h'.keptIn τ hτ)⟩

theorem coveredBy_assign (h : t.Refines (env.lookup name)) : env.CoveredBy (env.assign name t) :=
  ⟨within_assign h, fun _ hτ => solvedBy_assign.mp hτ.solved⟩

theorem coveredBy_equate : env.CoveredBy (env.equate target source id) := by
  refine ⟨fun other => ?_, fun τ hτ => (solution_equate.mp hτ).1.solved⟩
  rw [lookup_equate]
  exact .refl _

theorem coveredBy_elementOf : env.CoveredBy (env.elementOf item list id) :=
  ⟨.refl env, fun _ hτ => (solution_elementOf.mp hτ).1.solved⟩

theorem CoveredBy.assign (h : env.CoveredBy env') (ht : (env'.lookup name).Refines t) :
    (env.assign name t).CoveredBy env' := by
  refine ⟨fun other => ?_, fun τ hτ => solvedBy_assign.mpr (h.implied τ hτ)⟩
  rw [lookup_assign]
  split
  · next e => exact e ▸ ht
  · exact h.known other

theorem CoveredBy.equate (h : env.CoveredBy env') (hlink : ∀ τ, env'.Solution τ → τ target = τ source) :
    (env.equate target source id).CoveredBy env' := by
  refine ⟨fun other => ?_, fun τ hτ => solvedBy_equate.mpr ⟨h.implied τ hτ, hlink τ hτ⟩⟩
  rw [lookup_equate]
  exact h.known other

theorem CoveredBy.elementOf (h : env.CoveredBy env') (hlink : ∀ τ, env'.Solution τ → τ list = .list (τ item)) :
    (env.elementOf item list id).CoveredBy env' :=
  ⟨h.known, fun τ hτ => solvedBy_elementOf.mpr ⟨h.implied τ hτ, hlink τ hτ⟩⟩

theorem Solution.eq_of_isConcrete {τ : String → Ty} (h : env.Solution τ) (hknown : (env.lookup name).Refines t)
    (ht : t.isConcrete = true) : τ name = t :=
  ((h.within name).trans hknown).eq_of_isConcrete ht

end TypeEnv

namespace Reading

variable {α β γ δ : Type}
variable {Q : α → β → TypeEnv → Prop}

def Follows (env env' : TypeEnv) (r : Reading α) (r' : Reading β) (Q : α → β → TypeEnv → Prop) : Prop :=
  ∀ a env₁ b env₁', r.Yields env a env₁ → r'.Yields env' b env₁' →
    env₁.CoveredBy env₁' ∧ env'.CoveredBy env₁' ∧ Q a b env₁'

variable {env env' : TypeEnv}

theorem follows_pure {a : α} {b : β} (h : env.CoveredBy env') (hQ : Q a b env') :
    Follows env env' (pure a) (pure b) Q := by
  intro _ _ _ _ hyields hyields'
  obtain ⟨rfl, rfl⟩ := yields_pure_iff.mp hyields
  obtain ⟨rfl, rfl⟩ := yields_pure_iff.mp hyields'
  exact ⟨h, .refl _, hQ⟩

theorem follows_node {x : Except Defect α} {x' : Except Defect β} (h : env.CoveredBy env')
    (hx : ∀ a b, x = .ok a → x' = .ok b → Q a b env') : Follows env env' (node x) (node x') Q := by
  intro a _ b _ hyields hyields'
  obtain ⟨hok, rfl⟩ := yields_node_iff.mp hyields
  obtain ⟨hok', rfl⟩ := yields_node_iff.mp hyields'
  exact ⟨h, .refl _, hx a b hok hok'⟩

theorem Follows.imp {r : Reading α} {r' : Reading β} {Q' : α → β → TypeEnv → Prop} (h : Follows env env' r r' Q)
    (hQ : ∀ a b env₁', Q a b env₁' → Q' a b env₁') : Follows env env' r r' Q' := by
  intro a env₁ b env₁' hyields hyields'
  obtain ⟨hcovered, hgrows, hpost⟩ := h a env₁ b env₁' hyields hyields'
  exact ⟨hcovered, hgrows, hQ a b env₁' hpost⟩

theorem Follows.bind {r : Reading α} {r' : Reading β} {f : α → Reading γ} {f' : β → Reading δ}
    {Q' : γ → δ → TypeEnv → Prop} (h : Follows env env' r r' Q)
    (hf : ∀ a b env₁ env₁', env₁.CoveredBy env₁' → env'.CoveredBy env₁' → Q a b env₁' →
      Follows env₁ env₁' (f a) (f' b) Q') :
    Follows env env' (r >>= f) (r' >>= f') Q' := by
  intro c env₂ d env₂' hyields hyields'
  obtain ⟨a, env₁, hfirst, hsecond⟩ := yields_bind_iff.mp hyields
  obtain ⟨b, env₁', hfirst', hsecond'⟩ := yields_bind_iff.mp hyields'
  obtain ⟨hcovered, hgrows, hpost⟩ := h a env₁ b env₁' hfirst hfirst'
  obtain ⟨hcovered', hgrows', hpost'⟩ := hf a b env₁ env₁' hcovered hgrows hpost c env₂ d env₂' hsecond hsecond'
  exact ⟨hcovered', hgrows.trans hgrows', hpost'⟩

theorem follows_mapM {R : α → β → Prop} {S : γ → δ → Prop} {f : α → Reading γ} {f' : β → Reading δ} {as : List α}
    {bs : List β} (hR : List.Forall₂ R as bs)
    (hstep : ∀ a b, R a b → ∀ env env', env.CoveredBy env' → Follows env env' (f a) (f' b) fun c d _ => S c d)
    (h : env.CoveredBy env') : Follows env env' (as.mapM f) (bs.mapM f') fun cs ds _ => List.Forall₂ S cs ds := by
  induction hR generalizing env env' with
  | nil => exact follows_pure h .nil
  | cons hhead _ ih =>
    rw [List.mapM_cons, List.mapM_cons]
    refine (hstep _ _ hhead env env' h).bind fun c d env₁ env₁' hcovered _ hS => ?_
    refine (ih hcovered).bind fun cs ds env₂ env₂' hcovered₂ _ hSs => ?_
    exact follows_pure hcovered₂ (.cons hS hSs)

/-! ## Types -/

theorem follows_lookup (h : env.CoveredBy env') (name : String) :
    Follows env env' (lookup name) (lookup name) fun t t' env₁' =>
      env₁' = env' ∧ t'.Refines t ∧ t' = env'.lookup name := by
  intro t _ t' _ hyields hyields'
  obtain ⟨rfl, rfl⟩ := yields_lookup_iff.mp hyields
  obtain ⟨rfl, rfl⟩ := yields_lookup_iff.mp hyields'
  exact ⟨h, .refl _, rfl, h.known name, rfl⟩

variable {name id id' : String} {t t' : Ty}

theorem follows_unify {expected expected' found found' : Ty} (h : env.CoveredBy env')
    (hexpected : expected'.Refines expected) (hfound : found'.Refines found) :
    Follows env env' (unify expected found id) (unify expected' found' id') fun t t' env₁' =>
      env₁' = env' ∧ t'.Refines t ∧ t'.Refines expected' := by
  intro t _ t' _ hyields hyields'
  obtain ⟨ht, rfl⟩ := yields_unify_iff.mp hyields
  obtain ⟨ht', rfl⟩ := yields_unify_iff.mp hyields'
  exact ⟨h, .refl _, rfl, Ty.unify?_mono hexpected hfound ht ht', Ty.unify?_refines_left ht'⟩

theorem follows_bindType (h : env.CoveredBy env') (ht : t'.Refines t) :
    Follows env env' (Reading.bind name t id) (Reading.bind name t' id') fun u u' env₁' =>
      u'.Refines u ∧ Binds env' name t' u' env₁' := by
  intro u _ u' _ hyields hyields'
  obtain ⟨hu, rfl⟩ := yields_bindType_iff.mp hyields
  obtain ⟨hu', rfl⟩ := yields_bindType_iff.mp hyields'
  have hgrows : env'.CoveredBy (env'.assign name u') := TypeEnv.coveredBy_assign (Ty.unify?_refines_left hu')
  have hmono : u'.Refines u := Ty.unify?_mono (h.known name) ht hu hu'
  have hbinds := Binds.of_unify? hu'
  exact ⟨(h.trans hgrows).assign ((Ty.Refines.of_eq hbinds.lookup).trans hmono), hgrows, hmono, hbinds⟩

theorem follows_bindDeclared {declared declared' : Option Ty} (h : env.CoveredBy env')
    (hdeclared : ∀ t, declared = some t → declared' = some t) :
    Follows env env' (bindDeclared name declared id) (bindDeclared name declared' id') fun _ _ env₁' =>
      ∀ other, name ≠ other → env₁'.lookup other = env'.lookup other := by
  cases declared with
  | some t =>
    rw [hdeclared t rfl]
    refine (follows_bindType h (.refl t)).bind fun _ _ env₁ env₁' hcovered _ hpost => ?_
    exact follows_pure hcovered hpost.2.frame
  | none =>
    cases declared' with
    | none => exact follows_pure h fun _ _ => rfl
    | some t' =>
      intro _ _ _ env₁' hyields hyields'
      obtain ⟨-, rfl⟩ := yields_pure_iff.mp hyields
      obtain ⟨u', _, hbind, hpure⟩ := yields_bind_iff.mp hyields'
      obtain ⟨hu', rfl⟩ := yields_bindType_iff.mp hbind
      obtain ⟨-, rfl⟩ := yields_pure_iff.mp hpure
      have hgrows : env'.CoveredBy (env'.assign name u') := TypeEnv.coveredBy_assign (Ty.unify?_refines_left hu')
      exact ⟨h.trans hgrows, hgrows, (Binds.of_unify? hu').frame⟩

/-! ## Asking for types -/

theorem yields_learn_iff {v : Var} {u : Unit} : (learn v t).Yields env u env' ↔
    if t = v.type then env' = env else ∃ s, Ty.unify? (env.lookup v.name) t = some s ∧ env' = env.assign v.name s := by
  unfold learn
  split
  · simp [yields_pure_iff]
  · simp only [yields_bind_iff, yields_bindType_iff, yields_pure_iff]
    simp

/-- What asking tells about a variable, and that it tells nothing about others. -/
structure Told (env' : TypeEnv) (v' : Var) (t' : Ty) (env₁' : TypeEnv) : Prop where
  known : (env₁'.lookup v'.name).Refines t'
  frame : ∀ other, v'.name ≠ other → env₁'.lookup other = env'.lookup other

theorem follows_learn {v v' : Var} (h : env.CoveredBy env') (hname : v.name = v'.name) (ht : t'.Refines t)
    (hknows : (env'.lookup v'.name).Refines v'.type) :
    Follows env env' (learn v t) (learn v' t') fun _ _ => Told env' v' t' := by
  intro _ env₁ _ env₁' hyields hyields'
  rw [yields_learn_iff] at hyields hyields'
  have hright : env'.CoveredBy env₁' ∧ Told env' v' t' env₁' := by
    split at hyields'
    · next hsame =>
      subst hyields'
      exact ⟨.refl _, hsame ▸ hknows, fun _ _ => rfl⟩
    · obtain ⟨s, hs, rfl⟩ := hyields'
      have hbinds := Binds.of_unify? hs
      exact ⟨TypeEnv.coveredBy_assign (Ty.unify?_refines_left hs), hbinds.found, hbinds.frame⟩
  obtain ⟨hgrows, htold⟩ := hright
  refine ⟨?_, hgrows, htold⟩
  have hcovered := h.trans hgrows
  split at hyields
  · subst hyields
    exact hcovered
  · obtain ⟨s, hs, rfl⟩ := hyields
    refine hcovered.assign ((hcovered.known v.name).of_unify? ?_ hs)
    rw [hname]
    exact htold.known.trans ht

section Constrain

variable {R : Attributes → Attributes → Prop} {expected expected' : Ty}

theorem follows_constrainAll {items items' : List Expr} (h : env.CoveredBy env')
    (hbelow : List.Forall₂ (Expr.Below R) items items') (hknows : ∀ e ∈ items', env'.Knows e.vars)
    (hstep : ∀ e' ∈ items', ∀ e env env', e.Below R e' → env.CoveredBy env' → env'.Knows e'.vars →
      Follows env env' (constrain e expected) (constrain e' expected') fun _ _ _ => True) :
    Follows env env' (constrainAll items expected) (constrainAll items' expected') fun _ _ _ => True := by
  induction hbelow generalizing env env' with
  | nil =>
    rw [constrainAll, constrainAll]
    exact follows_pure h trivial
  | cons hbelow _ ih =>
    obtain ⟨hknown, hknowns⟩ := List.forall_mem_cons.mp hknows
    obtain ⟨hfirst, hlater⟩ := List.forall_mem_cons.mp hstep
    rw [constrainAll, constrainAll]
    refine (hfirst _ _ _ hbelow h hknown).bind fun _ _ env₁ env₁' hcovered hgrows _ => ?_
    exact ih hcovered (fun e he => (hknowns e he).mono hgrows.known) hlater

theorem follows_constrain {e e' : Expr} (h : env.CoveredBy env') (hbelow : e.Below R e')
    (hknows : env'.Knows e'.vars) (hexpected : expected'.Refines expected) :
    Follows env env' (constrain e expected) (constrain e' expected') fun _ _ env₁' =>
      ∀ v, e' = .var v → Told env' v expected' env₁' := by
  induction e' generalizing e env env' expected expected' with
  | var v' =>
    cases hbelow with
    | var hv =>
      rw [constrain_var, constrain_var]
      refine (follows_unify h hexpected hv.type).bind fun t t' env₁ env₁' hcovered _ hpost => ?_
      obtain ⟨rfl, ht, hexpected'⟩ := hpost
      refine (follows_learn hcovered hv.name ht (hknows v' (List.mem_singleton.mpr rfl))).imp fun _ _ _ htold => ?_
      rintro _ ⟨⟩
      exact ⟨htold.known.trans hexpected', htold.frame⟩
  | list element items attrs ih =>
    cases hbelow with
    | list helement hitems =>
      rw [constrain_list, constrain_list]
      refine (follows_unify h hexpected (.list helement)).bind fun t t' env₁ env₁' hcovered _ hpost => ?_
      obtain ⟨rfl, ht, -⟩ := hpost
      refine (follows_constrainAll hcovered hitems (TypeEnv.knows_varsIn.mp hknows) fun e' he' e env env' hb hc hk => ?_).imp
        fun _ _ _ _ v hv => nomatch hv
      exact (ih e' he' hc hb hk ht.elementOrCaptured).imp fun _ _ _ _ => trivial
  | _ =>
    cases hbelow
    rw [constrain_of_closed rfl, constrain_of_closed rfl]
    refine (follows_unify h hexpected (.refl _)).bind fun _ _ env₁ env₁' hcovered _ _ => ?_
    exact follows_pure hcovered fun v hv => nomatch hv

end Constrain

/-! ## Links -/

section Links

variable {R : Attributes → Attributes → Prop} {value value' : Expr}

theorem follows_link {f f' : TypeEnv → TypeEnv} (h : env.CoveredBy env') (hgrows : env'.CoveredBy (f' env'))
    (hf : ∀ env₁', env.CoveredBy env₁' → env₁' = f' env' ∨ env₁' = env' ∧ t'.isConcrete = true →
      (f env).CoveredBy env₁') :
    Follows env env' (if t.isConcrete then pure () else modify f : Reading PUnit)
      (if t'.isConcrete then pure () else modify f' : Reading PUnit) fun _ _ _ => True := by
  intro _ env₁ _ env₁' hyields hyields'
  have hright : env'.CoveredBy env₁' ∧ (env₁' = f' env' ∨ env₁' = env' ∧ t'.isConcrete = true) := by
    split at hyields'
    · next hconcrete =>
      obtain ⟨-, rfl⟩ := yields_pure_iff.mp hyields'
      exact ⟨.refl _, .inr ⟨rfl, hconcrete⟩⟩
    · obtain rfl := yields_modify_iff.mp hyields'
      exact ⟨hgrows, .inl rfl⟩
  have hcovered := h.trans hright.1
  refine ⟨?_, hright.1, trivial⟩
  split at hyields
  · obtain ⟨-, rfl⟩ := yields_pure_iff.mp hyields
    exact hcovered
  · obtain rfl := yields_modify_iff.mp hyields
    exact hf env₁' hcovered hright.2

theorem follows_linkTo (h : env.CoveredBy env') (hbelow : value.Below R value')
    (hname : (env'.lookup name).Refines t') (hvalue : ∀ v, value' = .var v → (env'.lookup v.name).Refines t') :
    Follows env env' (linkTo name value t id) (linkTo name value' t' id') fun _ _ _ => True := by
  cases hbelow with
  | @var v v' hv =>
    unfold linkTo
    dsimp only
    rw [hv.name]
    refine follows_link h TypeEnv.coveredBy_equate fun env₁' hcovered hright => hcovered.equate fun τ hτ => ?_
    -- The second side is linked too, or it knows the type of both.
    rcases hright with rfl | ⟨rfl, hconcrete⟩
    · exact (TypeEnv.solution_equate.mp hτ).2
    · rw [hτ.eq_of_isConcrete hname hconcrete, hτ.eq_of_isConcrete (hvalue v' rfl) hconcrete]
  | _ => exact follows_pure h trivial

theorem follows_linkBoth {left left' : Expr} (h : env.CoveredBy env') (hleft : left.Below R left')
    (hbelow : value.Below R value') (hknown : ∀ v, left' = .var v → (env'.lookup v.name).Refines t')
    (hvalue : ∀ v, value' = .var v → (env'.lookup v.name).Refines t') :
    Follows env env' (linkBoth left value t id) (linkBoth left' value' t' id') fun _ _ _ => True := by
  cases hleft with
  | @var v v' hv =>
    unfold linkBoth
    dsimp only
    rw [hv.name]
    exact follows_linkTo h hbelow (hknown v' rfl) hvalue
  | _ => exact follows_pure h trivial

theorem follows_linkElements (h : env.CoveredBy env') (hbelow : value.Below R value')
    (hname : (env'.lookup name).Refines t')
    (hvalue : ∀ v, value' = .var v → (env'.lookup v.name).Refines (.list t')) :
    Follows env env' (linkElements name value t id) (linkElements name value' t' id') fun _ _ _ => True := by
  cases hbelow with
  | @var v v' hv =>
    unfold linkElements
    dsimp only
    rw [hv.name]
    refine follows_link h TypeEnv.coveredBy_elementOf fun env₁' hcovered hright => hcovered.elementOf fun τ hτ => ?_
    rcases hright with rfl | ⟨rfl, hconcrete⟩
    · exact (TypeEnv.solution_elementOf.mp hτ).2
    · have hlist : (Ty.list t').isConcrete = true := hconcrete
      rw [hτ.eq_of_isConcrete hname hconcrete, hτ.eq_of_isConcrete (hvalue v' rfl) hlist]
  | _ => exact follows_pure h trivial

end Links

theorem follows_share {R : Attributes → Attributes → Prop} {left left' right right' : Expr} (op : BinaryOp)
    (h : env.CoveredBy env') (hleft : left.Below R left') (hknowsLeft : env'.Knows left'.vars)
    (hright : right.Below R right') (hknowsRight : env'.Knows right'.vars) :
    Follows env env' (share op left right id) (share op left' right' id') fun _ _ _ => True := by
  unfold share
  split
  · refine (follows_unify h hleft.type hright.type).bind fun t t' env₁ env₁' hcovered₁ _ hunified => ?_
    obtain ⟨rfl, ht, -⟩ := hunified
    refine (follows_constrain hcovered₁ hleft hknowsLeft ht).bind fun _ _ env₂ env₂' hcovered₂ hgrows₂ htold => ?_
    refine (follows_constrain hcovered₂ hright (hknowsRight.mono hgrows₂.known) ht).bind
      fun _ _ env₃ env₃' hcovered₃ hgrows₃ htold' => ?_
    refine follows_linkBoth hcovered₃ hleft hright (fun v hv => ?_) fun v hv => (htold' v hv).known
    exact (hgrows₃.known v.name).trans (htold v hv).known
  · exact follows_pure h trivial

end Reading

end Blockwork
