import Blockwork.Proofs.ResolvingBelow

/-! # Resolving nodes that know more

No type stays open in a node that knows more than one that was resolved, even if it is asked for more.
-/

namespace Blockwork

set_option autoImplicit false

variable {R : Attributes → Attributes → Prop} {env env' : TypeEnv}

namespace Expr

/-- An expression that knows less resolves to one that knows less than `q'`. -/
def Resolved (R : Attributes → Attributes → Prop) (env : TypeEnv) (e' : Expr) (expected' : Ty) (q' : Expr) : Prop :=
  ∃ (e : Expr) (expected : Ty) (q : Expr), e.Below (fun _ _ => True) e' ∧ expected'.Refines expected ∧ q.Below R q' ∧
    e.resolve env expected = .ok q

theorem hints_refines (op : BinaryOp) {left left' right right' : Expr} (hleft : left'.type.Refines left.type)
    (hright : right'.type.Refines right.type) :
    (hints op left' right').1.Refines (hints op left right).1 ∧
      (hints op left' right').2.Refines (hints op left right).2 := by
  unfold hints
  split
  · exact ⟨hright, hleft⟩
  · exact ⟨.refl _, .refl _⟩

theorem elementsMeet_resolved {t t' element final : Ty} {items items' qs qs' : List Expr}
    (hbelow : List.Forall₂ (Below fun _ _ => True) items items') (hqs : List.Forall₂ (Below R) qs qs')
    (hqs' : ∀ q ∈ qs', q.type = element) (h : resolveElements env t items = .ok (final, qs))
    (hfinal : final.isConcrete = true) (ht : t'.Refines t) (hbound : element.Refines t') :
    ElementsMeet (Resolved R env) t' items' qs' := by
  induction hbelow generalizing qs qs' t t' with
  | nil =>
    rw [resolveElements] at h
    cases h
    cases hqs
    exact .nil (ht.isConcrete hfinal)
  | cons hbelow _ ih =>
    obtain ⟨q, u, others, hresolved, hu, hothers, rfl⟩ := resolveElements_cons_ok_iff.mp h
    cases hqs with | cons hq hqs => ?_
    obtain ⟨rfl, hqs'⟩ := List.forall_mem_cons.mp hqs'
    have hmono := Ty.unify?_mono ht hq.type hu (Ty.unify?_eq_right hbound)
    exact .cons ⟨_, t, q, hbelow, ht, hq, hresolved⟩ (ih hqs hqs' hothers hmono (.refl _))

theorem closes_resolved : Closes env'.lookup env' (Resolved R env) where
  known _ := rfl
  binary := by
    rintro op _ _ _ _ _ _ _ ⟨_, _, _, hbelow, -, hq, h⟩
    cases hbelow with | binary hleft hright _ => ?_
    obtain ⟨l, r, hl, hr, hmade⟩ := resolve_binary_ok_iff.mp h
    obtain rfl := eq_of_makeBinary hmade
    cases hq with | binary hql hqr _ => ?_
    obtain ⟨hleftHint, hrightHint⟩ := hints_refines op hleft.type hright.type
    exact ⟨⟨_, _, l, hleft, hleftHint, hql, hl⟩, _, _, r, hright, hrightHint, hqr, hr⟩
  unary := by
    rintro _ _ _ _ _ _ ⟨_, _, _, hbelow, -, hq, h⟩
    cases hbelow with | unary hbelow _ => ?_
    obtain ⟨q, hresolved, hmade⟩ := resolve_unary_ok_iff.mp h
    obtain rfl := eq_of_makeUnary hmade
    cases hq with | unary hq _ => ?_
    exact ⟨_, _, q, hbelow, .refl _, hq, hresolved⟩
  length := by
    rintro _ _ _ _ _ ⟨_, _, _, hbelow, -, hq, h⟩
    cases hbelow with | length hbelow _ => ?_
    obtain ⟨q, hresolved, -, hmade⟩ := resolve_length_ok_iff.mp h
    obtain rfl := eq_of_makeLength hmade
    cases hq with | length hq _ => ?_
    exact ⟨_, _, q, hbelow, .refl _, hq, hresolved⟩
  list := by
    rintro _ _ _ _ _ _ _ habove htyped hbound ⟨_, _, _, hbelow, hexpected, hq, h⟩
    cases habove with | list helement' _ _ => ?_
    cases hbelow with | list helement hbelow _ => ?_
    obtain ⟨final, qs, hresolved, hfinal, hmade⟩ := resolve_list_ok_iff.mp h
    obtain rfl := eq_of_makeList hmade
    cases hq with | list _ hqs _ => ?_
    obtain ⟨-, htypes⟩ := typedBy_list.mp htyped
    obtain ⟨hstart, hstartBound⟩ := startElement_mono helement hexpected helement' hbound
    exact elementsMeet_resolved hbelow hqs (fun q hq => (htypes q hq).1) hresolved hfinal hstart hstartBound
  join := by
    rintro _ _ _ _ _ - ⟨_, _, _, hbelow, -, hq, h⟩
    cases hbelow with | join hbelow _ => ?_
    obtain ⟨qs, hresolved, rfl⟩ := resolve_join_ok_iff.mp h
    cases hq with | join hqs _ => ?_
    refine forall₂_of_path (fun q _ e e' q' hbelow hresolved hq => ?_) hbelow hresolved hqs
    exact ⟨e, _, q, hbelow, .refl _, hq, hresolved⟩

end Expr

namespace Stmt

def Resolved (R : Attributes → Attributes → Prop) (env : TypeEnv) (s' q' : Stmt) : Prop :=
  ∃ s q : Stmt, s.Below (fun _ _ => True) s' ∧ q.Below R q' ∧ s.resolve env = .ok q

theorem forall₂_resolved {body body' qs qs' : List Stmt} (hbelow : List.Forall₂ (Below fun _ _ => True) body body')
    (h : AllResolve env body qs) (hqs : List.Forall₂ (Below R) qs qs') : List.Forall₂ (Resolved R env) body' qs' := by
  refine forall₂_of_path (fun q _ s s' q' hbelow hresolved hq => ?_) hbelow h hqs
  exact ⟨s, q, hbelow, hq, hresolved⟩

theorem closes_resolved : Closes env'.lookup env' (Expr.Resolved R env) (Resolved R env) where
  exprs := Expr.closes_resolved
  known _ := rfl
  assign := by
    rintro _ _ _ _ _ _ ⟨_, _, hbelow, hq, h⟩
    cases hbelow with | assign _ hvalue _ => ?_
    obtain ⟨v, e, -, hresolved, hmade⟩ := resolve_assign_ok_iff.mp h
    obtain rfl := eq_of_makeAssign hmade
    cases hq with | assign hqw hqvalue _ => ?_
    exact ⟨_, _, e, hvalue, hqw.type, hqvalue, hresolved⟩
  choose := by
    rintro _ _ _ _ _ _ - ⟨_, _, hbelow, hq, h⟩
    cases hbelow with | choose hbelows hbelowBodies _ hbelow _ => ?_
    obtain ⟨conditions, bodies, last, hresolved, hresolvedBodies, -, hresolvedLast, hmade⟩ :=
      resolve_choose_ok_iff.mp h
    obtain ⟨rfl, n, hn, hn'⟩ := exists_of_makeChoose hmade
    cases hq with | choose hconditions hbodies _ hlast _ => ?_
    rw [List.map_fst_zip (hn.trans hn'.symm).le] at hconditions
    rw [List.map_snd_zip (hn'.trans hn.symm).le] at hbodies
    refine ⟨?_, ?_, forall₂_resolved hbelow hresolvedLast hlast⟩
    · refine forall₂_of_path (fun q _ e e' q' hbelow hresolved hq => ?_) hbelows hresolved hconditions
      exact ⟨e, _, q, hbelow, .refl _, hq, (Expr.resolveAs_ok_iff.mp hresolved).1⟩
    · refine forall₂_of_path (fun _ _ _ _ _ hbelow hresolved hqs => ?_) hbelowBodies hresolvedBodies hbodies
      exact forall₂_resolved hbelow hresolved hqs
  repeat' := by
    rintro _ _ _ _ _ _ - ⟨_, _, hbelow, hq, h⟩
    cases hbelow with | repeat' htimes hbelow _ => ?_
    obtain ⟨e, body, hresolved, hbody, hmade⟩ := resolve_repeat_ok_iff.mp h
    obtain rfl := eq_of_makeRepeat hmade
    cases hq with | repeat' hq hqs _ => ?_
    exact ⟨⟨_, _, e, htimes, .refl _, hq, hresolved⟩, forall₂_resolved hbelow hbody hqs⟩
  loop := by
    rintro _ _ _ _ _ _ _ - ⟨_, _, hbelow, hq, h⟩
    cases hbelow with | loop hcondition hbelow _ => ?_
    obtain ⟨e, body, hresolved, hbody, hmade⟩ := resolve_loop_ok_iff.mp h
    obtain rfl := eq_of_makeLoop hmade
    cases hq with | loop hq hqs _ => ?_
    exact ⟨⟨_, _, e, hcondition, .refl _, hq, hresolved⟩, forall₂_resolved hbelow hbody hqs⟩
  count := by
    rintro _ _ _ _ _ _ _ _ _ _ _ _ - ⟨_, _, hbelow, hq, h⟩
    cases hbelow with | count _ hfirst hlast hstep hbelow _ => ?_
    obtain ⟨v, e₁, e₂, e₃, body, -, h₁, h₂, h₃, hbody, hmade⟩ := resolve_count_ok_iff.mp h
    obtain rfl := eq_of_makeCount hmade
    cases hq with | count _ hq₁ hq₂ hq₃ hqs _ => ?_
    exact ⟨⟨⟨_, _, e₁, hfirst, .refl _, hq₁, h₁⟩, ⟨_, _, e₂, hlast, .refl _, hq₂, h₂⟩, _, _, e₃, hstep, .refl _, hq₃, h₃⟩,
      forall₂_resolved hbelow hbody hqs⟩
  forEach := by
    rintro _ _ _ _ _ _ _ _ - ⟨_, _, hbelow, hq, h⟩
    cases hbelow with | forEach _ hlist hbelow _ => ?_
    obtain ⟨v, e, body, -, hresolved, hbody, hmade⟩ := resolve_forEach_ok_iff.mp h
    obtain rfl := eq_of_makeForEach hmade
    cases hq with | forEach hqw hq hqs _ => ?_
    exact ⟨⟨_, _, e, hlist, .list hqw.type, hq, hresolved⟩, forall₂_resolved hbelow hbody hqs⟩
  wait := by
    rintro _ _ _ _ ⟨_, _, hbelow, hq, h⟩
    cases hbelow with | wait hbelow _ => ?_
    obtain ⟨e, hresolved, hmade⟩ := resolve_wait_ok_iff.mp h
    obtain rfl := eq_of_makeWait hmade
    cases hq with | wait hq _ => ?_
    exact ⟨_, _, e, hbelow, .refl _, hq, hresolved⟩
  print := by
    rintro _ _ _ _ ⟨_, _, hbelow, hq, h⟩
    cases hbelow with | print hbelow _ => ?_
    obtain ⟨e, hresolved, rfl⟩ := resolve_print_ok_iff.mp h
    cases hq with | print hq _ => ?_
    exact ⟨_, _, e, hbelow, .refl _, hq, hresolved⟩

end Stmt

/-! ## Roots -/

namespace Root

variable {root root' q q' : Root}

theorem meets_resolved (hbelow : root.Below (fun _ _ => True) root') (hq : q.Below R q') (h : root.resolve env = .ok q) :
    root'.Meets (Expr.Resolved R env) (Stmt.Resolved R env) q' := by
  cases root with
  | statements body =>
    obtain ⟨qs, hqs, h⟩ := Except.bind_ok_iff.mp h
    cases h
    cases root' with
    | value => cases hbelow
    | statements body' =>
      cases q' with
      | value => cases hq
      | statements qs' => exact Stmt.forall₂_resolved hbelow (Stmt.resolveAll_ok_iff.mp hqs) hq
  | value e =>
    obtain ⟨q₁, hq₁, h⟩ := Except.bind_ok_iff.mp h
    cases h
    cases root' with
    | statements => cases hbelow
    | value e' =>
      cases q' with
      | statements => cases hq
      | value q' => exact ⟨e, .captured, q₁, hbelow, .refl _, hq, hq₁⟩

theorem resolveAll_of_below {roots roots' qs qs' : List Root} {blocks : List Block}
    (hbelow : List.Forall₂ (Root.Below fun _ _ => True) roots roots')
    (habove : List.Forall₂ (Root.Below Eq) roots' qs') (hqs : List.Forall₂ (Root.Below R) qs qs')
    (hfrom : List.Forall₂ Root.ComesFrom qs' blocks) (htyped : ∀ root ∈ qs', root.TypedBy env'.lookup)
    (h : List.Forall₂ (fun root q => root.resolve env = .ok q) roots qs) :
    roots'.mapM (Root.resolve env') = .ok qs' := by
  have hmeets : List.Forall₂ (Root.Meets (Expr.Resolved R env) (Stmt.Resolved R env)) roots' qs' := by
    refine forall₂_of_path (fun _ _ _ _ _ hbelow h hq => ?_) hbelow h hqs
    exact meets_resolved hbelow hq h
  refine (Except.settles_mapM (forall₂_of_mem habove fun root' _ q' hq' habove => ?_)).eq_ok hmeets
  obtain ⟨b, -, hfrom⟩ := exists_of_mem_left hfrom hq'
  exact settles_resolve Stmt.closes_resolved (.refl env') habove hfrom (htyped q' hq')

end Root

end Blockwork
