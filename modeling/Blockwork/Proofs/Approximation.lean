import Blockwork.Proofs.WellTyped

/-! # Nodes that know less

`e.Below R q` says that `q` is `e` with more known about types, and that attributes of corresponding nodes
are related by `R`. Attributes are compared because a node that is read anew may carry more of them.
-/

namespace Blockwork

set_option autoImplicit false

open List (Forall₂ mem_singleton forall_mem_singleton forall_mem_append forall_mem_cons)

structure Var.Below (R : Attributes → Attributes → Prop) (v w : Var) : Prop where
  name : v.name = w.name
  type : w.type.Refines v.type
  attrs : R v.attrs w.attrs

inductive Expr.Below (R : Attributes → Attributes → Prop) : Expr → Expr → Prop where
  | var {v w : Var} (h : v.Below R w) : Below R (.var v) (.var w)
  | number {literal : String} {value : Binary64} {a a' : Attributes} (attrs : R a a') :
      Below R (.number literal value a) (.number literal value a')
  | boolean {value : Bool} {a a' : Attributes} (attrs : R a a') :
      Below R (.boolean value a) (.boolean value a')
  | text {value : String} {a a' : Attributes} (attrs : R a a') : Below R (.text value a) (.text value a')
  | binary {op : BinaryOp} {l l' r r' : Expr} {a a' : Attributes} (left : Below R l l')
      (right : Below R r r') (attrs : R a a') : Below R (.binary op l r a) (.binary op l' r' a')
  | unary {op : UnaryOp} {e e' : Expr} {a a' : Attributes} (operand : Below R e e') (attrs : R a a') :
      Below R (.unary op e a) (.unary op e' a')
  | list {t t' : Ty} {items items' : List Expr} {a a' : Attributes} (element : t'.Refines t)
      (below : Forall₂ (Below R) items items') (attrs : R a a') :
      Below R (.list t items a) (.list t' items' a')
  | length {e e' : Expr} {a a' : Attributes} (operand : Below R e e') (attrs : R a a') :
      Below R (.length e a) (.length e' a')
  | join {items items' : List Expr} {a a' : Attributes} (below : Forall₂ (Below R) items items')
      (attrs : R a a') : Below R (.join items a) (.join items' a')

inductive Stmt.Below (R : Attributes → Attributes → Prop) : Stmt → Stmt → Prop where
  | assign {v w : Var} {e e' : Expr} {a a' : Attributes} (target : v.Below R w) (value : e.Below R e')
      (attrs : R a a') : Below R (.assign v e a) (.assign w e' a')
  | choose {bs bs' : List (Expr × List Stmt)} {o o' : Option (List Stmt)} {a a' : Attributes}
      (conditions : Forall₂ (Expr.Below R) (bs.map Prod.fst) (bs'.map Prod.fst))
      (bodies : Forall₂ (Forall₂ (Below R)) (bs.map Prod.snd) (bs'.map Prod.snd))
      (isSome : o.isSome = o'.isSome) (otherwise : Forall₂ (Below R) (o.getD []) (o'.getD []))
      (attrs : R a a') : Below R (.choose bs o a) (.choose bs' o' a')
  | repeat' {e e' : Expr} {body body' : List Stmt} {a a' : Attributes} (times : e.Below R e')
      (below : Forall₂ (Below R) body body') (attrs : R a a') :
      Below R (.repeat e body a) (.repeat e' body' a')
  | loop {mode : LoopMode} {e e' : Expr} {body body' : List Stmt} {a a' : Attributes}
      (condition : e.Below R e') (below : Forall₂ (Below R) body body') (attrs : R a a') :
      Below R (.loop mode e body a) (.loop mode e' body' a')
  | count {v w : Var} {e₁ e₁' e₂ e₂' e₃ e₃' : Expr} {body body' : List Stmt} {a a' : Attributes}
      (counter : v.Below R w) (first : e₁.Below R e₁') (last : e₂.Below R e₂') (step : e₃.Below R e₃')
      (below : Forall₂ (Below R) body body') (attrs : R a a') :
      Below R (.count v e₁ e₂ e₃ body a) (.count w e₁' e₂' e₃' body' a')
  | forEach {v w : Var} {e e' : Expr} {body body' : List Stmt} {a a' : Attributes} (item : v.Below R w)
      (list : e.Below R e') (below : Forall₂ (Below R) body body') (attrs : R a a') :
      Below R (.forEach v e body a) (.forEach w e' body' a')
  | flow {choice : Flow} {a a' : Attributes} (attrs : R a a') : Below R (.flow choice a) (.flow choice a')
  | wait {e e' : Expr} {a a' : Attributes} (time : e.Below R e') (attrs : R a a') :
      Below R (.wait e a) (.wait e' a')
  | print {e e' : Expr} {a a' : Attributes} (text : e.Below R e') (attrs : R a a') :
      Below R (.print e a) (.print e' a')

def Root.Below (R : Attributes → Attributes → Prop) : Root → Root → Prop
  | .statements body, .statements body' => Forall₂ (Stmt.Below R) body body'
  | .value e, .value e' => e.Below R e'
  | _, _ => False

namespace Expr

variable {R : Attributes → Attributes → Prop} {e q : Expr}

theorem Below.type (h : e.Below R q) : q.type.Refines e.type := by
  cases h with
  | var h => exact h.type
  | list element => exact .list element
  | _ => exact .refl _

theorem Below.type_eq (h : e.Below R q) (he : e.WellTyped) : q.type = e.type :=
  h.type.eq_of_isConcrete he.isConcrete

/-! ## Expressions with the types of an assignment -/

structure TypedBy (σ : String → Ty) (q : Expr) : Prop where
  wellTyped : q.WellTyped
  vars : ∀ v ∈ q.vars, v.type = σ v.name

variable {σ : String → Ty}

theorem typedBy_var {v : Var} : (var v).TypedBy σ ↔ v.type.isConcrete = true ∧ v.type = σ v.name :=
  ⟨fun h => ⟨everywhere_var.mp h.wellTyped, h.vars v (mem_singleton.mpr rfl)⟩,
    fun h => ⟨everywhere_var.mpr h.1, forall_mem_singleton.mpr h.2⟩⟩

variable {a : Attributes} {items : List Expr}

theorem typedBy_iff : q.TypedBy σ ↔ q.WellTyped ∧ ∀ v ∈ q.vars, v.type = σ v.name :=
  ⟨fun h => ⟨h.wellTyped, h.vars⟩, fun h => ⟨h.1, h.2⟩⟩

theorem typedBy_binary {op : BinaryOp} {l r : Expr} : (binary op l r a).TypedBy σ ↔
      r.type = l.type ∧ l.type.Refines op.operandType ∧ l.TypedBy σ ∧ r.TypedBy σ := by
  simp only [typedBy_iff, everywhere_binary, Checks, vars, forall_mem_append]
  tauto

theorem typedBy_unary {op : UnaryOp} {e : Expr} :
    (unary op e a).TypedBy σ ↔ e.type = op.operandType ∧ e.TypedBy σ := by
  simp only [typedBy_iff, everywhere_unary, Checks, vars, and_assoc]

theorem typedBy_items : (∀ e ∈ items, e.TypedBy σ) ↔
      (∀ e ∈ items, e.WellTyped) ∧ ∀ v ∈ varsIn items, v.type = σ v.name := by
  constructor
  · intro h
    refine ⟨fun e he => (h e he).wellTyped, fun v hv => ?_⟩
    obtain ⟨e, he, hv⟩ := mem_varsIn.mp hv
    exact (h e he).vars v hv
  · rintro ⟨hitems, hvars⟩ e he
    exact ⟨hitems e he, fun v hv => hvars v (mem_varsIn.mpr ⟨e, he, hv⟩)⟩

theorem typedBy_list {t : Ty} :
    (list t items a).TypedBy σ ↔ t.isConcrete = true ∧ ∀ e ∈ items, e.type = t ∧ e.TypedBy σ := by
  rw [forall₂_and, typedBy_items]
  simp only [typedBy_iff, everywhere_list, Checks, vars, and_assoc]

theorem typedBy_length {e : Expr} : (length e a).TypedBy σ ↔ (∃ t, e.type = .list t) ∧ e.TypedBy σ := by
  simp only [typedBy_iff, everywhere_length, Checks, vars, and_assoc]

theorem typedBy_join : (join items a).TypedBy σ ↔ ∀ e ∈ items, e.TypedBy σ := by
  rw [typedBy_items]
  simp only [typedBy_iff, everywhere_join, Checks, vars, true_and]

theorem Below.typedBy (h : e.Below R q) (he : e.TypedBy σ) : q.TypedBy σ := by
  induction e generalizing q with
  | var v =>
    cases h with | var h => ?_
    obtain ⟨hconcrete, hσ⟩ := typedBy_var.mp he
    have htype := h.type.eq_of_isConcrete hconcrete
    refine typedBy_var.mpr ⟨htype ▸ hconcrete, ?_⟩
    rw [htype, ← h.name]
    exact hσ
  | number =>
    cases h
    exact ⟨everywhere_number.mpr trivial, fun _ h => nomatch h⟩
  | boolean =>
    cases h
    exact ⟨everywhere_boolean.mpr trivial, fun _ h => nomatch h⟩
  | text =>
    cases h
    exact ⟨everywhere_text.mpr trivial, fun _ h => nomatch h⟩
  | binary op l r a ihl ihr =>
    cases h with | binary hl hr _ => ?_
    obtain ⟨heq, htype, htypedLeft, htypedRight⟩ := typedBy_binary.mp he
    refine typedBy_binary.mpr ⟨?_, ?_, ihl hl htypedLeft, ihr hr htypedRight⟩
    · rw [hl.type_eq htypedLeft.wellTyped, hr.type_eq htypedRight.wellTyped, heq]
    · rw [hl.type_eq htypedLeft.wellTyped]
      exact htype
  | unary op e a ih =>
    cases h with
    | unary h _ =>
      obtain ⟨htype, htyped⟩ := typedBy_unary.mp he
      exact typedBy_unary.mpr ⟨(h.type_eq htyped.wellTyped).trans htype, ih h htyped⟩
  | list t items a ih =>
    cases h with | list ht hitems _ => ?_
    obtain ⟨hconcrete, htypes⟩ := typedBy_list.mp he
    obtain rfl := ht.eq_of_isConcrete hconcrete
    refine typedBy_list.mpr ⟨hconcrete, fun q hq => ?_⟩
    obtain ⟨e, he, h⟩ := exists_of_mem_right hitems hq
    obtain ⟨htype, htyped⟩ := htypes e he
    exact ⟨(h.type_eq htyped.wellTyped).trans htype, ih e he h htyped⟩
  | length e a ih =>
    cases h with
    | length h _ =>
      obtain ⟨⟨t, htype⟩, htyped⟩ := typedBy_length.mp he
      exact typedBy_length.mpr ⟨⟨t, (h.type_eq htyped.wellTyped).trans htype⟩, ih h htyped⟩
  | join items a ih =>
    cases h with
    | join hitems _ =>
      refine typedBy_join.mpr fun q hq => ?_
      obtain ⟨e, hmem, h⟩ := exists_of_mem_right hitems hq
      exact ih e hmem h (typedBy_join.mp he e hmem)

end Expr

namespace Stmt

structure TypedBy (σ : String → Ty) (q : Stmt) : Prop where
  wellTyped : q.WellTyped
  vars : ∀ v ∈ q.vars, v.type = σ v.name

variable {σ : String → Ty}

variable {v : Var} {body : List Stmt} {e : Expr} {a : Attributes}

theorem mem_varsIn : v ∈ varsIn body ↔ ∃ s ∈ body, v ∈ s.vars := by
  induction body with
  | nil => simp [varsIn]
  | cons s rest ih => simp [varsIn, ih]

theorem typedBy_body :
    (∀ s ∈ body, s.TypedBy σ) ↔ (∀ s ∈ body, s.WellTyped) ∧ ∀ v ∈ varsIn body, v.type = σ v.name := by
  constructor
  · intro h
    refine ⟨fun s hs => (h s hs).wellTyped, fun v hv => ?_⟩
    obtain ⟨s, hs, hv⟩ := mem_varsIn.mp hv
    exact (h s hs).vars v hv
  · rintro ⟨hbody, hvars⟩ s hs
    exact ⟨hbody s hs, fun v hv => hvars v (mem_varsIn.mpr ⟨s, hs, hv⟩)⟩

theorem typedBy_iff {q : Stmt} : q.TypedBy σ ↔ q.WellTyped ∧ ∀ v ∈ q.vars, v.type = σ v.name :=
  ⟨fun h => ⟨h.wellTyped, h.vars⟩, fun h => ⟨h.1, h.2⟩⟩

theorem typedBy_assign : (assign v e a).TypedBy σ ↔
      v.type.isConcrete = true ∧ e.type = v.type ∧ v.type = σ v.name ∧ e.TypedBy σ := by
  simp only [typedBy_iff, Expr.typedBy_iff, Everywhere, all, Checks, exprs, vars, forall_mem_singleton, forall_mem_cons]
  tauto

theorem typedBy_repeat :
    (Stmt.repeat e body a).TypedBy σ ↔ e.type = .number ∧ e.TypedBy σ ∧ ∀ s ∈ body, s.TypedBy σ := by
  rw [typedBy_body, typedBy_iff]
  simp only [everywhere_repeat, Expr.typedBy_iff, Checks, exprs, vars, forall_mem_singleton, forall_mem_append]
  tauto

theorem typedBy_loop {mode : LoopMode} :
    (loop mode e body a).TypedBy σ ↔ e.type = .boolean ∧ e.TypedBy σ ∧ ∀ s ∈ body, s.TypedBy σ := by
  rw [typedBy_body, typedBy_iff]
  simp only [everywhere_loop, Expr.typedBy_iff, Checks, exprs, vars, forall_mem_singleton, forall_mem_append]
  tauto

theorem typedBy_count {e₁ e₂ e₃ : Expr} : (count v e₁ e₂ e₃ body a).TypedBy σ ↔
      (v.type = .number ∧ v.type = σ v.name) ∧ ((e₁.type = .number ∧ e₁.TypedBy σ) ∧
        (e₂.type = .number ∧ e₂.TypedBy σ) ∧ e₃.type = .number ∧ e₃.TypedBy σ) ∧ ∀ s ∈ body, s.TypedBy σ := by
  rw [typedBy_body, typedBy_iff]
  simp only [everywhere_count, Expr.typedBy_iff, Checks, exprs, vars, forall_mem_singleton, forall_mem_cons,
    forall_mem_append]
  tauto

theorem typedBy_forEach : (forEach v e body a).TypedBy σ ↔
      e.type = .list v.type ∧ v.type = σ v.name ∧ e.TypedBy σ ∧ ∀ s ∈ body, s.TypedBy σ := by
  have hconcrete : e.WellTyped → e.type = .list v.type → v.type.isConcrete = true := by
    intro he htype
    have hlist := he.isConcrete
    rwa [htype] at hlist
  rw [typedBy_body, typedBy_iff]
  simp only [everywhere_forEach, Expr.typedBy_iff, Checks, exprs, vars, forall_mem_singleton, forall_mem_cons,
    forall_mem_append]
  tauto

theorem typedBy_flow {choice : Flow} : (flow choice a).TypedBy σ :=
  ⟨everywhere_leaf ⟨fun _ h => absurd h List.not_mem_nil, trivial⟩ rfl, fun _ h => absurd h List.not_mem_nil⟩

theorem typedBy_wait : (wait e a).TypedBy σ ↔ e.type = .number ∧ e.TypedBy σ := by
  simp only [typedBy_iff, Expr.typedBy_iff, Everywhere, all, Checks, exprs, vars, forall_mem_singleton]
  tauto

theorem typedBy_print : (print e a).TypedBy σ ↔ e.TypedBy σ := by
  simp only [typedBy_iff, Expr.typedBy_iff, Everywhere, all, Checks, exprs, vars, forall_mem_singleton, and_true]

theorem varsInOtherwise_eq (otherwise : Option (List Stmt)) :
    varsInOtherwise otherwise = varsIn (otherwise.getD []) := by
  cases otherwise <;> rfl

theorem mem_varsInBranches {branches : List (Expr × List Stmt)} :
    v ∈ varsInBranches branches ↔ ∃ branch ∈ branches, v ∈ branch.1.vars ∨ v ∈ varsIn branch.2 := by
  induction branches with
  | nil => simp [varsInBranches]
  | cons branch rest ih =>
    obtain ⟨condition, body⟩ := branch
    simp [varsInBranches, ih, or_assoc]

theorem typedBy_choose {branches : List (Expr × List Stmt)} {otherwise : Option (List Stmt)} :
    (choose branches otherwise a).TypedBy σ ↔
      (∀ e ∈ branches.map Prod.fst, e.type = .boolean ∧ e.TypedBy σ) ∧
      (∀ body ∈ branches.map Prod.snd, ∀ s ∈ body, s.TypedBy σ) ∧ ∀ s ∈ otherwise.getD [], s.TypedBy σ := by
  have hgetD : (∀ body, otherwise = some body → ∀ s ∈ body, s.WellTyped) ↔ ∀ s ∈ otherwise.getD [], s.WellTyped := by
    cases otherwise <;> simp
  rw [typedBy_iff]
  simp only [everywhere_choose, hgetD, Checks, exprs, vars, forall_mem_append, List.forall_mem_map, Expr.typedBy_iff,
    mem_varsInBranches, varsInOtherwise_eq, typedBy_body]
  constructor
  · rintro ⟨⟨⟨hexprs, htypes⟩, hbodies, hlast⟩, hvars, hvarsLast⟩
    refine ⟨fun branch hb => ⟨htypes branch hb, hexprs branch hb, fun v hv => ?_⟩,
      fun branch hb => ⟨hbodies branch hb, fun v hv => ?_⟩, hlast, hvarsLast⟩
    · exact hvars v ⟨branch, hb, .inl hv⟩
    · exact hvars v ⟨branch, hb, .inr hv⟩
  · rintro ⟨hconditions, hbodies, hlast, hvarsLast⟩
    refine ⟨⟨⟨fun branch hb => (hconditions branch hb).2.1, fun branch hb => (hconditions branch hb).1⟩,
      fun branch hb => (hbodies branch hb).1, hlast⟩, ?_, hvarsLast⟩
    rintro v ⟨branch, hb, hv | hv⟩
    · exact (hconditions branch hb).2.2 v hv
    · exact (hbodies branch hb).2 v hv

variable {R : Attributes → Attributes → Prop} {s q : Stmt}

theorem typedBy_above {qs : List Stmt} (h : Forall₂ (Below R) body qs)
    (hstep : ∀ s ∈ body, ∀ {q : Stmt}, s.Below R q → s.TypedBy σ → q.TypedBy σ)
    (hbody : ∀ s ∈ body, s.TypedBy σ) : ∀ q ∈ qs, q.TypedBy σ := by
  intro q hq
  obtain ⟨s, hs, h⟩ := exists_of_mem_right h hq
  exact hstep s hs h (hbody s hs)

theorem Below.typedBy (h : s.Below R q) (hs : s.TypedBy σ) : q.TypedBy σ := by
  induction s generalizing q with
  | assign v e a =>
    cases h with | assign hv he _ => ?_
    obtain ⟨hconcrete, htype, hσ, htyped⟩ := typedBy_assign.mp hs
    have heq := hv.type.eq_of_isConcrete hconcrete
    refine typedBy_assign.mpr ⟨heq ▸ hconcrete, ?_, ?_, he.typedBy htyped⟩
    · rw [he.type_eq htyped.wellTyped, heq]
      exact htype
    · rw [heq, ← hv.name]
      exact hσ
  | choose branches otherwise a ih ih' =>
    cases h with | choose hconditions hbodies _ hlast _ => ?_
    obtain ⟨htypedConditions, htypedBodies, htypedLast⟩ := typedBy_choose.mp hs
    refine typedBy_choose.mpr ⟨fun q hq => ?_, fun qs hqs => ?_, ?_⟩
    · obtain ⟨e, he, h⟩ := exists_of_mem_right hconditions hq
      obtain ⟨htype, htyped⟩ := htypedConditions e he
      exact ⟨(h.type_eq htyped.wellTyped).trans htype, h.typedBy htyped⟩
    · obtain ⟨body, hbody, h⟩ := exists_of_mem_right hbodies hqs
      refine typedBy_above h (fun s hs => ?_) (htypedBodies body hbody)
      obtain ⟨branch, hbranch, rfl⟩ := List.mem_map.mp hbody
      exact ih branch hbranch s hs
    · exact typedBy_above hlast (forall_mem_otherwise ih') htypedLast
  | repeat' e body a ih =>
    cases h with
    | repeat' he hbody _ =>
      obtain ⟨htype, htyped, htypedBody⟩ := typedBy_repeat.mp hs
      exact typedBy_repeat.mpr ⟨(he.type_eq htyped.wellTyped).trans htype, he.typedBy htyped,
        typedBy_above hbody ih htypedBody⟩
  | loop mode e body a ih =>
    cases h with
    | loop he hbody _ =>
      obtain ⟨htype, htyped, htypedBody⟩ := typedBy_loop.mp hs
      exact typedBy_loop.mpr ⟨(he.type_eq htyped.wellTyped).trans htype, he.typedBy htyped,
        typedBy_above hbody ih htypedBody⟩
  | count v e₁ e₂ e₃ body a ih =>
    cases h with | count hv h₁ h₂ h₃ hbody _ => ?_
    obtain ⟨⟨hnumber, hσ⟩, ⟨⟨htype₁, htyped₁⟩, ⟨htype₂, htyped₂⟩, htype₃, htyped₃⟩, htypedBody⟩ :=
      typedBy_count.mp hs
    have heq : _ = v.type := hv.type.eq_of_isConcrete (hnumber ▸ rfl)
    refine typedBy_count.mpr ⟨⟨heq.trans hnumber, ?_⟩,
      ⟨⟨(h₁.type_eq htyped₁.wellTyped).trans htype₁, h₁.typedBy htyped₁⟩,
        ⟨(h₂.type_eq htyped₂.wellTyped).trans htype₂, h₂.typedBy htyped₂⟩,
        (h₃.type_eq htyped₃.wellTyped).trans htype₃, h₃.typedBy htyped₃⟩, typedBy_above hbody ih htypedBody⟩
    rw [heq, ← hv.name]
    exact hσ
  | forEach v e body a ih =>
    cases h with | forEach hv he hbody _ => ?_
    obtain ⟨htype, hσ, htyped, htypedBody⟩ := typedBy_forEach.mp hs
    have hconcrete : v.type.isConcrete = true := by
      have hlist := htyped.wellTyped.isConcrete
      rw [htype] at hlist
      exact hlist
    have heq := hv.type.eq_of_isConcrete hconcrete
    refine typedBy_forEach.mpr ⟨?_, ?_, he.typedBy htyped, typedBy_above hbody ih htypedBody⟩
    · rw [he.type_eq htyped.wellTyped, heq]
      exact htype
    · rw [heq, ← hv.name]
      exact hσ
  | flow choice a =>
    cases h
    exact typedBy_flow
  | wait e a =>
    cases h with
    | wait he _ =>
      obtain ⟨htype, htyped⟩ := typedBy_wait.mp hs
      exact typedBy_wait.mpr ⟨(he.type_eq htyped.wellTyped).trans htype, he.typedBy htyped⟩
  | print e a =>
    cases h with
    | print he _ => exact typedBy_print.mpr (he.typedBy (typedBy_print.mp hs))

end Stmt

def Root.TypedBy (σ : String → Ty) : Root → Prop
  | .statements body => ∀ s ∈ body, s.TypedBy σ
  | .value e => e.TypedBy σ

theorem Root.Below.typedBy {R : Attributes → Attributes → Prop} {σ : String → Ty} {root q : Root}
    (h : root.Below R q) (hroot : root.TypedBy σ) : q.TypedBy σ := by
  cases root with
  | statements body =>
    cases q with
    | value => cases h
    | statements qs => exact Stmt.typedBy_above h (fun s _ _ h => h.typedBy) hroot
  | value e =>
    cases q with
    | statements => cases h
    | value q => exact Expr.Below.typedBy h hroot

end Blockwork
