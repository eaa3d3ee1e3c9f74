import Blockwork.Proofs.RuleEquations

/-! # Programs put together by hand

A program need not be read from blocks. It can be put together from nodes that were made one by one, from
parts that were made before.
-/

namespace Blockwork

set_option autoImplicit false

open List (Forall₂ rel_append forall_mem_cons forall_mem_singleton of_mem_zip mem_map forall₂_same)

/-! ## Nodes that were made -/

def Var.Made (v : Var) : Prop :=
  ∃ name type attrs, Var.make name type attrs = .ok v

/-- Every node of the expression was made, from parts that were made. -/
inductive Expr.Made : Expr → Prop
  | var {v : Var} (made : v.Made) : Expr.Made (.var v)
  | number {literal : String} {attrs : Attributes} {e : Expr} (made : makeNumber literal attrs = .ok e) :
    Expr.Made e
  | boolean (value : Bool) (attrs : Attributes) : Expr.Made (.boolean value attrs)
  | text (value : String) (attrs : Attributes) : Expr.Made (.text value attrs)
  | binary {op : BinaryOp} {left right e : Expr} {attrs : Attributes} (madeLeft : Expr.Made left)
    (madeRight : Expr.Made right) (made : makeBinary op left right attrs = .ok e) : Expr.Made e
  | unary {op : UnaryOp} {operand e : Expr} {attrs : Attributes} (madeOperand : Expr.Made operand)
    (made : makeUnary op operand attrs = .ok e) : Expr.Made e
  | list {element : Ty} {items : List Expr} {e : Expr} {attrs : Attributes}
    (madeItems : ∀ item ∈ items, Expr.Made item) (made : makeList element items attrs = .ok e) : Expr.Made e
  | length {operand e : Expr} {attrs : Attributes} (madeOperand : Expr.Made operand)
    (made : makeLength operand attrs = .ok e) : Expr.Made e
  | join {items : List Expr} (attrs : Attributes) (madeItems : ∀ item ∈ items, Expr.Made item) :
    Expr.Made (.join items attrs)

inductive Stmt.Made : Stmt → Prop
  | assign {target : Var} {value : Expr} {s : Stmt} {attrs : Attributes} (madeTarget : target.Made)
    (madeValue : value.Made) (made : makeAssign target value attrs = .ok s) : Stmt.Made s
  | choose {conditions : List Expr} {bodies : List (List Stmt)} {otherwise : Option (List Stmt)} {s : Stmt}
    {attrs : Attributes} (madeConditions : ∀ c ∈ conditions, c.Made)
    (madeBodies : ∀ body ∈ bodies, ∀ part ∈ body, Stmt.Made part)
    (madeOtherwise : ∀ body, otherwise = some body → ∀ part ∈ body, Stmt.Made part)
    (made : makeChoose conditions bodies otherwise attrs = .ok s) : Stmt.Made s
  | repeat' {times : Expr} {body : List Stmt} {s : Stmt} {attrs : Attributes} (madeTimes : times.Made)
    (madeBody : ∀ part ∈ body, Stmt.Made part) (made : makeRepeat times body attrs = .ok s) : Stmt.Made s
  | loop {mode : LoopMode} {condition : Expr} {body : List Stmt} {s : Stmt} {attrs : Attributes}
    (madeCondition : condition.Made) (madeBody : ∀ part ∈ body, Stmt.Made part)
    (made : makeLoop mode condition body attrs = .ok s) : Stmt.Made s
  | count {counter : Var} {first last step : Expr} {body : List Stmt} {s : Stmt} {attrs : Attributes}
    (madeCounter : counter.Made) (madeFirst : first.Made) (madeLast : last.Made) (madeStep : step.Made)
    (madeBody : ∀ part ∈ body, Stmt.Made part)
    (made : makeCount counter first last step body attrs = .ok s) : Stmt.Made s
  | forEach {item : Var} {list : Expr} {body : List Stmt} {s : Stmt} {attrs : Attributes}
    (madeItem : item.Made) (madeList : list.Made) (madeBody : ∀ part ∈ body, Stmt.Made part)
    (made : makeForEach item list body attrs = .ok s) : Stmt.Made s
  | flow (choice : Flow) (attrs : Attributes) : Stmt.Made (.flow choice attrs)
  | wait {time : Expr} {s : Stmt} {attrs : Attributes} (madeTime : time.Made)
    (made : makeWait time attrs = .ok s) : Stmt.Made s
  | print {text : Expr} (attrs : Attributes) (madeText : text.Made) : Stmt.Made (.print text attrs)

def Root.Made : Root → Prop
  | .statements body => ∀ s ∈ body, s.Made
  | .value e => e.Made

def Program.Made (p : Program) : Prop :=
  ∀ root ∈ p.roots, root.Made

theorem Var.Made.visible {v : Var} (h : v.Made) : (Text.strip v.name.toList).isEmpty = false := by
  obtain ⟨name, type, attrs, hmake⟩ := h
  unfold Var.make at hmake
  split at hmake
  · cases hmake
  · next hname =>
    cases hmake
    simpa using hname

namespace Stmt

section Accepted

variable {target : Var} {value first last step : Expr} {body : List Stmt} {attrs : Attributes} {s : Stmt}

theorem accepts_of_makeAssign (h : makeAssign target value attrs = .ok s) : target.type.accepts value.type = true := by
  unfold makeAssign at h
  grind

theorem accepts_of_makeRepeat (h : makeRepeat value body attrs = .ok s) : Ty.number.accepts value.type = true := by
  unfold makeRepeat at h
  grind

theorem accepts_of_makeLoop {mode : LoopMode} (h : makeLoop mode value body attrs = .ok s) :
    Ty.boolean.accepts value.type = true := by
  unfold makeLoop at h
  grind

theorem accepts_of_makeCount (h : makeCount target first last step body attrs = .ok s) :
    Ty.number.accepts target.type = true ∧ Ty.number.accepts first.type = true ∧
      Ty.number.accepts last.type = true ∧ Ty.number.accepts step.type = true := by
  unfold makeCount at h
  grind

theorem accepts_of_makeForEach (h : makeForEach target value body attrs = .ok s) :
    (Ty.list target.type).accepts value.type = true := by
  unfold makeForEach at h
  grind

theorem accepts_of_makeWait (h : makeWait value attrs = .ok s) : Ty.number.accepts value.type = true := by
  unfold makeWait at h
  grind

end Accepted

end Stmt

/-! ## Resolved nodes -/

def Var.ResolvesTo (env : TypeEnv) (v v' : Var) : Prop :=
  v.resolve env = .ok v'

theorem Var.ResolvesTo.type_eq {env : TypeEnv} {v v' : Var} (h : v.ResolvesTo env v')
    (hknown : (env.lookup v.name).Refines v.type) :
    v'.type = env.lookup v'.name ∧ v'.type.isConcrete = true := by
  obtain ⟨hu, hconcrete, -, hname, -⟩ := Var.resolve_ok_iff.mp h
  rw [Ty.unify?_eq_right hknown] at hu
  exact ⟨hname ▸ (Option.some.inj hu).symm, hconcrete⟩

theorem Var.of_resolve {env : TypeEnv} {v q : Var} (h : v.resolve env = .ok q) :
    q.Made ∧ q.type.isConcrete = true ∧ v.Below Eq q := by
  obtain ⟨hu, hconcrete, hvisible, hname, hattrs⟩ := Var.resolve_ok_iff.mp h
  refine ⟨⟨q.name, q.type, q.attrs, Block.makeVar_of_visible (hname ▸ hvisible) _ _⟩, hconcrete, hname.symm, ?_,
    hattrs.symm⟩
  exact Ty.unify?_refines_left hu

namespace Expr

/-- Every number of the expression was made. -/
def Literal (e : Expr) : Prop :=
  e.Everywhere fun part => match part with
    | .number .. => part.Made
    | _ => True

theorem Made.literal {e : Expr} (h : e.Made) : e.Literal := by
  induction h with
  | var => exact everywhere_var.mpr trivial
  | number made =>
    have hmade := Made.number made
    unfold makeNumber at made
    obtain ⟨value, -, hnumber⟩ := Except.bind_ok_iff.mp made
    cases hnumber
    exact everywhere_number.mpr hmade
  | boolean => exact everywhere_boolean.mpr trivial
  | text => exact everywhere_text.mpr trivial
  | binary _ _ made ihl ihr =>
    obtain rfl := eq_of_makeBinary made
    exact everywhere_binary.mpr ⟨trivial, ihl, ihr⟩
  | unary _ made ih =>
    obtain rfl := eq_of_makeUnary made
    exact everywhere_unary.mpr ⟨trivial, ih⟩
  | list _ made ih =>
    obtain rfl := eq_of_makeList made
    exact everywhere_list.mpr ⟨trivial, ih⟩
  | length _ made ih =>
    obtain rfl := eq_of_makeLength made
    exact everywhere_length.mpr ⟨trivial, ih⟩
  | join _ _ ih => exact everywhere_join.mpr ⟨trivial, ih⟩

structure Outcome (env : TypeEnv) (e q : Expr) : Prop where
  below : e.Below Eq q
  wellTyped : q.WellTyped
  vars : Forall₂ (Var.ResolvesTo env) e.vars q.vars
  made : e.Literal → q.Made

structure Outcomes (env : TypeEnv) (items qs : List Expr) : Prop where
  below : Forall₂ (Below Eq) items qs
  wellTyped : ∀ q ∈ qs, q.WellTyped
  vars : Forall₂ (Var.ResolvesTo env) (varsIn items) (varsIn qs)
  made : (∀ e ∈ items, e.Literal) → ∀ q ∈ qs, q.Made

variable {env : TypeEnv} {e q : Expr} {items qs : List Expr}

theorem outcomes_of_forall₂ (h : Forall₂ (Outcome env) items qs) : Outcomes env items qs := by
  refine ⟨h.imp fun _ _ h => h.below, fun q hq => ?_, ?_, fun hitems q hq => ?_⟩
  · obtain ⟨e, -, houtcome⟩ := exists_of_mem_right h hq
    exact houtcome.wellTyped
  · induction h with
    | nil => exact .nil
    | cons h _ ih => exact rel_append h.vars ih
  · obtain ⟨e, he, houtcome⟩ := exists_of_mem_right h hq
    exact houtcome.made (hitems e he)

def ResolvesWell (env : TypeEnv) (e : Expr) : Prop :=
  ∀ {expected q}, e.resolve env expected = .ok q → e.Outcome env q

theorem outcomes_of_resolveElements {t final : Ty} (h : ∀ e ∈ items, e.ResolvesWell env)
    (hqs : resolveElements env t items = .ok (final, qs)) :
    final.Refines t ∧ Forall₂ (Outcome env) items qs ∧ ∀ q ∈ qs, final.Refines q.type := by
  induction items generalizing qs t with
  | nil =>
    rw [resolveElements] at hqs
    cases hqs
    exact ⟨.refl _, .nil, List.forall_mem_nil _⟩
  | cons e rest ih =>
    obtain ⟨he, hrest⟩ := forall_mem_cons.mp h
    obtain ⟨q, u, others, hq, hu, hothers, rfl⟩ := resolveElements_cons_ok_iff.mp hqs
    obtain ⟨hfinal, houtcomes, htypes⟩ := ih hrest hothers
    refine ⟨hfinal.trans (Ty.unify?_refines_left hu), .cons (he hq) houtcomes, ?_⟩
    exact forall_mem_cons.mpr ⟨hfinal.trans (Ty.unify?_refines_right hu), htypes⟩

theorem resolvesWell_binary {op : BinaryOp} {left right : Expr} (attrs : Attributes)
    (hl : left.ResolvesWell env) (hr : right.ResolvesWell env) :
    (binary op left right attrs).ResolvesWell env := by
  intro expected q h
  obtain ⟨l, r, hl₁, hr₁, hmade⟩ := resolve_binary_ok_iff.mp h
  have hleft := hl hl₁
  have hright := hr hr₁
  obtain ⟨hasked, hsame⟩ : op.operandType.accepts l.type = true ∧ l.type.accepts r.type = true := by
    unfold makeBinary at hmade
    grind
  obtain rfl := eq_of_makeBinary hmade
  refine ⟨.binary hleft.below hright.below rfl, everywhere_binary.mpr ⟨⟨?_, ?_⟩, hleft.wellTyped, hright.wellTyped⟩,
    rel_append hleft.vars hright.vars, ?_⟩
  · exact Ty.eq_of_accepts hsame hleft.wellTyped.isConcrete hright.wellTyped.isConcrete
  · exact Ty.refines_of_accepts hasked hleft.wellTyped.isConcrete
  · intro hliteral
    obtain ⟨-, hliteral, hliteral'⟩ := everywhere_binary.mp hliteral
    exact .binary (hleft.made hliteral) (hright.made hliteral') hmade

theorem resolvesWell_unary {op : UnaryOp} {operand : Expr} (attrs : Attributes)
    (h : operand.ResolvesWell env) : (unary op operand attrs).ResolvesWell env := by
  intro expected q hq
  obtain ⟨operand', hoperand, hmade⟩ := resolve_unary_ok_iff.mp hq
  have houtcome := h hoperand
  have hconcrete : op.operandType.isConcrete = true := by cases op <;> rfl
  have hasked : op.operandType.accepts operand'.type = true := by
    unfold makeUnary at hmade
    grind
  obtain rfl := eq_of_makeUnary hmade
  refine ⟨.unary houtcome.below rfl, everywhere_unary.mpr ⟨?_, houtcome.wellTyped⟩, houtcome.vars, fun hliteral => ?_⟩
  · exact Ty.eq_of_accepts hasked hconcrete houtcome.wellTyped.isConcrete
  · exact .unary (houtcome.made (everywhere_unary.mp hliteral).2) hmade

theorem resolvesWell_list {element : Ty} (attrs : Attributes) (h : ∀ e ∈ items, e.ResolvesWell env) :
    (list element items attrs).ResolvesWell env := by
  intro expected q hq
  obtain ⟨final, qs, hqs, hconcrete, hmade⟩ := resolve_list_ok_iff.mp hq
  obtain ⟨hfinal, hitems, htypes⟩ := outcomes_of_resolveElements h hqs
  have houtcomes := outcomes_of_forall₂ hitems
  obtain rfl := eq_of_makeList hmade
  refine ⟨.list (hfinal.trans (startElement_refines element expected)) houtcomes.below rfl,
    everywhere_list.mpr ⟨⟨hconcrete, fun item hitem => ?_⟩, houtcomes.wellTyped⟩, houtcomes.vars,
    fun hliteral => .list (houtcomes.made (everywhere_list.mp hliteral).2) hmade⟩
  exact ((htypes item hitem).eq_of_isConcrete (houtcomes.wellTyped item hitem).isConcrete).symm

theorem resolvesWell_length {operand : Expr} (attrs : Attributes) (h : operand.ResolvesWell env) :
    (length operand attrs).ResolvesWell env := by
  intro expected q hq
  obtain ⟨operand', hoperand, hasked, hmade⟩ := resolve_length_ok_iff.mp hq
  have houtcome := h hoperand
  obtain ⟨element, helement, -⟩ := (Ty.refines_of_accepts hasked houtcome.wellTyped.isConcrete).exists_list
  obtain rfl := eq_of_makeLength hmade
  exact ⟨.length houtcome.below rfl, everywhere_length.mpr ⟨⟨element, helement⟩, houtcome.wellTyped⟩, houtcome.vars,
    fun hliteral => .length (houtcome.made (everywhere_length.mp hliteral).2) hmade⟩

theorem resolvesWell_join (attrs : Attributes) (h : ∀ e ∈ items, e.ResolvesWell env) :
    (join items attrs).ResolvesWell env := by
  intro expected q hq
  obtain ⟨qs, hqs, rfl⟩ := resolve_join_ok_iff.mp hq
  have houtcomes := outcomes_of_forall₂ (forall₂_of_mem hqs fun e he _ _ => h e he)
  exact ⟨.join houtcomes.below rfl, everywhere_join.mpr ⟨trivial, houtcomes.wellTyped⟩, houtcomes.vars,
    fun hliteral => .join attrs (houtcomes.made (everywhere_join.mp hliteral).2)⟩

theorem resolvesWell (env : TypeEnv) (e : Expr) : e.ResolvesWell env := by
  induction e with
  | var v =>
    intro expected q hq
    rw [resolve] at hq
    obtain ⟨w, hw, hq⟩ := Except.bind_ok_iff.mp hq
    cases hq
    obtain ⟨hmade, hconcrete, hbelow⟩ := Var.of_resolve hw
    exact ⟨.var hbelow, everywhere_var.mpr hconcrete, .cons hw .nil, fun _ => .var hmade⟩
  | number literal value attrs =>
    intro expected q hq
    cases hq
    exact ⟨.number rfl, everywhere_number.mpr trivial, .nil, fun hliteral => hliteral.here⟩
  | boolean value attrs =>
    intro expected q hq
    cases hq
    exact ⟨.boolean rfl, everywhere_boolean.mpr trivial, .nil, fun _ => .boolean value attrs⟩
  | text value attrs =>
    intro expected q hq
    cases hq
    exact ⟨.text rfl, everywhere_text.mpr trivial, .nil, fun _ => .text value attrs⟩
  | binary op left right attrs ihl ihr => exact resolvesWell_binary attrs ihl ihr
  | unary op operand attrs ih => exact resolvesWell_unary attrs ih
  | list element items attrs ih => exact resolvesWell_list attrs ih
  | length operand attrs ih => exact resolvesWell_length attrs ih
  | join items attrs ih => exact resolvesWell_join attrs ih

theorem Outcome.type_eq {t : Ty} (h : e.Outcome env q) (ht : t.isConcrete = true) (haccepts : t.accepts q.type = true) :
    q.type = t :=
  Ty.eq_of_accepts haccepts ht h.wellTyped.isConcrete

end Expr

namespace Stmt

def Literal (s : Stmt) : Prop :=
  s.Everywhere fun part => ∀ e ∈ part.exprs, e.Literal

theorem Made.literal {s : Stmt} (h : s.Made) : s.Literal := by
  induction h with
  | assign _ madeValue made =>
    obtain rfl := eq_of_makeAssign made
    exact everywhere_leaf (forall_mem_singleton.mpr madeValue.literal) rfl
  | choose madeConditions _ _ made ih ih' =>
    obtain ⟨rfl, -⟩ := exists_of_makeChoose made
    refine everywhere_choose.mpr ⟨List.forall_mem_map.mpr fun branch hb => ?_, fun branch hb => ?_, ih'⟩
    · exact (madeConditions _ (of_mem_zip hb).1).literal
    · exact ih _ (of_mem_zip hb).2
  | repeat' madeTimes _ made ih =>
    obtain rfl := eq_of_makeRepeat made
    exact everywhere_repeat.mpr ⟨forall_mem_singleton.mpr madeTimes.literal, ih⟩
  | loop madeCondition _ made ih =>
    obtain rfl := eq_of_makeLoop made
    exact everywhere_loop.mpr ⟨forall_mem_singleton.mpr madeCondition.literal, ih⟩
  | count _ madeFirst madeLast madeStep _ made ih =>
    obtain rfl := eq_of_makeCount made
    refine everywhere_count.mpr ⟨?_, ih⟩
    simp [exprs, madeFirst.literal, madeLast.literal, madeStep.literal]
  | forEach _ madeList _ made ih =>
    obtain rfl := eq_of_makeForEach made
    exact everywhere_forEach.mpr ⟨forall_mem_singleton.mpr madeList.literal, ih⟩
  | flow => exact everywhere_leaf (List.forall_mem_nil _) rfl
  | wait madeTime made =>
    obtain rfl := eq_of_makeWait made
    exact everywhere_leaf (forall_mem_singleton.mpr madeTime.literal) rfl
  | print _ madeText => exact everywhere_leaf (forall_mem_singleton.mpr madeText.literal) rfl

structure Outcome (env : TypeEnv) (s q : Stmt) : Prop where
  below : s.Below Eq q
  wellTyped : q.WellTyped
  vars : Forall₂ (Var.ResolvesTo env) s.vars q.vars
  made : s.Literal → q.Made

structure Outcomes (env : TypeEnv) (body qs : List Stmt) : Prop where
  below : Forall₂ (Below Eq) body qs
  wellTyped : ∀ q ∈ qs, q.WellTyped
  vars : Forall₂ (Var.ResolvesTo env) (varsIn body) (varsIn qs)
  made : (∀ s ∈ body, s.Literal) → ∀ q ∈ qs, q.Made

variable {env : TypeEnv} {body : List Stmt}

def ResolvesWell (env : TypeEnv) (s : Stmt) : Prop :=
  ∀ {q}, s.resolve env = .ok q → s.Outcome env q

theorem outcomes_of_allResolve {qs : List Stmt} (h : ∀ s ∈ body, s.ResolvesWell env) (hqs : AllResolve env body qs) :
    Outcomes env body qs := by
  have houtcomes : Forall₂ (Outcome env) body qs := forall₂_of_mem hqs fun s hs _ _ => h s hs
  refine ⟨houtcomes.imp fun _ _ h => h.below, fun q hq => ?_, ?_, fun hbody q hq => ?_⟩
  · obtain ⟨s, -, houtcome⟩ := exists_of_mem_right houtcomes hq
    exact houtcome.wellTyped
  · clear h hqs
    induction houtcomes with
    | nil => exact .nil
    | cons h _ ih => exact rel_append h.vars ih
  · obtain ⟨s, hs, houtcome⟩ := exists_of_mem_right houtcomes hq
    exact houtcome.made (hbody s hs)

theorem resolvesWell_assign (target : Var) (value : Expr) (attrs : Attributes) :
    (assign target value attrs).ResolvesWell env := by
  intro q hq
  obtain ⟨v, e, hv, he, hmade⟩ := resolve_assign_ok_iff.mp hq
  obtain ⟨madeTarget, hconcrete, hbelow⟩ := Var.of_resolve hv
  have houtcome := value.resolvesWell env he
  have haccepts := accepts_of_makeAssign hmade
  obtain rfl := eq_of_makeAssign hmade
  refine ⟨.assign hbelow houtcome.below rfl, everywhere_leaf ⟨forall_mem_singleton.mpr houtcome.wellTyped,
    hconcrete, houtcome.type_eq hconcrete haccepts⟩ rfl, .cons hv houtcome.vars, fun hliteral => ?_⟩
  exact .assign madeTarget (houtcome.made (forall_mem_singleton.mp hliteral.here)) hmade

theorem vars_of_branches {branches : List (Expr × List Stmt)} {conditions : List Expr} {bodies : List (List Stmt)}
    (h : Forall₂ (Expr.Outcome env) (branches.map Prod.fst) conditions)
    (h' : Forall₂ (Outcomes env) (branches.map Prod.snd) bodies) :
    Forall₂ (Var.ResolvesTo env) (varsInBranches branches) (varsInBranches (conditions.zip bodies)) := by
  induction branches generalizing conditions bodies with
  | nil =>
    cases h
    exact .nil
  | cons branch rest ih =>
    cases h with
    | cons hcondition hconditions =>
      cases h' with
      | cons hbody hbodies =>
        exact rel_append (rel_append hcondition.vars hbody.vars) (ih hconditions hbodies)

theorem resolvesWell_choose {branches : List (Expr × List Stmt)} {otherwise : Option (List Stmt)}
    (attrs : Attributes) (h : ∀ branch ∈ branches, ∀ s ∈ branch.2, s.ResolvesWell env)
    (h' : ∀ body, otherwise = some body → ∀ s ∈ body, s.ResolvesWell env) :
    (choose branches otherwise attrs).ResolvesWell env := by
  intro q hq
  obtain ⟨conditions, bodies, last, hresolved, hresolvedBodies, hsome, hlast, hmade⟩ := resolve_choose_ok_iff.mp hq
  have hconditions : Forall₂ (fun e q => e.Outcome env q ∧ q.type = .boolean) (branches.map Prod.fst) conditions := by
    refine hresolved.imp fun e q h => ?_
    obtain ⟨hq, haccepts⟩ := Expr.resolveAs_ok_iff.mp h
    have houtcome := e.resolvesWell env hq
    exact ⟨houtcome, houtcome.type_eq rfl haccepts⟩
  have hbodies : Forall₂ (Outcomes env) (branches.map Prod.snd) bodies := by
    refine forall₂_of_mem hresolvedBodies fun body hbody _ _ => outcomes_of_allResolve ?_
    obtain ⟨branch, hbranch, rfl⟩ := mem_map.mp hbody
    exact h branch hbranch
  have hlast := outcomes_of_allResolve (forall_mem_otherwise h') hlast
  obtain ⟨rfl, n, hlength, hlength'⟩ := exists_of_makeChoose hmade
  -- As many conditions as bodies were resolved, so that none is lost when they are paired again.
  have hfst : (conditions.zip bodies).map Prod.fst = conditions := List.map_fst_zip (by omega)
  have hsnd : (conditions.zip bodies).map Prod.snd = bodies := List.map_snd_zip (by omega)
  refine ⟨.choose (hfst.symm ▸ hconditions.imp fun _ _ h => h.1.below)
    (hsnd.symm ▸ hbodies.imp fun _ _ h => h.below) hsome hlast.below rfl,
    everywhere_choose.mpr ⟨⟨List.forall_mem_map.mpr fun branch hb => ?_, fun branch hb => ?_⟩, fun branch hb => ?_, ?_⟩,
    ?_, fun hliteral => ?_⟩
  · obtain ⟨e, -, h⟩ := exists_of_mem_right hconditions (of_mem_zip hb).1
    exact h.1.wellTyped
  · obtain ⟨e, -, h⟩ := exists_of_mem_right hconditions (of_mem_zip hb).1
    exact h.2
  · obtain ⟨body, -, h⟩ := exists_of_mem_right hbodies (of_mem_zip hb).2
    exact h.wellTyped
  · rintro body rfl
    exact hlast.wellTyped
  · change Forall₂ _ (varsInBranches branches ++ varsInOtherwise otherwise)
      (varsInBranches (conditions.zip bodies) ++ varsInOtherwise last)
    rw [varsInOtherwise_eq, varsInOtherwise_eq]
    exact rel_append (vars_of_branches (hconditions.imp fun _ _ h => h.1) hbodies) hlast.vars
  · obtain ⟨hhere, hbranches, hotherwise⟩ := everywhere_choose.mp hliteral
    refine .choose (fun c hc => ?_) (fun body hbody => ?_) ?_ hmade
    · obtain ⟨e, he, h⟩ := exists_of_mem_right hconditions hc
      exact h.1.made (hhere e he)
    · obtain ⟨body₀, hbody₀, h⟩ := exists_of_mem_right hbodies hbody
      obtain ⟨branch, hbranch, rfl⟩ := mem_map.mp hbody₀
      exact h.made (hbranches branch hbranch)
    · rintro body rfl
      exact hlast.made (forall_mem_otherwise hotherwise)

theorem resolvesWell_repeat (times : Expr) (attrs : Attributes) (h : ∀ s ∈ body, s.ResolvesWell env) :
    (Stmt.repeat times body attrs).ResolvesWell env := by
  intro q hq
  obtain ⟨e, qs, he, hqs, hmade⟩ := resolve_repeat_ok_iff.mp hq
  have houtcome := times.resolvesWell env he
  have houtcomes := outcomes_of_allResolve h hqs
  have haccepts := accepts_of_makeRepeat hmade
  obtain rfl := eq_of_makeRepeat hmade
  refine ⟨.repeat' houtcome.below houtcomes.below rfl, everywhere_repeat.mpr ⟨⟨forall_mem_singleton.mpr
    houtcome.wellTyped, houtcome.type_eq rfl haccepts⟩, houtcomes.wellTyped⟩,
    rel_append houtcome.vars houtcomes.vars, fun hliteral => ?_⟩
  obtain ⟨hhere, hliterals⟩ := everywhere_repeat.mp hliteral
  exact .repeat' (houtcome.made (forall_mem_singleton.mp hhere)) (houtcomes.made hliterals) hmade

theorem resolvesWell_loop (mode : LoopMode) (condition : Expr) (attrs : Attributes)
    (h : ∀ s ∈ body, s.ResolvesWell env) : (loop mode condition body attrs).ResolvesWell env := by
  intro q hq
  obtain ⟨e, qs, he, hqs, hmade⟩ := resolve_loop_ok_iff.mp hq
  have houtcome := condition.resolvesWell env he
  have houtcomes := outcomes_of_allResolve h hqs
  have haccepts := accepts_of_makeLoop hmade
  obtain rfl := eq_of_makeLoop hmade
  refine ⟨.loop houtcome.below houtcomes.below rfl, everywhere_loop.mpr ⟨⟨forall_mem_singleton.mpr
    houtcome.wellTyped, houtcome.type_eq rfl haccepts⟩, houtcomes.wellTyped⟩,
    rel_append houtcome.vars houtcomes.vars, fun hliteral => ?_⟩
  obtain ⟨hhere, hliterals⟩ := everywhere_loop.mp hliteral
  exact .loop (houtcome.made (forall_mem_singleton.mp hhere)) (houtcomes.made hliterals) hmade

theorem resolvesWell_count (counter : Var) (first last step : Expr) (attrs : Attributes)
    (h : ∀ s ∈ body, s.ResolvesWell env) : (count counter first last step body attrs).ResolvesWell env := by
  intro q hq
  obtain ⟨v, e₁, e₂, e₃, qs, hv, he₁, he₂, he₃, hqs, hmade⟩ := resolve_count_ok_iff.mp hq
  obtain ⟨madeCounter, hconcrete, hbelow⟩ := Var.of_resolve hv
  have outcome₁ := first.resolvesWell env he₁
  have outcome₂ := last.resolvesWell env he₂
  have outcome₃ := step.resolvesWell env he₃
  have houtcomes := outcomes_of_allResolve h hqs
  obtain ⟨haccepts, haccepts₁, haccepts₂, haccepts₃⟩ := accepts_of_makeCount hmade
  obtain rfl := eq_of_makeCount hmade
  refine ⟨.count hbelow outcome₁.below outcome₂.below outcome₃.below houtcomes.below rfl,
    everywhere_count.mpr ⟨⟨?_, Ty.eq_of_accepts haccepts rfl hconcrete, outcome₁.type_eq rfl haccepts₁,
      outcome₂.type_eq rfl haccepts₂, outcome₃.type_eq rfl haccepts₃⟩, houtcomes.wellTyped⟩,
    .cons hv (rel_append (rel_append (rel_append outcome₁.vars outcome₂.vars) outcome₃.vars)
      houtcomes.vars), fun hliteral => ?_⟩
  · simp [exprs, outcome₁.wellTyped, outcome₂.wellTyped, outcome₃.wellTyped]
  · obtain ⟨hhere, hliterals⟩ := everywhere_count.mp hliteral
    simp only [exprs, forall_mem_cons] at hhere
    obtain ⟨literal₁, literal₂, literal₃, -⟩ := hhere
    exact .count madeCounter (outcome₁.made literal₁) (outcome₂.made literal₂) (outcome₃.made literal₃)
      (houtcomes.made hliterals) hmade

theorem resolvesWell_forEach (item : Var) (list : Expr) (attrs : Attributes)
    (h : ∀ s ∈ body, s.ResolvesWell env) : (forEach item list body attrs).ResolvesWell env := by
  intro q hq
  obtain ⟨v, e, qs, hv, he, hqs, hmade⟩ := resolve_forEach_ok_iff.mp hq
  obtain ⟨madeItem, hconcrete, hbelow⟩ := Var.of_resolve hv
  have houtcome := list.resolvesWell env he
  have houtcomes := outcomes_of_allResolve h hqs
  have haccepts := accepts_of_makeForEach hmade
  obtain rfl := eq_of_makeForEach hmade
  refine ⟨.forEach hbelow houtcome.below houtcomes.below rfl, everywhere_forEach.mpr ⟨⟨forall_mem_singleton.mpr
    houtcome.wellTyped, hconcrete, houtcome.type_eq hconcrete haccepts⟩, houtcomes.wellTyped⟩,
    .cons hv (rel_append houtcome.vars houtcomes.vars), fun hliteral => ?_⟩
  obtain ⟨hhere, hliterals⟩ := everywhere_forEach.mp hliteral
  exact .forEach madeItem (houtcome.made (forall_mem_singleton.mp hhere)) (houtcomes.made hliterals) hmade

theorem resolvesWell_wait (time : Expr) (attrs : Attributes) : (wait time attrs).ResolvesWell env := by
  intro q hq
  obtain ⟨e, he, hmade⟩ := resolve_wait_ok_iff.mp hq
  have houtcome := time.resolvesWell env he
  have haccepts := accepts_of_makeWait hmade
  obtain rfl := eq_of_makeWait hmade
  exact ⟨.wait houtcome.below rfl, everywhere_leaf ⟨forall_mem_singleton.mpr houtcome.wellTyped,
    houtcome.type_eq rfl haccepts⟩ rfl, houtcome.vars,
    fun hliteral => .wait (houtcome.made (forall_mem_singleton.mp hliteral.here)) hmade⟩

theorem resolvesWell (env : TypeEnv) (s : Stmt) : s.ResolvesWell env := by
  induction s with
  | assign target value attrs => exact resolvesWell_assign target value attrs
  | choose branches otherwise attrs ih ih' => exact resolvesWell_choose attrs ih ih'
  | repeat' times body attrs ih => exact resolvesWell_repeat times attrs ih
  | loop mode condition body attrs ih => exact resolvesWell_loop mode condition attrs ih
  | count counter first last step body attrs ih => exact resolvesWell_count counter first last step attrs ih
  | forEach item list body attrs ih => exact resolvesWell_forEach item list attrs ih
  | flow choice attrs =>
    intro q hq
    rw [resolve] at hq
    cases hq
    exact ⟨.flow rfl, everywhere_leaf ⟨List.forall_mem_nil _, trivial⟩ rfl, .nil, fun _ => .flow choice attrs⟩
  | wait time attrs => exact resolvesWell_wait time attrs
  | print text attrs =>
    intro q hq
    obtain ⟨e, he, rfl⟩ := resolve_print_ok_iff.mp hq
    have houtcome := text.resolvesWell env he
    exact ⟨.print houtcome.below rfl,
      everywhere_leaf ⟨forall_mem_singleton.mpr houtcome.wellTyped, trivial⟩ rfl, houtcome.vars,
      fun hliteral => .print attrs (houtcome.made (forall_mem_singleton.mp hliteral.here))⟩

end Stmt

/-! ## Nodes with nothing left to resolve -/

theorem Var.Made.resolve_eq {v : Var} (h : v.Made) (hconcrete : v.type.isConcrete = true) : v.resolve {} = .ok v := by
  refine Var.resolve_ok_iff.mpr ⟨?_, hconcrete, h.visible, rfl, rfl⟩
  rw [TypeEnv.lookup_empty, Ty.unify?_captured_right]

namespace Expr

def Settled (e : Expr) : Prop :=
  e.WellTyped → ∀ expected, e.resolve {} expected = .ok e

theorem resolveElements_of_settled {element : Ty} {items : List Expr} (h : ∀ e ∈ items, e.Settled)
    (hwell : ∀ e ∈ items, e.WellTyped) (htypes : ∀ e ∈ items, e.type = element) :
    resolveElements {} element items = .ok (element, items) := by
  induction items with
  | nil => rw [resolveElements]
  | cons e rest ih =>
    obtain ⟨he, hrest⟩ := forall_mem_cons.mp h
    obtain ⟨hwellHere, hwellRest⟩ := forall_mem_cons.mp hwell
    obtain ⟨htype, htypesRest⟩ := forall_mem_cons.mp htypes
    refine resolveElements_cons_ok_iff.mpr
      ⟨e, element, rest, he hwellHere element, ?_, ih hrest hwellRest htypesRest, rfl⟩
    rw [htype, Ty.unify?_eq_left (.refl element)]

theorem Made.resolve_eq {e : Expr} (h : e.Made) : e.Settled := by
  induction h with
  | var made =>
    intro hwell expected
    rw [resolve, made.resolve_eq hwell.isConcrete]
    rfl
  | number made =>
    intro _ expected
    unfold makeNumber at made
    obtain ⟨value, -, hnumber⟩ := Except.bind_ok_iff.mp made
    cases hnumber
    rw [resolve]
  | boolean => exact fun _ _ => by rw [resolve]
  | text => exact fun _ _ => by rw [resolve]
  | binary _ _ made ihl ihr =>
    obtain rfl := eq_of_makeBinary made
    intro hwell expected
    obtain ⟨-, wellLeft, wellRight⟩ := everywhere_binary.mp hwell
    exact resolve_binary_ok_iff.mpr ⟨_, _, ihl wellLeft _, ihr wellRight _, made⟩
  | unary _ made ih =>
    obtain rfl := eq_of_makeUnary made
    intro hwell expected
    exact resolve_unary_ok_iff.mpr ⟨_, ih (everywhere_unary.mp hwell).2 _, made⟩
  | @list element items _ attrs _ made ih =>
    obtain rfl := eq_of_makeList made
    intro hwell expected
    obtain ⟨⟨hconcrete, htypes⟩, hwellItems⟩ := everywhere_list.mp hwell
    -- An element type without placeholders has nothing to learn from the place of the list.
    have hstart : startElement element expected = element :=
      (startElement_refines element expected).eq_of_isConcrete hconcrete
    refine resolve_list_ok_iff.mpr ⟨element, items, ?_, hconcrete, made⟩
    rw [hstart, resolveElements_of_settled ih hwellItems htypes]
  | length _ made ih =>
    obtain rfl := eq_of_makeLength made
    intro hwell expected
    obtain ⟨⟨element, helement⟩, hwellOperand⟩ := everywhere_length.mp hwell
    have hrefines : (Ty.list element).Refines (.list .captured) := .list (.captured element)
    exact resolve_length_ok_iff.mpr ⟨_, ih hwellOperand _, helement ▸ hrefines.accepted, made⟩
  | join attrs _ ih =>
    intro hwell expected
    refine resolve_join_ok_iff.mpr ⟨_, forall₂_same.mpr fun e he => ?_, rfl⟩
    exact ih e he ((everywhere_join.mp hwell).2 e he) _

end Expr

namespace Stmt

def Settled (s : Stmt) : Prop :=
  s.WellTyped → s.resolve {} = .ok s

theorem allResolve_of_settled {body : List Stmt} (h : ∀ s ∈ body, s.Settled) (hwell : ∀ s ∈ body, s.WellTyped) :
    AllResolve {} body body :=
  forall₂_same.mpr fun s hs => h s hs (hwell s hs)

theorem Made.resolve_eq {s : Stmt} (h : s.Made) : s.Settled := by
  induction h with
  | assign madeTarget madeValue made =>
    obtain rfl := eq_of_makeAssign made
    intro hwell
    obtain ⟨hexprs, hconcrete, -⟩ := Everywhere.here hwell
    exact resolve_assign_ok_iff.mpr ⟨_, _, madeTarget.resolve_eq hconcrete,
      madeValue.resolve_eq (forall_mem_singleton.mp hexprs) _, made⟩
  | @choose conditions bodies otherwise s attrs madeConditions _ _ made ih ih' =>
    obtain ⟨rfl, n, hconditions, hbodies⟩ := exists_of_makeChoose made
    intro hwell
    obtain ⟨⟨hexprs, htypes⟩, hwellBodies, hwellOtherwise⟩ := everywhere_choose.mp hwell
    have hfst : (conditions.zip bodies).map Prod.fst = conditions := List.map_fst_zip (by omega)
    have hsnd : (conditions.zip bodies).map Prod.snd = bodies := List.map_snd_zip (by omega)
    refine resolve_choose_ok_iff.mpr ⟨conditions, bodies, otherwise, ?_, ?_, rfl, ?_, made⟩
    · rw [hfst]
      refine forall₂_same.mpr fun c hc => ?_
      have hmade := madeConditions c hc
      rw [← hfst] at hc
      obtain ⟨branch, hbranch, rfl⟩ := mem_map.mp hc
      exact Expr.resolveAs_ok_iff.mpr ⟨hmade.resolve_eq (hexprs _ (List.mem_map_of_mem hbranch)) _,
        (Ty.Refines.of_eq (htypes branch hbranch)).accepted⟩
    · rw [hsnd]
      refine forall₂_same.mpr fun body hbody => allResolve_of_settled (ih body hbody) ?_
      rw [← hsnd] at hbody
      obtain ⟨branch, hbranch, rfl⟩ := mem_map.mp hbody
      exact hwellBodies branch hbranch
    · cases otherwise with
      | none => exact .nil
      | some body => exact allResolve_of_settled (ih' body rfl) (hwellOtherwise body rfl)
  | repeat' madeTimes _ made ih =>
    obtain rfl := eq_of_makeRepeat made
    intro hwell
    obtain ⟨⟨hexprs, -⟩, hwellBody⟩ := everywhere_repeat.mp hwell
    exact resolve_repeat_ok_iff.mpr ⟨_, _, madeTimes.resolve_eq (forall_mem_singleton.mp hexprs) _,
      allResolve_of_settled ih hwellBody, made⟩
  | loop madeCondition _ made ih =>
    obtain rfl := eq_of_makeLoop made
    intro hwell
    obtain ⟨⟨hexprs, -⟩, hwellBody⟩ := everywhere_loop.mp hwell
    exact resolve_loop_ok_iff.mpr ⟨_, _, madeCondition.resolve_eq (forall_mem_singleton.mp hexprs) _,
      allResolve_of_settled ih hwellBody, made⟩
  | count madeCounter madeFirst madeLast madeStep _ made ih =>
    obtain rfl := eq_of_makeCount made
    intro hwell
    obtain ⟨⟨hexprs, hcounter, -⟩, hwellBody⟩ := everywhere_count.mp hwell
    simp only [exprs, forall_mem_cons] at hexprs
    obtain ⟨wellFirst, wellLast, wellStep, -⟩ := hexprs
    exact resolve_count_ok_iff.mpr ⟨_, _, _, _, _, madeCounter.resolve_eq (congrArg Ty.isConcrete hcounter),
      madeFirst.resolve_eq wellFirst _, madeLast.resolve_eq wellLast _, madeStep.resolve_eq wellStep _,
      allResolve_of_settled ih hwellBody, made⟩
  | forEach madeItem madeList _ made ih =>
    obtain rfl := eq_of_makeForEach made
    intro hwell
    obtain ⟨⟨hexprs, hconcrete, -⟩, hwellBody⟩ := everywhere_forEach.mp hwell
    exact resolve_forEach_ok_iff.mpr ⟨_, _, _, madeItem.resolve_eq hconcrete,
      madeList.resolve_eq (forall_mem_singleton.mp hexprs) _, allResolve_of_settled ih hwellBody, made⟩
  | flow => exact fun _ => by rw [resolve]
  | wait madeTime made =>
    obtain rfl := eq_of_makeWait made
    intro hwell
    obtain ⟨hexprs, -⟩ := Everywhere.here hwell
    exact resolve_wait_ok_iff.mpr ⟨_, madeTime.resolve_eq (forall_mem_singleton.mp hexprs) _, made⟩
  | print attrs madeText =>
    intro hwell
    obtain ⟨hexprs, -⟩ := Everywhere.here hwell
    exact resolve_print_ok_iff.mpr ⟨_, madeText.resolve_eq (forall_mem_singleton.mp hexprs) _, rfl⟩

end Stmt

/-! ## Programs -/

def Root.Literal : Root → Prop
  | .statements body => ∀ s ∈ body, s.Literal
  | .value e => e.Literal

theorem Root.Made.literal {root : Root} (h : root.Made) : root.Literal := by
  cases root with
  | statements body => exact fun s hs => (h s hs).literal
  | value e => exact Expr.Made.literal h

structure Root.Outcome (env : TypeEnv) (root q : Root) : Prop where
  below : root.Below Eq q
  wellTyped : q.WellTyped
  vars : Forall₂ (Var.ResolvesTo env) root.vars q.vars
  made : root.Literal → q.Made

theorem Root.outcome_of_resolve {env : TypeEnv} {root q : Root} (h : root.resolve env = .ok q) :
    root.Outcome env q := by
  cases root with
  | statements body =>
    obtain ⟨qs, hqs, h⟩ := Except.bind_ok_iff.mp h
    cases h
    have houtcomes := Stmt.outcomes_of_allResolve (fun s _ => s.resolvesWell env) (Stmt.resolveAll_ok_iff.mp hqs)
    exact ⟨houtcomes.below, houtcomes.wellTyped, houtcomes.vars, houtcomes.made⟩
  | value e =>
    obtain ⟨e', he', h⟩ := Except.bind_ok_iff.mp h
    cases h
    have houtcome := e.resolvesWell env he'
    exact ⟨houtcome.below, houtcome.wellTyped, houtcome.vars, houtcome.made⟩

theorem Root.Made.resolve_eq {root : Root} (h : root.Made) (hwell : root.WellTyped) : root.resolve {} = .ok root := by
  cases root with
  | statements body =>
    unfold Root.resolve
    dsimp only
    rw [Stmt.resolveAll_ok_iff.mpr (Stmt.allResolve_of_settled (fun s hs => (h s hs).resolve_eq) hwell)]
    rfl
  | value e =>
    unfold Root.resolve
    dsimp only
    rw [Expr.Made.resolve_eq h hwell]
    rfl

namespace Program

theorem resolve_eq_ok_iff {env : TypeEnv} {p q : Program} :
    p.resolve env = .ok q ↔
      ∃ env', env.settle = .ok env' ∧
        Forall₂ (fun root root' => root.resolve env' = .ok root') p.roots q.roots := by
  unfold resolve
  rw [Except.bind_ok_iff]
  constructor
  · rintro ⟨env', henv', h⟩
    obtain ⟨roots, hroots, h⟩ := Except.bind_ok_iff.mp h
    cases h
    exact ⟨env', henv', Except.mapM_ok_iff.mp hroots⟩
  · rintro ⟨env', henv', hroots⟩
    refine ⟨env', henv', ?_⟩
    rw [Except.mapM_ok_iff.mpr hroots]
    rfl

theorem Made.of_resolve {env : TypeEnv} {p q : Program} (h : p.Made) (hq : p.resolve env = .ok q) :
    q.Made ∧ ∀ root ∈ q.roots, root.WellTyped := by
  obtain ⟨env', -, hroots⟩ := resolve_eq_ok_iff.mp hq
  have hboth : ∀ root ∈ q.roots, root.Made ∧ root.WellTyped := by
    intro root' hroot'
    obtain ⟨root, hroot, hresolve⟩ := exists_of_mem_right hroots hroot'
    have houtcome := Root.outcome_of_resolve hresolve
    exact ⟨houtcome.made (h root hroot).literal, houtcome.wellTyped⟩
  exact ⟨fun root hroot => (hboth root hroot).1, fun root hroot => (hboth root hroot).2⟩

theorem Made.resolve_eq {p : Program} (h : p.Made) (hwell : ∀ root ∈ p.roots, root.WellTyped) :
    p.resolve {} = .ok p := by
  apply resolve_eq_ok_iff.mpr
  refine ⟨{}, rfl, ?_⟩
  apply forall₂_same.mpr
  exact fun root hroot => (h root hroot).resolve_eq (hwell root hroot)

end Program

end Blockwork
