import Blockwork.Proofs.Approximation

/-! # Typings

A typing of a node gives each variable the type of an assignment, so that the parts of the node fit together.
Placeholders are allowed in it. The solutions of an environment are the assignments that know all that it knows and
satisfy its links. A reading that infers keeps a given solution, and its environment has no solution that
it did not have before.
-/

namespace Blockwork

set_option autoImplicit false

variable {e : Expr}

/-! ## Nodes whose parts fit together -/

/-- Variables have the types of the assignment, and the parts of the expression fit together. -/
inductive Expr.Agrees (τ : String → Ty) : Expr → Prop where
  | var {v : Var} (known : v.type = τ v.name) : Agrees τ (.var v)
  | number {literal : String} {value : Binary64} {a : Attributes} : Agrees τ (.number literal value a)
  | boolean {value : Bool} {a : Attributes} : Agrees τ (.boolean value a)
  | text {value : String} {a : Attributes} : Agrees τ (.text value a)
  | binary {op : BinaryOp} {l r : Expr} {a : Attributes} (left : Agrees τ l) (right : Agrees τ r)
      (same : r.type = l.type) (asked : l.type.Refines op.operandType) : Agrees τ (.binary op l r a)
  | unary {op : UnaryOp} {e : Expr} {a : Attributes} (operand : Agrees τ e) (asked : e.type = op.operandType) :
      Agrees τ (.unary op e a)
  | list {t : Ty} {items : List Expr} {a : Attributes} (agree : ∀ e ∈ items, Agrees τ e)
      (same : ∀ e ∈ items, e.type = t) : Agrees τ (.list t items a)
  | length {e : Expr} {t : Ty} {a : Attributes} (operand : Agrees τ e) (asked : e.type = .list t) :
      Agrees τ (.length e a)
  | join {items : List Expr} {a : Attributes} (agree : ∀ e ∈ items, Agrees τ e) : Agrees τ (.join items a)

inductive Stmt.Agrees (τ : String → Ty) : Stmt → Prop where
  | assign {v : Var} {e : Expr} {a : Attributes} (known : v.type = τ v.name) (value : e.Agrees τ)
      (same : e.type = v.type) : Agrees τ (.assign v e a)
  | choose {branches : List (Expr × List Stmt)} {last : Option (List Stmt)} {a : Attributes}
      (conditions : ∀ e ∈ branches.map Prod.fst, e.type = .boolean ∧ e.Agrees τ)
      (bodies : ∀ body ∈ branches.map Prod.snd, ∀ s ∈ body, Agrees τ s)
      (otherwise : ∀ s ∈ last.getD [], Agrees τ s) : Agrees τ (.choose branches last a)
  | repeat' {e : Expr} {body : List Stmt} {a : Attributes} (times : e.Agrees τ) (asked : e.type = .number)
      (agree : ∀ s ∈ body, Agrees τ s) : Agrees τ (.repeat e body a)
  | loop {mode : LoopMode} {e : Expr} {body : List Stmt} {a : Attributes} (condition : e.Agrees τ)
      (asked : e.type = .boolean) (agree : ∀ s ∈ body, Agrees τ s) : Agrees τ (.loop mode e body a)
  | count {v : Var} {e₁ e₂ e₃ : Expr} {body : List Stmt} {a : Attributes} (counter : v.type = .number)
      (known : v.type = τ v.name) (first : e₁.Agrees τ) (askedFirst : e₁.type = .number) (last : e₂.Agrees τ)
      (askedLast : e₂.type = .number) (step : e₃.Agrees τ) (askedStep : e₃.type = .number)
      (agree : ∀ s ∈ body, Agrees τ s) : Agrees τ (.count v e₁ e₂ e₃ body a)
  | forEach {v : Var} {e : Expr} {body : List Stmt} {a : Attributes} (known : v.type = τ v.name)
      (list : e.Agrees τ) (asked : e.type = .list v.type) (agree : ∀ s ∈ body, Agrees τ s) :
      Agrees τ (.forEach v e body a)
  | flow {choice : Flow} {a : Attributes} : Agrees τ (.flow choice a)
  | wait {e : Expr} {a : Attributes} (time : e.Agrees τ) (asked : e.type = .number) : Agrees τ (.wait e a)
  | print {e : Expr} {a : Attributes} (text : e.Agrees τ) : Agrees τ (.print e a)

def Root.Agrees (τ : String → Ty) : Root → Prop
  | .statements body => ∀ s ∈ body, s.Agrees τ
  | .value e => e.Agrees τ

section TypedBy

variable {σ : String → Ty}

theorem Expr.TypedBy.agrees (h : e.TypedBy σ) : e.Agrees σ := by
  induction e with
  | var v => exact .var (typedBy_var.mp h).2
  | number => exact .number
  | boolean => exact .boolean
  | text => exact .text
  | binary op l r a ihl ihr =>
    obtain ⟨hsame, hasked, hl, hr⟩ := typedBy_binary.mp h
    exact .binary (ihl hl) (ihr hr) hsame hasked
  | unary op e a ih =>
    obtain ⟨hasked, he⟩ := typedBy_unary.mp h
    exact .unary (ih he) hasked
  | list t items a ih =>
    obtain ⟨-, hitems⟩ := typedBy_list.mp h
    exact .list (fun e he => ih e he (hitems e he).2) fun e he => (hitems e he).1
  | length e a ih =>
    obtain ⟨⟨t, hasked⟩, he⟩ := typedBy_length.mp h
    exact .length (ih he) hasked
  | join items a ih => exact .join fun e he => ih e he (typedBy_join.mp h e he)

theorem Stmt.TypedBy.agrees {s : Stmt} (h : s.TypedBy σ) : s.Agrees σ := by
  induction s with
  | assign v e a =>
    obtain ⟨-, hsame, hknown, he⟩ := typedBy_assign.mp h
    exact .assign hknown he.agrees hsame
  | choose branches otherwise a ih ih' =>
    obtain ⟨hconditions, hbodies, hlast⟩ := typedBy_choose.mp h
    apply Agrees.choose
    · intro e he
      exact ⟨(hconditions e he).1, (hconditions e he).2.agrees⟩
    · intro body hbody s hs
      obtain ⟨branch, hbranch, rfl⟩ := List.mem_map.mp hbody
      exact ih branch hbranch s hs (hbodies _ hbody s hs)
    · exact fun s hs => forall_mem_otherwise ih' s hs (hlast s hs)
  | repeat' e body a ih =>
    obtain ⟨hasked, he, hbody⟩ := typedBy_repeat.mp h
    exact .repeat' he.agrees hasked fun s hs => ih s hs (hbody s hs)
  | loop mode e body a ih =>
    obtain ⟨hasked, he, hbody⟩ := typedBy_loop.mp h
    exact .loop he.agrees hasked fun s hs => ih s hs (hbody s hs)
  | count v e₁ e₂ e₃ body a ih =>
    obtain ⟨⟨hnumber, hknown⟩, ⟨⟨h₁, he₁⟩, ⟨h₂, he₂⟩, h₃, he₃⟩, hbody⟩ := typedBy_count.mp h
    exact .count hnumber hknown he₁.agrees h₁ he₂.agrees h₂ he₃.agrees h₃ fun s hs => ih s hs (hbody s hs)
  | forEach v e body a ih =>
    obtain ⟨hasked, hknown, he, hbody⟩ := typedBy_forEach.mp h
    exact .forEach hknown he.agrees hasked fun s hs => ih s hs (hbody s hs)
  | flow => exact .flow
  | wait e a =>
    obtain ⟨hasked, he⟩ := typedBy_wait.mp h
    exact .wait he.agrees hasked
  | print e a => exact .print (typedBy_print.mp h).agrees

theorem Root.TypedBy.agrees {root : Root} (h : root.TypedBy σ) : root.Agrees σ := by
  cases root with
  | statements body => exact fun s hs => (h s hs).agrees
  | value e => exact Expr.TypedBy.agrees h

end TypedBy

/-! ## Solutions -/

namespace TypeEnv

/-- The assignment knows all that the environment knows, and satisfies its links. -/
structure Solution (env : TypeEnv) (τ : String → Ty) : Prop where
  within : env.Within τ
  solved : env.SolvedBy τ

variable {env : TypeEnv} {τ : String → Ty} {name : String} {t : Ty}

theorem solution_empty (τ : String → Ty) : ({} : TypeEnv).Solution τ :=
  ⟨fun _ => .captured _, solvedBy_empty τ⟩

theorem solution_assign (h : t.Refines (env.lookup name)) :
    (env.assign name t).Solution τ ↔ env.Solution τ ∧ (τ name).Refines t := by
  constructor
  · intro hτ
    have hname := hτ.within name
    rw [lookup_assign, if_pos rfl] at hname
    exact ⟨⟨(within_assign h).trans hτ.within, solvedBy_assign.mp hτ.solved⟩, hname⟩
  · rintro ⟨hτ, hname⟩
    exact ⟨hτ.within.assign hname, solvedBy_assign.mpr hτ.solved⟩

theorem solution_equate {target source id : String} :
    (env.equate target source id).Solution τ ↔ env.Solution τ ∧ τ target = τ source := by
  have hlookup : (env.equate target source id).Within τ ↔ env.Within τ := by simp [Within]
  constructor
  · intro h
    obtain ⟨hsolved, heq⟩ := solvedBy_equate.mp h.solved
    exact ⟨⟨hlookup.mp h.within, hsolved⟩, heq⟩
  · rintro ⟨h, heq⟩
    exact ⟨hlookup.mpr h.within, solvedBy_equate.mpr ⟨h.solved, heq⟩⟩

theorem solution_elementOf {item list id : String} :
    (env.elementOf item list id).Solution τ ↔ env.Solution τ ∧ τ list = .list (τ item) := by
  constructor
  · intro h
    obtain ⟨hsolved, heq⟩ := solvedBy_elementOf.mp h.solved
    exact ⟨⟨h.within, hsolved⟩, heq⟩
  · rintro ⟨h, heq⟩
    exact ⟨h.within, solvedBy_elementOf.mpr ⟨h.solved, heq⟩⟩

def KeptIn (env env' : TypeEnv) : Prop :=
  ∀ σ, env'.Solution σ → env.Solution σ

theorem KeptIn.refl (env : TypeEnv) : env.KeptIn env :=
  fun _ h => h

theorem KeptIn.trans {env₁ env₂ : TypeEnv} (h : env.KeptIn env₁) (h' : env₁.KeptIn env₂) : env.KeptIn env₂ :=
  fun σ hσ => h σ (h' σ hσ)

end TypeEnv

/-! ## Readings that infer -/

namespace Reading

variable {α β : Type} {τ : String → Ty} {env : TypeEnv}
variable {Q : α → TypeEnv → Prop}

def Infers (τ : String → Ty) (env : TypeEnv) (r : Reading α) (Q : α → TypeEnv → Prop) : Prop :=
  ∃ a env', r.Yields env a env' ∧ env'.Solution τ ∧ env.KeptIn env' ∧ Q a env'

theorem infers_pure {a : α} (h : env.Solution τ) (hQ : Q a env) : Infers τ env (pure a) Q :=
  ⟨a, env, yields_pure_iff.mpr ⟨rfl, rfl⟩, h, .refl env, hQ⟩

theorem infers_node {x : Except Defect α} {a : α} (h : env.Solution τ) (hx : x = .ok a) (hQ : Q a env) :
    Infers τ env (node x) Q :=
  ⟨a, env, yields_node_iff.mpr ⟨hx, rfl⟩, h, .refl env, hQ⟩

theorem Infers.imp {r : Reading α} {R : α → TypeEnv → Prop} (h : Infers τ env r Q)
    (hR : ∀ a env', env.KeptIn env' → Q a env' → R a env') : Infers τ env r R := by
  obtain ⟨a, env', hyields, hsolution, hkept, hQ⟩ := h
  exact ⟨a, env', hyields, hsolution, hkept, hR a env' hkept hQ⟩

theorem Infers.bind {r : Reading α} {f : α → Reading β} {R : β → TypeEnv → Prop} (h : Infers τ env r Q)
    (hf : ∀ a env', env'.Solution τ → env.KeptIn env' → Q a env' → Infers τ env' (f a) R) :
    Infers τ env (r >>= f) R := by
  obtain ⟨a, env₁, hfirst, hsolution₁, hkept₁, hQ⟩ := h
  obtain ⟨b, env₂, hsecond, hsolution₂, hkept₂, hR⟩ := hf a env₁ hsolution₁ hkept₁ hQ
  exact ⟨b, env₂, yields_bind_iff.mpr ⟨a, env₁, hfirst, hsecond⟩, hsolution₂, hkept₁.trans hkept₂, hR⟩

theorem infers_lookup (h : env.Solution τ) (name : String) :
    Infers τ env (lookup name) fun t env' => t = env'.lookup name ∧ env' = env :=
  ⟨env.lookup name, env, yields_lookup_iff.mpr ⟨rfl, rfl⟩, h, .refl env, rfl, rfl⟩

variable {id : String}

theorem infers_unify {expected found t : Ty} (h : env.Solution τ) (hexpected : t.Refines expected)
    (hfound : t.Refines found) : Infers τ env (unify expected found id) fun u env' =>
      Ty.unify? expected found = some u ∧ t.Refines u ∧ env' = env := by
  obtain ⟨u, hu, ht⟩ := hexpected.unify? hfound
  exact ⟨u, env, yields_unify_iff.mpr ⟨hu, rfl⟩, h, .refl env, hu, ht, rfl⟩

/-- What is known when a name was bound to `t`, with the outcome `u`. -/
structure Binds (env : TypeEnv) (name : String) (t u : Ty) (env' : TypeEnv) : Prop where
  unified : Ty.unify? (env.lookup name) t = some u
  known : ∀ σ, env'.Solution σ → (σ name).Refines u
  lookup : env'.lookup name = u
  frame : ∀ other, name ≠ other → env'.lookup other = env.lookup other

theorem Binds.of_unify? {name : String} {t u : Ty} (h : Ty.unify? (env.lookup name) t = some u) :
    Binds env name t u (env.assign name u) := by
  refine ⟨h, fun σ hσ => ((TypeEnv.solution_assign (Ty.unify?_refines_left h)).mp hσ).2, ?_, fun other hne => ?_⟩
  · rw [TypeEnv.lookup_assign, if_pos rfl]
  · rw [TypeEnv.lookup_assign, if_neg hne]

theorem Binds.found {env' : TypeEnv} {name : String} {t u : Ty} (h : Binds env name t u env') :
    (env'.lookup name).Refines t := by
  rw [h.lookup]
  exact Ty.unify?_refines_right h.unified

theorem infers_bindType {name : String} {t : Ty} (h : env.Solution τ) (ht : (τ name).Refines t) :
    Infers τ env (Reading.bind name t id) (Binds env name t) := by
  obtain ⟨u, hu, hτu⟩ := (h.within name).unify? ht
  have hold := Ty.unify?_refines_left hu
  exact ⟨u, env.assign name u, yields_bindType_iff.mpr ⟨hu, rfl⟩, (TypeEnv.solution_assign hold).mpr ⟨h, hτu⟩,
    fun σ hσ => ((TypeEnv.solution_assign hold).mp hσ).1, .of_unify? hu⟩

theorem infers_bindDeclared {name : String} {declared : Option Ty} (h : env.Solution τ)
    (ht : ∀ t, declared = some t → (τ name).Refines t) : Infers τ env (bindDeclared name declared id) fun _ env' =>
      (∀ t, declared = some t → (env'.lookup name).Refines t) ∧
        ∀ other, name ≠ other → env'.lookup other = env.lookup other := by
  unfold bindDeclared
  cases declared with
  | none => exact infers_pure h ⟨fun t ht => absurd ht (by simp), fun _ _ => rfl⟩
  | some t =>
    refine (infers_bindType h (ht t rfl)).bind fun u env₁ h₁ _ hbinds => infers_pure h₁ ⟨?_, hbinds.frame⟩
    rintro _ ⟨⟩
    exact hbinds.found

end Reading

/-! ## Asking for types -/

def Expr.Determined (e : Expr) : Prop :=
  (∃ v, e = .var v) ∨ e.type.isConcrete = true

theorem Expr.Determined.exists_var {t : Ty} (h : e.Determined) (ht : t.Refines e.type) (hopen : t.isConcrete = false) :
    ∃ v, e = .var v := by
  rcases h with h | h
  · exact h
  · rw [ht.isConcrete h] at hopen
    cases hopen

theorem Expr.Agrees.type_eq_of_var {R : Attributes → Attributes → Prop} {τ : String → Ty} {v : Var} {q : Expr}
    (hq : q.Agrees τ) (h : (Expr.var v).Below R q) : q.type = τ v.name := by
  cases h with | var hv => ?_
  cases hq with
  | var hknown =>
    rw [hv.name]
    exact hknown

namespace Reading

variable {τ : String → Ty} {env : TypeEnv} {R : Attributes → Attributes → Prop}

variable {t expected : Ty} {id : String}

theorem infers_learn {v : Var} (h : env.Solution τ) (ht : (τ v.name).Refines t) :
    Infers τ env (learn v t) fun _ env' =>
      (∀ σ, env'.Solution σ → (σ v.name).Refines v.type → (σ v.name).Refines t) ∧
        ∀ other, v.name ≠ other → env'.lookup other = env.lookup other := by
  unfold learn
  by_cases hsame : t = v.type
  · rw [if_pos hsame]
    refine infers_pure h ⟨fun σ _ hσ => ?_, fun _ _ => rfl⟩
    rw [hsame]
    exact hσ
  · rw [if_neg hsame]
    refine (infers_bindType h ht).bind fun u env₁ h₁ _ hbinds => infers_pure h₁ ⟨fun σ hσ _ => ?_, hbinds.frame⟩
    exact (hbinds.known σ hσ).trans (Ty.unify?_refines_right hbinds.unified)

theorem infers_constrainAll {items qs : List Expr} (h : env.Solution τ) (hbelow : List.Forall₂ (Expr.Below R) items qs)
    (hstep : ∀ q ∈ qs, ∀ e env, e.Below R q → env.Solution τ →
      Infers τ env (constrain e expected) fun _ _ => True) :
    Infers τ env (constrainAll items expected) fun _ _ => True := by
  induction hbelow generalizing env with
  | nil =>
    rw [constrainAll]
    exact infers_pure h trivial
  | cons hhead _ ih =>
    obtain ⟨hfirst, hlater⟩ := List.forall_mem_cons.mp hstep
    rw [constrainAll]
    exact (hfirst _ env hhead h).bind fun _ env₁ h₁ _ _ => ih h₁ hlater

/-- What asking for a type tells: it tells nothing about variables other than the one that is asked, and in every
solution a typing of the value has the type. -/
structure Tells (R : Attributes → Attributes → Prop) (env : TypeEnv) (e : Expr) (expected : Ty)
    (env' : TypeEnv) : Prop where
  frame : ∀ v, e = .var v → ∀ other, v.name ≠ other → env'.lookup other = env.lookup other
  asked : e.Determined → ∀ σ q, env'.Solution σ → e.Below R q → q.Agrees σ → q.type.Refines expected

theorem Tells.of_unify? {env' : TypeEnv} (hvar : ∀ v, e ≠ .var v) (h : Ty.unify? expected e.type = some t) :
    Tells R env e expected env' := by
  refine ⟨fun v hv => absurd hv (hvar v), ?_⟩
  rintro (⟨v, hv⟩ | hconcrete) σ q - hbelow -
  · exact absurd hv (hvar v)
  · have ht : t = e.type := (Ty.unify?_refines_right h).eq_of_isConcrete hconcrete
    rw [hbelow.type.eq_of_isConcrete hconcrete, ← ht]
    exact Ty.unify?_refines_left h

theorem infers_constrain {q : Expr} (h : env.Solution τ) (hbelow : e.Below R q) (hq : q.Agrees τ)
    (hbound : q.type.Refines expected) : Infers τ env (constrain e expected) fun _ => Tells R env e expected := by
  induction hq generalizing e env expected with
  | @var w hknown =>
    cases hbelow with | @var v _ hv => ?_
    rw [constrain_var]
    refine (infers_unify h hbound hv.type).bind fun t env₁ h₁ _ hunified => ?_
    obtain ⟨ht, hwt, rfl⟩ := hunified
    have hτ : (τ v.name).Refines t := by
      rw [hv.name, ← hknown]
      exact hwt
    refine (infers_learn h₁ hτ).imp fun _ env₂ _ hlearned => ⟨?_, ?_⟩
    · rintro _ ⟨⟩
      exact hlearned.2
    · intro _ σ q hσ hbelow hq
      have htype : q.type = σ v.name := hq.type_eq_of_var hbelow
      rw [htype]
      refine (hlearned.1 σ hσ ?_).trans (Ty.unify?_refines_left ht)
      rw [← htype]
      exact hbelow.type
  | @list element items _ _ hsame ih =>
    cases hbelow with | @list t _ _ _ _ _ helement hitems => ?_
    rw [constrain_list]
    refine (infers_unify h hbound (.list helement)).bind fun u env₁ h₁ _ hunified => ?_
    obtain ⟨hu, hboundu, rfl⟩ := hunified
    refine (infers_constrainAll h₁ hitems fun q hmem e env hbelow h => ?_).imp fun _ _ _ _ =>
      Tells.of_unify? (fun v hv => nomatch hv) hu
    have htype : q.type.Refines u.elementOrCaptured := by
      rw [hsame q hmem]
      exact hboundu.elementOrCaptured
    exact (ih q hmem h hbelow htype).imp fun _ _ _ _ => trivial
  | _ =>
    cases hbelow
    rw [constrain_of_closed rfl]
    refine (infers_unify h hbound (.refl _)).bind fun u env₁ h₁ _ hunified => infers_pure h₁ ?_
    exact Tells.of_unify? (fun v hv => Expr.noConfusion hv) hunified.1

/-! ## Links -/

theorem infers_link {f : TypeEnv → TypeEnv} {holds : (String → Ty) → Prop} (h : env.Solution τ) (hτ : holds τ)
    (hlink : ∀ σ, (f env).Solution σ ↔ env.Solution σ ∧ holds σ) :
    Infers τ env (if t.isConcrete then pure () else modify f : Reading PUnit) fun _ env' =>
      t.isConcrete = false → ∀ σ, env'.Solution σ → holds σ := by
  split
  · next hconcrete => exact infers_pure h fun hopen => absurd (hconcrete.symm.trans hopen) (by decide)
  · exact ⟨⟨⟩, f env, yields_modify_iff.mpr rfl, (hlink τ).mpr ⟨h, hτ⟩, fun σ hσ => ((hlink σ).mp hσ).1,
      fun _ σ hσ => ((hlink σ).mp hσ).2⟩

theorem infers_linkTo {name : String} {value : Expr} (h : env.Solution τ)
    (hτ : ∀ v, value = .var v → τ name = τ v.name) : Infers τ env (linkTo name value t id) fun _ env' =>
      ∀ v, value = .var v → t.isConcrete = false → ∀ σ, env'.Solution σ → σ name = σ v.name := by
  unfold linkTo
  split
  · next v =>
    refine (infers_link h (hτ v rfl) fun _ => TypeEnv.solution_equate).imp fun _ env' _ hlinked => ?_
    rintro _ ⟨⟩
    exact hlinked
  · next hvar => exact infers_pure h fun v hv => absurd hv (hvar v)

theorem infers_linkBoth {left right : Expr} (h : env.Solution τ)
    (hτ : ∀ v w, left = .var v → right = .var w → τ v.name = τ w.name) :
    Infers τ env (linkBoth left right t id) fun _ env' =>
      ∀ v w, left = .var v → right = .var w → t.isConcrete = false → ∀ σ, env'.Solution σ → σ v.name = σ w.name := by
  unfold linkBoth
  split
  · next v =>
    refine (infers_linkTo h fun w hw => hτ v w rfl hw).imp fun _ env' _ hlinked => ?_
    rintro _ w ⟨⟩ hw
    exact hlinked w hw
  · next hvar => exact infers_pure h fun v _ hv => absurd hv (hvar v)

theorem infers_linkElements {name : String} {list : Expr} (h : env.Solution τ)
    (hτ : ∀ v, list = .var v → τ v.name = .list (τ name)) : Infers τ env (linkElements name list t id) fun _ env' =>
      ∀ v, list = .var v → t.isConcrete = false → ∀ σ, env'.Solution σ → σ v.name = .list (σ name) := by
  unfold linkElements
  split
  · next v =>
    refine (infers_link h (hτ v rfl) fun _ => TypeEnv.solution_elementOf).imp fun _ env' _ hlinked => ?_
    rintro _ ⟨⟩
    exact hlinked
  · next hvar => exact infers_pure h fun v hv => absurd hv (hvar v)

theorem infers_share {left right l r : Expr} (op : BinaryOp) (h : env.Solution τ)
    (hleft : left.Below R l) (hl : l.Agrees τ) (hright : right.Below R r) (hr : r.Agrees τ) (hsame : r.type = l.type) :
    Infers τ env (share op left right id) fun _ env' =>
      op.isEquality = true → left.Determined → right.Determined → ∀ σ l' r', env'.Solution σ →
        left.Below R l' → l'.Agrees σ → right.Below R r' → r'.Agrees σ → r'.type = l'.type := by
  unfold share
  by_cases hop : op.isEquality = true
  · rw [if_pos hop]
    refine (infers_unify h hleft.type (hsame ▸ hright.type)).bind fun t env₁ h₁ _ hunified => ?_
    obtain ⟨ht, hbound, rfl⟩ := hunified
    refine (infers_constrain h₁ hleft hl hbound).bind fun _ env₂ h₂ _ htells => ?_
    refine (infers_constrain h₂ hright hr (hsame ▸ hbound)).bind fun _ env₃ h₃ hkept₃ htells' => ?_
    refine (infers_linkBoth h₃ fun v w hv hw => ?_).imp fun _ env₄ hkept₄ hlinked => ?_
    · subst hv hw
      rw [← hl.type_eq_of_var hleft, ← hr.type_eq_of_var hright, hsame]
    · intro _ hdetermined hdetermined' σ l' r' hσ hleft' hl' hright' hr'
      have hσ₃ := hkept₄ σ hσ
      have hltype := htells.asked hdetermined σ l' (hkept₃ σ hσ₃) hleft' hl'
      have hrtype := htells'.asked hdetermined' σ r' hσ₃ hright' hr'
      cases hconcrete : t.isConcrete with
      | true => rw [hltype.eq_of_isConcrete hconcrete, hrtype.eq_of_isConcrete hconcrete]
      | false =>
        -- Both operands are variables, and they are linked.
        obtain ⟨v, rfl⟩ := hdetermined.exists_var (Ty.unify?_refines_left ht) hconcrete
        obtain ⟨w, rfl⟩ := hdetermined'.exists_var (Ty.unify?_refines_right ht) hconcrete
        rw [hl'.type_eq_of_var hleft', hr'.type_eq_of_var hright', hlinked v w rfl rfl hconcrete σ hσ]
  · rw [if_neg hop]
    exact infers_pure h fun hequality => absurd hequality hop

end Reading

end Blockwork
