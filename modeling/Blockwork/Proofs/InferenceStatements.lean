import Blockwork.Proofs.Inference

/-! # Reading statements infers typings

Statements are read in the way of `Expr.Agrees.inferred`, and so are whole workspaces.
-/

namespace Blockwork

set_option autoImplicit false

open Reading (Infers infers_pure infers_node)
open List (Forall₂ forall_mem_cons)
open Block (read_of_tag infers_valueIn)

namespace Stmt

abbrev ListsKnown (s : Stmt) : Prop :=
  s.Everywhere fun part => ∀ e ∈ part.exprs, e.ListsKnown

structure Found (b : Block) (q s : Stmt) (env' : TypeEnv) : Prop where
  below : s.Below Eq q
  known : b.ListsTyped → s.ListsKnown
  typings : b.ListsTyped → ∀ σ, env'.Solution σ → ∃ q', q'.ComesFrom b ∧ q'.Agrees σ ∧ s.Below Eq q'

structure FoundAll (chain : List Block) (qs ss : List Stmt) (env' : TypeEnv) : Prop where
  below : Forall₂ (Below Eq) ss qs
  known : (∀ c ∈ chain, c.ListsTyped) → ∀ s ∈ ss, s.ListsKnown
  typings : (∀ c ∈ chain, c.ListsTyped) → ∀ σ, env'.Solution σ →
    ∃ qs', Forall₂ ComesFrom qs' chain ∧ (∀ q ∈ qs', q.Agrees σ) ∧ Forall₂ (Below Eq) ss qs'

def Inferred (τ : String → Ty) (q : Stmt) : Prop :=
  ∀ (b : Block) (env : TypeEnv), q.ComesFrom b → env.Solution τ →
    Infers τ env b.read fun p env' => ∃ s, p = .statement s ∧ q.Found b s env'

variable {τ : String → Ty} {env : TypeEnv} {b : Block} {q : Stmt}

theorem infers_statement {r : Reading Stmt} (h : Infers τ env r (q.Found b)) :
    Infers τ env (Block.statement r) fun p env' => ∃ s, p = .statement s ∧ q.Found b s env' := by
  unfold Block.statement
  exact h.bind fun s env₁ h₁ _ hfound => infers_pure h₁ ⟨s, rfl, hfound⟩

theorem infers_readStmts {chain : List Block} {qs : List Stmt} (hfrom : Forall₂ ComesFrom qs chain)
    (hqs : ∀ q ∈ qs, q.Inferred τ) (h : env.Solution τ) :
    Infers τ env (chain.mapM Block.readStmt) (FoundAll chain qs) := by
  induction hfrom generalizing env with
  | nil => exact infers_pure h ⟨.nil, by simp, fun _ σ _ => ⟨[], .nil, by simp, .nil⟩⟩
  | @cons q c _ _ hfrom hfroms ih =>
    obtain ⟨hq, hrest⟩ := forall_mem_cons.mp hqs
    have hread : Infers τ env c.readStmt (q.Found c) := by
      unfold Block.readStmt Block.asStmt
      refine (hq c env hfrom h).bind fun p env₁ h₁ _ hpost => ?_
      obtain ⟨s, rfl, hfound⟩ := hpost
      exact infers_pure h₁ hfound
    rw [List.mapM_cons]
    refine hread.bind fun s env₁ h₁ _ hfound => ?_
    refine (ih hrest h₁).bind fun ss env₂ h₂ hkept₂ hlater => ?_
    refine infers_pure h₂ ⟨.cons hfound.below hlater.below, fun hlists => ?_, fun hlists σ hσ => ?_⟩
    · obtain ⟨hlist, hlists⟩ := forall_mem_cons.mp hlists
      exact forall_mem_cons.mpr ⟨hfound.known hlist, hlater.known hlists⟩
    · obtain ⟨hlist, hlists⟩ := forall_mem_cons.mp hlists
      obtain ⟨q', hfrom', hq', hbelow'⟩ := hfound.typings hlist σ (hkept₂ σ hσ)
      obtain ⟨qs', hfroms', hqs', hbelows'⟩ := hlater.typings hlists σ hσ
      exact ⟨q' :: qs', .cons hfrom' hfroms', forall_mem_cons.mpr ⟨hq', hqs'⟩, .cons hbelow' hbelows'⟩

variable {body : List Stmt} {w : Var}

theorem infers_statementsIn {slot : String} (hfrom : Forall₂ ComesFrom body (b.body slot))
    (hbody : ∀ s ∈ body, s.Inferred τ) (h : env.Solution τ) :
    Infers τ env (b.statementsIn (fun child _ => child.read) slot) (FoundAll (b.body slot) body) := by
  rw [Block.statementsIn_eq]
  exact infers_readStmts hfrom hbody h

/-! ## Kinds of statements -/

theorem type_eq_of_linked {σ : String → Ty} {name : String} {value q : Expr} {known t : Ty}
    (hunified : Ty.unify? known value.type = some t) (hdetermined : value.Determined) (hbelow : value.Below Eq q)
    (hq : q.Agrees σ) (hname : (σ name).Refines t) (hvalue : q.type.Refines t)
    (hlinked : ∀ v, value = .var v → t.isConcrete = false → σ name = σ v.name) : q.type = σ name := by
  cases hconcrete : t.isConcrete with
  | true => rw [hname.eq_of_isConcrete hconcrete, hvalue.eq_of_isConcrete hconcrete]
  | false =>
    obtain ⟨v, rfl⟩ := hdetermined.exists_var (Ty.unify?_refines_right hunified) hconcrete
    rw [hq.type_eq_of_var hbelow, hlinked v rfl hconcrete]

theorem inferred_assign {value : Expr} (attrs : Attributes) (hw : w.type = τ w.name)
    (hvalue : value.Agrees τ) (hsame : value.type = w.type) : (assign w value attrs).Inferred τ := by
  intro b env hfrom h
  cases hfrom with | assign htag hname hdeclared hattrs hplug hfrom => ?_
  obtain ⟨declared, hd, ht⟩ := hdeclared.exists_declared
  rw [read_of_tag htag]
  apply infers_statement
  rw [Block.readAssign_eq, Block.requiredName_of_names hname, hd]
  simp only [Reading.ofExcept_ok, pure_bind]
  refine (infers_valueIn hvalue.inferred hvalue hplug hfrom h (.captured _)).bind fun e env₁ h₁ _ hfound => ?_
  refine (Reading.infers_bindDeclared h₁ fun t hsome => ?_).bind fun _ env₂ h₂ hkept₂ hbound => ?_
  · rw [ht t hsome, hw]
    exact .refl _
  refine (Reading.infers_lookup h₂ w.name).bind fun known env₃ h₃ _ hlookup => ?_
  obtain ⟨rfl, rfl⟩ := hlookup
  have hboundValue : (τ w.name).Refines e.type := by
    rw [← hw, ← hsame]
    exact hfound.below.type
  refine (Reading.infers_unify h₃ (h₃.within w.name) hboundValue).bind fun t env₄ h₄ _ hunified => ?_
  obtain ⟨hunified, hτt, rfl⟩ := hunified
  refine (Reading.infers_bindType h₄ hτt).bind fun u env₅ h₅ hkept₅ hbinds => ?_
  have hvalueType : value.type.Refines t := by
    rw [hsame, hw]
    exact hτt
  refine (Reading.infers_constrain h₅ hfound.below hvalue hvalueType).bind fun _ env₆ h₆ hkept₆ htells => ?_
  refine (Reading.infers_linkTo h₆ fun v hv => ?_).bind fun _ env₇ h₇ hkept₇ hlinked => ?_
  · subst hv
    rw [← hvalue.type_eq_of_var hfound.below, hsame, hw]
  rw [Reading.node_of_ok (Block.makeVar_of_visible hname.visible t b.varAttrs), pure_bind]
  refine infers_node h₇ (a := .assign ⟨w.name, t, b.varAttrs⟩ e b.nodeAttrs) ?_ ⟨?_, ?_, ?_⟩
  · exact if_pos ((Ty.Refines.refl t).accepts (Ty.unify?_refines_right hunified))
  · refine .assign ⟨rfl, ?_, hattrs.symm⟩ hfound.below rfl
    rw [hw]
    exact hτt
  · intro hlists
    exact everywhere_leaf (List.forall_mem_singleton.mpr (hfound.known (hlists.plugged hplug))) rfl
  · intro hlists σ hσ
    have hlist := hlists.plugged hplug
    have hσ₆ := hkept₇ σ hσ
    have hσ₅ := hkept₆ σ hσ₆
    have hσ₄ := hkept₅ σ hσ₅
    obtain ⟨q', hfrom', hq', hbelow', -⟩ := hfound.typings hlist σ (hkept₂ σ hσ₄)
    have hdetermined := (hfound.known hlist).determined
    have hnameType : (σ w.name).Refines t :=
      (hbinds.known σ hσ₅).trans (Ty.unify?_refines_right hbinds.unified)
    have hsame' : q'.type = σ w.name :=
      type_eq_of_linked hunified hdetermined hbelow' hq' hnameType
        (htells.asked hdetermined σ q' hσ₆ hbelow' hq') fun v hv hopen => hlinked v hv hopen σ hσ
    refine ⟨.assign ⟨w.name, σ w.name, w.attrs⟩ q' b.nodeAttrs, .assign htag hname ?_ hattrs hplug hfrom',
      .assign rfl hq' hsame', .assign ⟨rfl, hnameType, hattrs.symm⟩ hbelow' rfl⟩
    exact Block.declares_of_refines hd fun t hsome => (hσ₄.within w.name).trans (hbound.1 t hsome)

theorem inferred_repeat {times : Expr} (attrs : Attributes) (htimes : times.Agrees τ)
    (hasked : times.type = .number) (hbody : ∀ s ∈ body, s.Inferred τ) :
    (Stmt.repeat times body attrs).Inferred τ := by
  intro b env hfrom h
  cases hfrom with | repeat' htag hplug hfrom hfromBody => ?_
  have hbound : times.type.Refines .number := .of_eq hasked
  rw [read_of_tag htag]
  apply infers_statement
  unfold Block.readRepeat
  refine (infers_valueIn htimes.inferred htimes hplug hfrom h hbound).bind fun e env₁ h₁ _ hfound => ?_
  refine (infers_statementsIn hfromBody hbody h₁).bind fun ss env₂ h₂ hkept₂ hstmts => ?_
  refine infers_node h₂ (if_pos (hbound.accepts hfound.below.type))
    ⟨.repeat' hfound.below hstmts.below rfl, fun hlists => ?_, fun hlists σ hσ => ?_⟩
  · exact everywhere_repeat.mpr ⟨List.forall_mem_singleton.mpr (hfound.known (hlists.plugged hplug)),
      hstmts.known (hlists.of_body "DO")⟩
  · obtain ⟨q', hfrom', hq', hbelow', hasked'⟩ := hfound.typings (hlists.plugged hplug) σ (hkept₂ σ hσ)
    obtain ⟨body', hfromBody', hbody', hbelowBody'⟩ := hstmts.typings (hlists.of_body "DO") σ hσ
    exact ⟨.repeat q' body' b.nodeAttrs, .repeat' htag hplug hfrom' hfromBody',
      .repeat' hq' (hasked'.eq_of_isConcrete rfl) hbody', .repeat' hbelow' hbelowBody' rfl⟩

theorem inferred_loop {mode : LoopMode} {condition : Expr} (attrs : Attributes)
    (hcondition : condition.Agrees τ) (hasked : condition.type = .boolean) (hbody : ∀ s ∈ body, s.Inferred τ) :
    (loop mode condition body attrs).Inferred τ := by
  intro b env hfrom h
  cases hfrom with | loop htag hfield hplug hfrom hfromBody => ?_
  have hbound : condition.type.Refines .boolean := .of_eq hasked
  have hword := LoopMode.ofWord?_eq_some_iff.mpr (Eq.refl mode.word)
  rw [read_of_tag htag]
  apply infers_statement
  unfold Block.readLoop
  rw [Block.requiredWord_of_field hfield hword]
  simp only [Reading.ofExcept_ok, pure_bind]
  refine (infers_valueIn hcondition.inferred hcondition hplug hfrom h hbound).bind fun e env₁ h₁ _ hfound => ?_
  refine (infers_statementsIn hfromBody hbody h₁).bind fun ss env₂ h₂ hkept₂ hstmts => ?_
  refine infers_node h₂ (if_pos (hbound.accepts hfound.below.type))
    ⟨.loop hfound.below hstmts.below rfl, fun hlists => ?_, fun hlists σ hσ => ?_⟩
  · exact everywhere_loop.mpr ⟨List.forall_mem_singleton.mpr (hfound.known (hlists.plugged hplug)),
      hstmts.known (hlists.of_body "DO")⟩
  · obtain ⟨q', hfrom', hq', hbelow', hasked'⟩ := hfound.typings (hlists.plugged hplug) σ (hkept₂ σ hσ)
    obtain ⟨body', hfromBody', hbody', hbelowBody'⟩ := hstmts.typings (hlists.of_body "DO") σ hσ
    exact ⟨.loop mode q' body' b.nodeAttrs, .loop htag hfield hplug hfrom' hfromBody',
      .loop hq' (hasked'.eq_of_isConcrete rfl) hbody', .loop hbelow' hbelowBody' rfl⟩

theorem inferred_count {first last step : Expr} (attrs : Attributes)
    (hnumber : w.type = .number) (hw : w.type = τ w.name) (hfirst : first.Agrees τ) (hasked₁ : first.type = .number)
    (hlast : last.Agrees τ) (hasked₂ : last.type = .number) (hstep : step.Agrees τ) (hasked₃ : step.type = .number)
    (hbody : ∀ s ∈ body, s.Inferred τ) : (count w first last step body attrs).Inferred τ := by
  intro b env hfrom h
  cases hfrom with | count htag hname htype hattrs hplug₁ hplug₂ hplug₃ hfrom₁ hfrom₂ hfrom₃ hfromBody => ?_
  rw [read_of_tag htag]
  apply infers_statement
  unfold Block.readCount
  rw [Block.requiredName_of_names hname]
  simp only [Reading.ofExcept_ok, pure_bind]
  refine (Reading.infers_bindType h (.of_eq (hw.symm.trans hnumber))).bind fun t env₁ h₁ _ hbinds => ?_
  have ht : t = .number := (Ty.unify?_refines_right hbinds.unified).eq_of_isConcrete rfl
  subst ht
  refine (infers_valueIn hfirst.inferred hfirst hplug₁ hfrom₁ h₁ (.of_eq hasked₁)).bind
    fun e₁ env₂ h₂ hkept₂ hfound₁ => ?_
  refine (infers_valueIn hlast.inferred hlast hplug₂ hfrom₂ h₂ (.of_eq hasked₂)).bind
    fun e₂ env₃ h₃ hkept₃ hfound₂ => ?_
  refine (infers_valueIn hstep.inferred hstep hplug₃ hfrom₃ h₃ (.of_eq hasked₃)).bind
    fun e₃ env₄ h₄ hkept₄ hfound₃ => ?_
  refine (infers_statementsIn hfromBody hbody h₄).bind fun ss env₅ h₅ hkept₅ hstmts => ?_
  rw [Reading.node_of_ok (Block.makeVar_of_visible hname.visible .number b.varAttrs), pure_bind]
  refine infers_node h₅ (a := .count ⟨w.name, .number, b.varAttrs⟩ e₁ e₂ e₃ ss b.nodeAttrs) ?_ ⟨?_, ?_, ?_⟩
  · unfold makeCount
    rw [(Ty.Refines.refl .number).accepted, (Ty.Refines.of_eq hasked₁).accepts hfound₁.below.type,
      (Ty.Refines.of_eq hasked₂).accepts hfound₂.below.type, (Ty.Refines.of_eq hasked₃).accepts hfound₃.below.type]
    rfl
  · exact .count ⟨rfl, .of_eq hnumber, hattrs.symm⟩ hfound₁.below hfound₂.below hfound₃.below hstmts.below rfl
  · intro hlists
    refine everywhere_count.mpr ⟨?_, hstmts.known (hlists.of_body "DO")⟩
    simp only [exprs, forall_mem_cons]
    exact ⟨hfound₁.known (hlists.plugged hplug₁), hfound₂.known (hlists.plugged hplug₂),
      hfound₃.known (hlists.plugged hplug₃), by simp⟩
  · intro hlists σ hσ
    have hσ₄ := hkept₅ σ hσ
    have hσ₃ := hkept₄ σ hσ₄
    have hσ₂ := hkept₃ σ hσ₃
    obtain ⟨q₁, hfrom₁', hq₁, hbelow₁, hnumber₁⟩ := hfound₁.typings (hlists.plugged hplug₁) σ hσ₂
    obtain ⟨q₂, hfrom₂', hq₂, hbelow₂, hnumber₂⟩ := hfound₂.typings (hlists.plugged hplug₂) σ hσ₃
    obtain ⟨q₃, hfrom₃', hq₃, hbelow₃, hnumber₃⟩ := hfound₃.typings (hlists.plugged hplug₃) σ hσ₄
    obtain ⟨body', hfromBody', hbody', hbelowBody'⟩ := hstmts.typings (hlists.of_body "DO") σ hσ
    have hσw : σ w.name = .number := (hbinds.known σ (hkept₂ σ hσ₂)).eq_of_isConcrete rfl
    exact ⟨.count ⟨w.name, .number, w.attrs⟩ q₁ q₂ q₃ body' b.nodeAttrs,
      .count htag hname rfl hattrs hplug₁ hplug₂ hplug₃ hfrom₁' hfrom₂' hfrom₃' hfromBody',
      .count rfl hσw.symm hq₁ (hnumber₁.eq_of_isConcrete rfl) hq₂ (hnumber₂.eq_of_isConcrete rfl) hq₃
        (hnumber₃.eq_of_isConcrete rfl) hbody',
      .count ⟨rfl, .refl _, hattrs.symm⟩ hbelow₁ hbelow₂ hbelow₃ hbelowBody' rfl⟩

theorem type_eq_of_elements {σ : String → Ty} {name : String} {list q : Expr} {known asked t : Ty}
    (hunified : Ty.unify? known list.type.elementOrCaptured = some t) (hdetermined : list.Determined)
    (hbelow : list.Below Eq q) (hq : q.Agrees σ) (hasked : q.type.Refines (.list asked))
    (hname : (σ name).Refines t) (hknown : ∀ v, list = .var v → known = asked)
    (hlinked : ∀ v, list = .var v → t.isConcrete = false → σ v.name = .list (σ name)) :
    q.type = .list (σ name) := by
  obtain ⟨s, hs, hsasked⟩ := hasked.exists_list
  have helement := hbelow.type.elementOrCaptured
  rw [hs] at helement ⊢
  rcases hdetermined with ⟨v, rfl⟩ | hconcrete
  · cases hopen : t.isConcrete with
    | true =>
      have hst : s.Refines t := (hknown v rfl ▸ hsasked).of_unify? helement hunified
      rw [hst.eq_of_isConcrete hopen, hname.eq_of_isConcrete hopen]
    | false => rw [← hlinked v rfl hopen, ← hq.type_eq_of_var hbelow, hs]
  · have hlist : Ty.list s = list.type := hs.symm.trans (hbelow.type.eq_of_isConcrete hconcrete)
    rw [← hlist] at hunified hconcrete
    have hts : t = s := (Ty.unify?_refines_right hunified).eq_of_isConcrete hconcrete
    rw [hts] at hname
    rw [hname.eq_of_isConcrete hconcrete]

theorem inferred_forEach {list : Expr} (attrs : Attributes) (hw : w.type = τ w.name)
    (hlist : list.Agrees τ) (hasked : list.type = .list w.type) (hbody : ∀ s ∈ body, s.Inferred τ) :
    (forEach w list body attrs).Inferred τ := by
  intro b env hfrom h
  cases hfrom with | forEach htag hname hattrs hplug hfrom hfromBody => ?_
  rw [read_of_tag htag]
  apply infers_statement
  rw [Block.readForEach_eq, Block.requiredName_of_names hname]
  simp only [Reading.ofExcept_ok, pure_bind]
  refine (Reading.infers_lookup h w.name).bind fun known env₁ h₁ _ hlookup => ?_
  obtain ⟨rfl, rfl⟩ := hlookup
  have htype : list.type = .list (τ w.name) := hasked.trans (congrArg Ty.list hw)
  have hbound : list.type.Refines (.list (env₁.lookup w.name)) := htype ▸ .list (h₁.within w.name)
  refine (infers_valueIn hlist.inferred hlist hplug hfrom h₁ hbound).bind fun e env₂ h₂ _ hfound => ?_
  have helement : (τ w.name).Refines e.type.elementOrCaptured := by
    have hbelow := hfound.below.type.elementOrCaptured
    rw [htype] at hbelow
    exact hbelow
  refine (Reading.infers_bindType h₂ helement).bind fun t env₃ h₃ hkept₃ hbinds => ?_
  have hτt := hbinds.known τ h₃
  have hτ : ∀ v, e = .var v → τ v.name = .list (τ w.name) := by
    rintro v rfl
    rw [← hlist.type_eq_of_var hfound.below, htype]
  refine (Reading.infers_linkElements h₃ hτ).bind fun _ env₄ h₄ hkept₄ hlinked => ?_
  refine (infers_statementsIn hfromBody hbody h₄).bind fun ss env₅ h₅ hkept₅ hstmts => ?_
  rw [Reading.node_of_ok (Block.makeVar_of_visible hname.visible t b.varAttrs), pure_bind]
  refine infers_node h₅ (a := .forEach ⟨w.name, t, b.varAttrs⟩ e ss b.nodeAttrs) ?_ ⟨?_, ?_, ?_⟩
  · have hboth : list.type.Refines (.list t) := htype ▸ .list hτt
    exact if_pos (hboth.accepts hfound.below.type)
  · exact .forEach ⟨rfl, hw ▸ hτt, hattrs.symm⟩ hfound.below hstmts.below rfl
  · intro hlists
    exact everywhere_forEach.mpr ⟨List.forall_mem_singleton.mpr (hfound.known (hlists.plugged hplug)),
      hstmts.known (hlists.of_body "DO")⟩
  · intro hlists σ hσ
    have hlist := hlists.plugged hplug
    have hσ₄ := hkept₅ σ hσ
    have hσ₃ := hkept₄ σ hσ₄
    obtain ⟨q', hfrom', hq', hbelow', hasked'⟩ := hfound.typings hlist σ (hkept₃ σ hσ₃)
    obtain ⟨body', hfromBody', hbody', hbelowBody'⟩ := hstmts.typings (hlists.of_body "DO") σ hσ
    have hknown : ∀ v, e = .var v → env₂.lookup w.name = env₁.lookup w.name := by
      intro v hv
      refine hfound.frame v hv w.name fun heq => ?_
      -- A list is not one of its own elements.
      have hself := hτ v hv
      rw [heq] at hself
      generalize τ w.name = t at hself
      cases hself
    have hsame : q'.type = .list (σ w.name) :=
      type_eq_of_elements hbinds.unified (hfound.known hlist).determined hbelow' hq' hasked' (hbinds.known σ hσ₃)
        hknown fun v hv hopen => hlinked v hv hopen σ hσ₄
    exact ⟨.forEach ⟨w.name, σ w.name, w.attrs⟩ q' body' b.nodeAttrs,
      .forEach htag hname hattrs hplug hfrom' hfromBody', .forEach rfl hq' hsame hbody',
      .forEach ⟨rfl, hbinds.known σ hσ₃, hattrs.symm⟩ hbelow' hbelowBody' rfl⟩

theorem inferred_wait {time : Expr} (attrs : Attributes) (htime : time.Agrees τ) (hasked : time.type = .number) :
    (wait time attrs).Inferred τ := by
  intro b env hfrom h
  cases hfrom with | wait htag hplug hfrom => ?_
  have hbound : time.type.Refines .number := .of_eq hasked
  rw [read_of_tag htag]
  apply infers_statement
  unfold Block.readWait
  refine (infers_valueIn htime.inferred htime hplug hfrom h hbound).bind fun e env₁ h₁ _ hfound => ?_
  refine infers_node h₁ (if_pos (hbound.accepts hfound.below.type)) ⟨.wait hfound.below rfl, fun hlists => ?_,
    fun hlists σ hσ => ?_⟩
  · exact everywhere_leaf (List.forall_mem_singleton.mpr (hfound.known (hlists.plugged hplug))) rfl
  · obtain ⟨q', hfrom', hq', hbelow', hasked'⟩ := hfound.typings (hlists.plugged hplug) σ hσ
    exact ⟨.wait q' b.nodeAttrs, .wait htag hplug hfrom', .wait hq' (hasked'.eq_of_isConcrete rfl), .wait hbelow' rfl⟩

theorem inferred_print {text : Expr} (attrs : Attributes) (htext : text.Agrees τ) : (print text attrs).Inferred τ := by
  intro b env hfrom h
  cases hfrom with | print htag hplug hfrom => ?_
  rw [read_of_tag htag]
  apply infers_statement
  unfold Block.readPrint
  refine (infers_valueIn htext.inferred htext hplug hfrom h (.captured _)).bind fun e env₁ h₁ _ hfound => ?_
  refine infers_pure h₁ ⟨.print hfound.below rfl, fun hlists => ?_, fun hlists σ hσ => ?_⟩
  · exact everywhere_leaf (List.forall_mem_singleton.mpr (hfound.known (hlists.plugged hplug))) rfl
  · obtain ⟨q', hfrom', hq', hbelow', -⟩ := hfound.typings (hlists.plugged hplug) σ hσ
    exact ⟨.print q' b.nodeAttrs, .print htag hplug hfrom', .print hq', .print hbelow' rfl⟩

theorem inferred_flow (choice : Flow) (attrs : Attributes) : (flow choice attrs).Inferred τ := by
  intro b env hfrom h
  cases hfrom with | flow htag hfield => ?_
  rw [read_of_tag htag]
  apply infers_statement
  rw [Block.readFlow_of_field hfield]
  refine infers_pure h ⟨.flow rfl, fun _ => everywhere_leaf (by simp [exprs]) rfl, fun _ σ _ => ?_⟩
  exact ⟨.flow choice b.nodeAttrs, .flow htag hfield, .flow, .flow rfl⟩

/-! ## Choices -/

section Choices

variable {conditions : List Expr} {bodies : List (List Stmt)}

structure FoundBranches (b : Block) (indices : List Nat) (children : List Block) (conditions : List Expr)
    (bodies : List (List Stmt)) (read : List Expr × List (List Stmt)) (env' : TypeEnv) : Prop where
  below : Forall₂ (Expr.Below Eq) read.1 conditions
  belowBodies : Forall₂ (Forall₂ (Below Eq)) read.2 bodies
  known : b.ListsTyped → ∀ e ∈ read.1, e.ListsKnown
  knownBodies : b.ListsTyped → ∀ body ∈ read.2, ∀ s ∈ body, s.ListsKnown
  typings : b.ListsTyped → ∀ σ, env'.Solution σ → ∃ es, Forall₂ Expr.ComesFrom es children ∧
    (∀ e ∈ es, e.type = .boolean ∧ e.Agrees σ) ∧ Forall₂ (Expr.Below Eq) read.1 es
  typingsBodies : b.ListsTyped → ∀ σ, env'.Solution σ → ∃ sss, Forall₂ (Forall₂ ComesFrom) sss
    (indices.map fun i => b.body (Block.branchSlot i)) ∧ (∀ ss ∈ sss, ∀ s ∈ ss, s.Agrees σ) ∧
      Forall₂ (Forall₂ (Below Eq)) read.2 sss

theorem infers_readBranches {indices : List Nat} {children : List Block}
    (hplugged : Forall₂ b.Plugged (indices.map Block.conditionSlot) children)
    (hfrom : Forall₂ Expr.ComesFrom conditions children)
    (hfromBodies : Forall₂ (Forall₂ ComesFrom) bodies (indices.map fun i => b.body (Block.branchSlot i)))
    (hconditions : ∀ e ∈ conditions, e.type = .boolean ∧ e.Agrees τ)
    (hbodies : ∀ body ∈ bodies, ∀ s ∈ body, s.Inferred τ) (h : env.Solution τ) :
    Infers τ env (b.readBranches (fun child _ => child.read) indices)
      (FoundBranches b indices children conditions bodies) := by
  induction indices generalizing children conditions bodies env with
  | nil =>
    cases hplugged
    cases hfrom
    cases hfromBodies
    exact infers_pure h ⟨.nil, .nil, by simp, by simp, fun _ σ _ => ⟨[], .nil, by simp, .nil⟩,
      fun _ σ _ => ⟨[], .nil, by simp, .nil⟩⟩
  | cons i rest ih =>
    cases hplugged with | cons hplug hplugs => ?_
    cases hfrom with | cons hfrom hfroms => ?_
    cases hfromBodies with | cons hfromBody hfromBodies => ?_
    obtain ⟨⟨hasked, hagrees⟩, hconditions⟩ := forall_mem_cons.mp hconditions
    obtain ⟨hbody, hbodies⟩ := forall_mem_cons.mp hbodies
    unfold Block.readBranches
    refine (infers_valueIn hagrees.inferred hagrees hplug hfrom h (.of_eq hasked)).bind fun e env₁ h₁ _ hfound => ?_
    refine (infers_statementsIn hfromBody hbody h₁).bind fun ss env₂ h₂ hkept₂ hstmts => ?_
    refine (ih hplugs hfroms hfromBodies hconditions hbodies h₂).bind fun read env₃ h₃ hkept₃ hlater => ?_
    obtain ⟨es, sss⟩ := read
    refine infers_pure h₃ ⟨.cons hfound.below hlater.below, .cons hstmts.below hlater.belowBodies, ?_, ?_, ?_, ?_⟩
    · intro hlists
      exact forall_mem_cons.mpr ⟨hfound.known (hlists.plugged hplug), hlater.known hlists⟩
    · intro hlists
      exact forall_mem_cons.mpr ⟨hstmts.known (hlists.of_body _), hlater.knownBodies hlists⟩
    · intro hlists σ hσ
      obtain ⟨q', hfrom', hq', hbelow', hasked'⟩ :=
        hfound.typings (hlists.plugged hplug) σ (hkept₂ σ (hkept₃ σ hσ))
      obtain ⟨qs', hfroms', hqs', hbelows'⟩ := hlater.typings hlists σ hσ
      exact ⟨q' :: qs', .cons hfrom' hfroms',
        forall_mem_cons.mpr ⟨⟨hasked'.eq_of_isConcrete rfl, hq'⟩, hqs'⟩, .cons hbelow' hbelows'⟩
    · intro hlists σ hσ
      obtain ⟨body', hfromBody', hbody', hbelowBody'⟩ :=
        hstmts.typings (hlists.of_body _) σ (hkept₃ σ hσ)
      obtain ⟨bodies', hfromBodies', hbodies', hbelowBodies'⟩ := hlater.typingsBodies hlists σ hσ
      exact ⟨body' :: bodies', .cons hfromBody' hfromBodies', forall_mem_cons.mpr ⟨hbody', hbodies'⟩,
        .cons hbelowBody' hbelowBodies'⟩

structure FoundLast (b : Block) (otherwise last : Option (List Stmt)) (env' : TypeEnv) : Prop where
  isSome : last.isSome = otherwise.isSome
  found : FoundAll (b.body "ELSE") (otherwise.getD []) (last.getD []) env'

theorem infers_readLast {otherwise : Option (List Stmt)}
    (hfrom : Forall₂ ComesFrom (otherwise.getD []) (b.body "ELSE"))
    (hbody : ∀ s ∈ otherwise.getD [], s.Inferred τ) (h : env.Solution τ) :
    Infers τ env (b.readLast (fun child _ => child.read) otherwise.isSome) (FoundLast b otherwise) := by
  unfold Block.readLast
  cases otherwise with
  | none =>
    refine infers_pure h ⟨rfl, .nil, by simp, fun _ σ _ => ⟨[], hfrom, by simp, .nil⟩⟩
  | some body =>
    refine (infers_statementsIn hfrom hbody h).bind fun ss env₁ h₁ _ hstmts => ?_
    exact infers_pure h₁ ⟨rfl, hstmts⟩

theorem agrees_choose {σ : String → Ty} {last : Option (List Stmt)} {attrs : Attributes}
    (hlength : conditions.length = bodies.length) (hconditions : ∀ e ∈ conditions, e.type = .boolean ∧ e.Agrees σ)
    (hbodies : ∀ body ∈ bodies, ∀ s ∈ body, s.Agrees σ) (hlast : ∀ s ∈ last.getD [], s.Agrees σ) :
    (choose (conditions.zip bodies) last attrs).Agrees σ := by
  apply Agrees.choose
  · rw [List.map_fst_zip hlength.le]
    exact hconditions
  · rw [List.map_snd_zip hlength.ge]
    exact hbodies
  · exact hlast

theorem exists_last {last : Option (List Stmt)} {body : List Stmt}
    (h : Forall₂ (Below Eq) (last.getD []) body) :
    ∃ last' : Option (List Stmt), last'.isSome = last.isSome ∧ last'.getD [] = body := by
  cases last with
  | none =>
    cases h
    exact ⟨none, rfl, rfl⟩
  | some ss => exact ⟨some body, rfl, rfl⟩

theorem inferred_choose {branches : List (Expr × List Stmt)} {otherwise : Option (List Stmt)} (attrs : Attributes)
    (hconditions : ∀ e ∈ branches.map Prod.fst, e.type = .boolean ∧ e.Agrees τ)
    (hbodies : ∀ body ∈ branches.map Prod.snd, ∀ s ∈ body, s.Inferred τ)
    (hotherwise : ∀ s ∈ otherwise.getD [], s.Inferred τ) : (choose branches otherwise attrs).Inferred τ := by
  intro b env hfrom h
  cases hfrom with | choose htag has hplugged hfrom hfromBodies hfromLast => ?_
  have hhas := has
  obtain ⟨⟨further, hfurther, hcount⟩, ⟨last, hlast, hasElse⟩, hslots⟩ := has
  rw [read_of_tag htag]
  apply infers_statement
  rw [Block.readChoose_eq, hfurther, hlast]
  simp only [Reading.ofExcept_ok, pure_bind]
  rw [← hcount, ← hasElse, hslots]
  refine (infers_readBranches hplugged hfrom hfromBodies hconditions hbodies h).bind fun read env₁ h₁ _ hread => ?_
  obtain ⟨es, sss⟩ := read
  refine (infers_readLast hfromLast hotherwise h₁).bind fun final env₂ h₂ hkept₂ hfinal => ?_
  have hes : es.length = further.getD 0 + 1 := by
    rw [hread.below.length_eq, List.length_map, hcount]
  have hsss : sss.length = further.getD 0 + 1 := by
    rw [hread.belowBodies.length_eq, List.length_map, hcount]
  have hlength : es.length = sss.length := hes.trans hsss.symm
  have haccepts : ∀ e ∈ es, Ty.boolean.accepts e.type = true := by
    intro e he
    obtain ⟨q, hq, hbelow⟩ := exists_of_mem_left hread.below he
    have hboolean : q.type.Refines .boolean := .of_eq (hconditions q hq).1
    exact hboolean.accepts hbelow.type
  refine infers_node h₂ (Block.makeChoose_of_accepts hes hsss haccepts final _) ⟨?_, fun hlists => ?_,
    fun hlists σ hσ => ?_⟩
  · exact below_choose hlength hread.below hread.belowBodies hfinal.isSome hfinal.found.below rfl
  · refine everywhere_choose.mpr ⟨?_, fun branch hbranch => ?_, ?_⟩
    · simp only [exprs]
      rw [List.map_fst_zip hlength.le]
      exact hread.known hlists
    · exact hread.knownBodies hlists _ (List.of_mem_zip hbranch).2
    · rintro body rfl
      exact hfinal.found.known (hlists.of_body "ELSE")
  · obtain ⟨es', hfrom', hes', hbelow'⟩ := hread.typings hlists σ (hkept₂ σ hσ)
    obtain ⟨sss', hfromBodies', hsss', hbelowBodies'⟩ := hread.typingsBodies hlists σ (hkept₂ σ hσ)
    obtain ⟨body', hfromLast', hbody', hbelowLast'⟩ := hfinal.found.typings (hlists.of_body "ELSE") σ hσ
    obtain ⟨last', hsome', rfl⟩ := exists_last hbelowLast'
    have hlength' : es'.length = sss'.length := by
      rw [← hbelow'.length_eq, hlength, hbelowBodies'.length_eq]
    refine ⟨.choose (es'.zip sss') last' b.nodeAttrs,
      comesFrom_choose htag ?_ hplugged hfrom' hfromBodies' hfromLast',
      agrees_choose hlength' hes' hsss' hbody', below_choose hlength ?_ ?_ hsome'.symm hbelowLast' rfl⟩
    · rw [hsome', hfinal.isSome]
      exact hhas
    · rw [List.map_fst_zip hlength'.le]
      exact hbelow'
    · rw [List.map_snd_zip hlength'.ge]
      exact hbelowBodies'

end Choices

theorem Agrees.inferred {q : Stmt} (hq : q.Agrees τ) : q.Inferred τ := by
  induction hq with
  | assign hw hvalue hsame => exact inferred_assign _ hw hvalue hsame
  | choose hconditions _ _ hbodies hotherwise => exact inferred_choose _ hconditions hbodies hotherwise
  | repeat' htimes hasked _ hbody => exact inferred_repeat _ htimes hasked hbody
  | loop hcondition hasked _ hbody => exact inferred_loop _ hcondition hasked hbody
  | count hnumber hw hfirst hasked₁ hlast hasked₂ hstep hasked₃ _ hbody =>
    exact inferred_count _ hnumber hw hfirst hasked₁ hlast hasked₂ hstep hasked₃ hbody
  | forEach hw hlist hasked _ hbody => exact inferred_forEach _ hw hlist hasked hbody
  | flow => exact inferred_flow _ _
  | wait htime hasked => exact inferred_wait _ htime hasked
  | print htext => exact inferred_print _ htext

end Stmt

/-! ## Workspaces -/

def Root.ListsKnown : Root → Prop
  | .statements body => ∀ s ∈ body, s.ListsKnown
  | .value e => e.ListsKnown

structure Root.Found (b : Block) (q root : Root) (env' : TypeEnv) : Prop where
  below : root.Below Eq q
  known : b.ListsTyped → root.ListsKnown
  typings : b.ListsTyped → ∀ σ, env'.Solution σ →
    ∃ q' : Root, q'.ComesFrom b ∧ q'.Agrees σ ∧ root.Below Eq q'

namespace Block

variable {τ : String → Ty} {env : TypeEnv} {b : Block} {allowFloating : Bool}

def Takes (allowFloating : Bool) : Root → Prop
  | .statements _ => True
  | .value _ => allowFloating = true

variable {env' : TypeEnv} {root q : Root}

theorem takes_of_readRoot {b : Block} (h : (b.readRoot allowFloating).Yields env root env') :
    Takes allowFloating root := by
  unfold readRoot at h
  obtain ⟨p, env₁, -, h⟩ := Reading.yields_bind_iff.mp h
  cases p with
  | statement s =>
    obtain ⟨rest, env₂, -, h⟩ := Reading.yields_bind_iff.mp h
    obtain ⟨rfl, -⟩ := Reading.yields_pure_iff.mp h
    trivial
  | value e =>
    dsimp only at h
    split at h
    · exact absurd h (by simp [Reading.yields_throw_iff])
    · split at h
      · next hallowed =>
        obtain ⟨rfl, -⟩ := Reading.yields_pure_iff.mp h
        exact hallowed
      · exact absurd h (by simp [Reading.yields_throw_iff])

theorem takes_of_readRoots {blocks : List Block} {roots : List Root}
    (h : (readRoots allowFloating blocks).Yields env roots env') : ∀ root ∈ roots, Takes allowFloating root := by
  unfold readRoots at h
  induction blocks generalizing env env' roots with
  | nil =>
    obtain ⟨rfl, -⟩ := Reading.yields_pure_iff.mp h
    simp
  | cons b rest ih =>
    rw [List.mapM_cons] at h
    obtain ⟨root, env₁, hroot, h⟩ := Reading.yields_bind_iff.mp h
    obtain ⟨others, env₂, hothers, h⟩ := Reading.yields_bind_iff.mp h
    obtain ⟨rfl, -⟩ := Reading.yields_pure_iff.mp h
    exact forall_mem_cons.mpr ⟨takes_of_readRoot hroot, ih hothers⟩

theorem Takes.below {R : Attributes → Attributes → Prop} (hq : Takes allowFloating q)
    (h : root.Below R q) : Takes allowFloating root := by
  cases root with
  | statements => trivial
  | value e =>
    cases q with
    | statements => cases h
    | value => exact hq

theorem Takes.above {R : Attributes → Attributes → Prop} (hroot : Takes allowFloating root)
    (h : root.Below R q) : Takes allowFloating q := by
  cases q with
  | statements => trivial
  | value =>
    cases root with
    | statements => cases h
    | value => exact hroot

theorem Takes.of_resolve (hroot : Takes allowFloating root) (h : root.resolve env = .ok q) :
    Takes allowFloating q := by
  cases root with
  | statements body =>
    obtain ⟨qs, -, h⟩ := Except.bind_ok_iff.mp h
    cases h
    trivial
  | value e =>
    obtain ⟨q, -, h⟩ := Except.bind_ok_iff.mp h
    cases h
    exact hroot

theorem infers_readRoot (hfrom : q.ComesFrom b) (hq : q.Agrees τ) (htakes : Takes allowFloating q)
    (h : env.Solution τ) : Infers τ env (b.readRoot allowFloating) (q.Found b) := by
  unfold readRoot
  cases q with
  | statements qs =>
    change Forall₂ _ _ _ at hfrom
    rw [chain_eq] at hfrom
    cases hfrom with | @cons first _ rest _ hfrom hfroms => ?_
    obtain ⟨hfirst, hrest⟩ := forall_mem_cons.mp hq
    refine (hfirst.inferred b env hfrom h).bind fun p env₁ h₁ _ hpost => ?_
    obtain ⟨s, rfl, hfound⟩ := hpost
    refine (Stmt.infers_readStmts hfroms (fun s hs => (hrest s hs).inferred) h₁).bind
      fun ss env₂ h₂ hkept₂ hstmts => ?_
    have hchain : b.ListsTyped → ∀ c ∈ chainFrom b.next, c.ListsTyped := by
      intro hlists c hc
      refine hlists.of_reached (reached_of_mem_chain ?_)
      rw [chain_eq]
      exact List.mem_cons_of_mem b hc
    refine infers_pure h₂ ⟨.cons hfound.below hstmts.below, fun hlists => ?_, fun hlists σ hσ => ?_⟩
    · exact forall_mem_cons.mpr ⟨hfound.known hlists, hstmts.known (hchain hlists)⟩
    · obtain ⟨q', hfrom', hq', hbelow'⟩ := hfound.typings hlists σ (hkept₂ σ hσ)
      obtain ⟨qs', hfroms', hqs', hbelows'⟩ := hstmts.typings (hchain hlists) σ hσ
      refine ⟨.statements (q' :: qs'), ?_, forall_mem_cons.mpr ⟨hq', hqs'⟩, .cons hbelow' hbelows'⟩
      change Forall₂ _ _ _
      rw [chain_eq]
      exact .cons hfrom' hfroms'
  | value e =>
    obtain ⟨hfrom, hnext⟩ := hfrom
    have hagrees : e.Agrees τ := hq
    have hallowed : allowFloating = true := htakes
    refine (hagrees.inferred b env hfrom h).bind fun p env₁ h₁ _ hpost => ?_
    obtain ⟨e, rfl, hfound⟩ := hpost
    dsimp only
    rw [hnext, hallowed]
    refine infers_pure h₁ ⟨hfound.below, hfound.known, fun hlists σ hσ => ?_⟩
    obtain ⟨q', hfrom', hq', hbelow', -⟩ := hfound.typings hlists σ hσ
    exact ⟨.value q', ⟨hfrom', hnext⟩, hq', hbelow'⟩

theorem infers_readRoots {pairs : List (Root × Block)}
    (hpairs : ∀ pair ∈ pairs, pair.1.ComesFrom pair.2 ∧ pair.1.Agrees τ ∧ Takes allowFloating pair.1)
    (h : env.Solution τ) :
    Infers τ env (readRoots allowFloating (pairs.map Prod.snd)) fun roots env' =>
      Forall₂ (fun found pair => pair.1.Found pair.2 found env') roots pairs := by
  unfold readRoots
  induction pairs generalizing env with
  | nil => exact infers_pure h .nil
  | cons pair rest ih =>
    obtain ⟨⟨hfrom, hagrees, htakes⟩, hrest⟩ := forall_mem_cons.mp hpairs
    rw [List.map_cons, List.mapM_cons]
    refine (infers_readRoot hfrom hagrees htakes h).bind fun found env₁ h₁ _ hfound => ?_
    refine (ih hrest h₁).bind fun roots env₂ h₂ hkept₂ hlater => ?_
    refine infers_pure h₂ (.cons ⟨hfound.below, hfound.known, fun hlists σ hσ => ?_⟩ hlater)
    exact hfound.typings hlists σ (hkept₂ σ hσ)

end Block

end Blockwork
