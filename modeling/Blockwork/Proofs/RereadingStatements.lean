import Blockwork.Proofs.Rereading

/-! # Reading statements that say more

Statements are read side by side in the way of `Expr.Rereads`, and so are whole workspaces.
-/

namespace Blockwork

set_option autoImplicit false

open Reading (Follows follows_pure follows_node)
open List (Forall₂)
open Block (read_of_tag requiredName_of_names follows_valueIn)

namespace Stmt

/-! ## Statements one after the other -/

def ReadBelow (b b' : Block) : Prop :=
  ∀ env env', env.CoveredBy env' → Follows env env' b.read b'.read fun p p' _ =>
    ∃ s s', p = .statement s ∧ p' = .statement s' ∧ s.Below (fun _ _ => True) s'

def Rereads (q' : Stmt) : Prop :=
  ∀ (q : Stmt) (b b' : Block), q.ComesFrom b → q.Below Attributes.Informs q' → q'.ComesFrom b' → ReadBelow b b'

variable {env env' : TypeEnv} {b b' c c' : Block}

theorem readBelow_of_rule {r r' : Reading Stmt} (hr : b.read = Block.statement r) (hr' : b'.read = Block.statement r')
    (h : ∀ env env', env.CoveredBy env' → Follows env env' r r' fun s s' _ => s.Below (fun _ _ => True) s') :
    ReadBelow b b' := by
  intro env env' hcovered
  rw [hr, hr']
  refine (h env env' hcovered).bind fun s s' env₁ env₁' hcovered₁ _ hbelow => ?_
  exact follows_pure hcovered₁ ⟨s, s', rfl, rfl, hbelow⟩

theorem follows_readStmts {chain chain' : List Block} (hchain : Forall₂ ReadBelow chain chain')
    (h : env.CoveredBy env') : Follows env env' (chain.mapM Block.readStmt) (chain'.mapM Block.readStmt)
      fun ss ss' _ => Forall₂ (Below fun _ _ => True) ss ss' := by
  refine Reading.follows_mapM hchain (fun b b' hread env env' h => ?_) h
  unfold Block.readStmt Block.asStmt
  refine (hread env env' h).bind fun p p' env₁ env₁' hcovered _ hpost => ?_
  obtain ⟨s, s', rfl, rfl, hbelow⟩ := hpost
  exact follows_pure hcovered hbelow

theorem follows_statementsIn {slot slot' : String} (hbody : Forall₂ ReadBelow (b.body slot) (b'.body slot'))
    (h : env.CoveredBy env') : Follows env env' (b.statementsIn (fun child _ => child.read) slot)
      (b'.statementsIn (fun child _ => child.read) slot') fun ss ss' _ =>
      Forall₂ (Below fun _ _ => True) ss ss' := by
  rw [Block.statementsIn_eq, Block.statementsIn_eq]
  exact follows_readStmts hbody h

variable {body' : List Stmt}

/-! ## Kinds of statements -/

theorem rereads_assign (w : Var) (value : Expr) (attrs : Attributes) : (assign w value attrs).Rereads := by
  intro q b b' hfrom hbelow hfrom'
  cases hbelow with | assign hw hbelow hattrs => ?_
  cases hfrom with | assign htag hname hdeclared _ hplug hfrom => ?_
  cases hfrom' with | assign htag' hname' hdeclared' _ hplug' hfrom' => ?_
  refine readBelow_of_rule (read_of_tag htag) (read_of_tag htag') fun env env' h => ?_
  obtain ⟨declared, hd, -⟩ := hdeclared.exists_declared
  obtain ⟨declared', hd', -⟩ := hdeclared'.exists_declared
  rw [Block.readAssign_eq, Block.readAssign_eq, requiredName_of_names hname, requiredName_of_names hname',
    hd, hd', hw.name]
  simp only [Reading.ofExcept_ok, pure_bind]
  refine (follows_valueIn hplug hplug' (value.rereads _ _ _ hfrom hbelow hfrom') h (.refl _)).bind
    fun e e' env₁ env₁' hcovered₁ _ hpost => ?_
  obtain ⟨hseen, hknows₁, -⟩ := hpost
  refine (Reading.follows_bindDeclared hcovered₁ fun t e => ?_).bind fun _ _ env₂ env₂' hcovered₂ hgrows₂ _ => ?_
  · exact Block.declaredType_of_informs (by simp) hattrs (e ▸ hd) hd'
  refine (Reading.follows_lookup hcovered₂ w.name).bind fun known known' env₃ env₃' hcovered₃ _ hknown => ?_
  obtain ⟨rfl, hknown, -⟩ := hknown
  refine (Reading.follows_unify hcovered₃ hknown hseen.below.type).bind fun t t' env₄ env₄' hcovered₄ _ hunified => ?_
  obtain ⟨rfl, ht, -⟩ := hunified
  refine (Reading.follows_bindType hcovered₄ ht).bind fun _ u' env₅ env₅' hcovered₅ hgrows₅ hbinds => ?_
  have hknows₅ := (hknows₁.mono hgrows₂.known).mono hgrows₅.known
  refine (Reading.follows_constrain hcovered₅ hseen.below hknows₅ ht).bind
    fun _ _ env₆ env₆' hcovered₆ hgrows₆ htold => ?_
  have hnameKnown : (env₆'.lookup w.name).Refines t' := (hgrows₆.known w.name).trans hbinds.2.found
  refine (Reading.follows_linkTo hcovered₆ hseen.below hnameKnown fun v hv => (htold v hv).known).bind
    fun _ _ env₇ env₇' hcovered₇ _ _ => ?_
  refine (Block.follows_makeVar hcovered₇ ht).bind fun v v' env₈ env₈' hcovered₈ _ hv => ?_
  refine follows_node hcovered₈ fun made made' hmade hmade' => ?_
  rw [eq_of_makeAssign hmade, eq_of_makeAssign hmade']
  exact .assign hv.1 hseen.below trivial

theorem rereads_repeat (times : Expr) (attrs : Attributes) (hbody : ∀ s ∈ body', s.Rereads) :
    (Stmt.repeat times body' attrs).Rereads := by
  intro q b b' hfrom hbelow hfrom'
  cases hbelow with | repeat' hbelow hbelowBody _ => ?_
  cases hfrom with | repeat' htag hplug hfrom hfromBody => ?_
  cases hfrom' with | repeat' htag' hplug' hfrom' hfromBody' => ?_
  refine readBelow_of_rule (read_of_tag htag) (read_of_tag htag') fun env env' h => ?_
  unfold Block.readRepeat
  refine (follows_valueIn hplug hplug' (times.rereads _ _ _ hfrom hbelow hfrom') h (.refl _)).bind
    fun e e' env₁ env₁' hcovered₁ _ hpost => ?_
  refine (follows_statementsIn (forall₂_of_path hbody hfromBody hbelowBody hfromBody') hcovered₁).bind
    fun ss ss' env₂ env₂' hcovered₂ _ hstmts => ?_
  refine follows_node hcovered₂ fun made made' hmade hmade' => ?_
  rw [eq_of_makeRepeat hmade, eq_of_makeRepeat hmade']
  exact .repeat' hpost.1.below hstmts trivial

theorem rereads_loop (mode : LoopMode) (condition : Expr) (attrs : Attributes) (hbody : ∀ s ∈ body', s.Rereads) :
    (loop mode condition body' attrs).Rereads := by
  intro q b b' hfrom hbelow hfrom'
  cases hbelow with | loop hbelow hbelowBody _ => ?_
  cases hfrom with | loop htag hfield hplug hfrom hfromBody => ?_
  cases hfrom' with | loop htag' hfield' hplug' hfrom' hfromBody' => ?_
  refine readBelow_of_rule (read_of_tag htag) (read_of_tag htag') fun env env' h => ?_
  have hword := LoopMode.ofWord?_eq_some_iff.mpr (Eq.refl mode.word)
  unfold Block.readLoop
  rw [Block.requiredWord_of_field hfield hword, Block.requiredWord_of_field hfield' hword]
  simp only [Reading.ofExcept_ok, pure_bind]
  refine (follows_valueIn hplug hplug' (condition.rereads _ _ _ hfrom hbelow hfrom') h (.refl _)).bind
    fun e e' env₁ env₁' hcovered₁ _ hpost => ?_
  refine (follows_statementsIn (forall₂_of_path hbody hfromBody hbelowBody hfromBody') hcovered₁).bind
    fun ss ss' env₂ env₂' hcovered₂ _ hstmts => ?_
  refine follows_node hcovered₂ fun made made' hmade hmade' => ?_
  rw [eq_of_makeLoop hmade, eq_of_makeLoop hmade']
  exact .loop hpost.1.below hstmts trivial

theorem rereads_count (w : Var) (first last step : Expr) (attrs : Attributes) (hbody : ∀ s ∈ body', s.Rereads) :
    (count w first last step body' attrs).Rereads := by
  intro q b b' hfrom hbelow hfrom'
  cases hbelow with | count hw hbelow₁ hbelow₂ hbelow₃ hbelowBody _ => ?_
  cases hfrom with | count htag hname _ _ hplug₁ hplug₂ hplug₃ hfrom₁ hfrom₂ hfrom₃ hfromBody => ?_
  cases hfrom' with | count htag' hname' _ _ hplug₁' hplug₂' hplug₃' hfrom₁' hfrom₂' hfrom₃' hfromBody' => ?_
  refine readBelow_of_rule (read_of_tag htag) (read_of_tag htag') fun env env' h => ?_
  unfold Block.readCount
  rw [requiredName_of_names hname, requiredName_of_names hname', hw.name]
  simp only [Reading.ofExcept_ok, pure_bind]
  refine (Reading.follows_bindType h (.refl _)).bind fun t t' env₁ env₁' hcovered₁ _ hbinds => ?_
  refine (follows_valueIn hplug₁ hplug₁' (first.rereads _ _ _ hfrom₁ hbelow₁ hfrom₁') hcovered₁ (.refl _)).bind
    fun e₁ e₁' env₂ env₂' hcovered₂ _ hpost₁ => ?_
  refine (follows_valueIn hplug₂ hplug₂' (last.rereads _ _ _ hfrom₂ hbelow₂ hfrom₂') hcovered₂ (.refl _)).bind
    fun e₂ e₂' env₃ env₃' hcovered₃ _ hpost₂ => ?_
  refine (follows_valueIn hplug₃ hplug₃' (step.rereads _ _ _ hfrom₃ hbelow₃ hfrom₃') hcovered₃ (.refl _)).bind
    fun e₃ e₃' env₄ env₄' hcovered₄ _ hpost₃ => ?_
  refine (follows_statementsIn (forall₂_of_path hbody hfromBody hbelowBody hfromBody') hcovered₄).bind
    fun ss ss' env₅ env₅' hcovered₅ _ hstmts => ?_
  refine (Block.follows_makeVar hcovered₅ hbinds.1).bind fun v v' env₆ env₆' hcovered₆ _ hv => ?_
  refine follows_node hcovered₆ fun made made' hmade hmade' => ?_
  rw [eq_of_makeCount hmade, eq_of_makeCount hmade']
  exact .count hv.1 hpost₁.1.below hpost₂.1.below hpost₃.1.below hstmts trivial

theorem rereads_forEach {σ : String → Ty} {w : Var} {list : Expr} (attrs : Attributes) (hw' : w.type = σ w.name)
    (hlist : list.Agrees σ) (hasked : list.type = .list w.type) (hbody : ∀ s ∈ body', s.Rereads) :
    (forEach w list body' attrs).Rereads := by
  intro q b b' hfrom hbelow hfrom'
  cases hbelow with | forEach hw hbelow hbelowBody _ => ?_
  cases hfrom with | forEach htag hname _ hplug hfrom hfromBody => ?_
  cases hfrom' with | forEach htag' hname' _ hplug' hfrom' hfromBody' => ?_
  refine readBelow_of_rule (read_of_tag htag) (read_of_tag htag') fun env env' h => ?_
  rw [Block.readForEach_eq, Block.readForEach_eq, requiredName_of_names hname, requiredName_of_names hname', hw.name]
  simp only [Reading.ofExcept_ok, pure_bind]
  refine (Reading.follows_lookup h w.name).bind fun known known' env₁ env₁' hcovered₁ _ hknown => ?_
  obtain ⟨rfl, hknown, hlookup⟩ := hknown
  refine (follows_valueIn hplug hplug' (list.rereads _ _ _ hfrom hbelow hfrom') hcovered₁ (.list hknown)).bind
    fun e e' env₂ env₂' hcovered₂ _ hpost => ?_
  obtain ⟨hseen, hknows, htold⟩ := hpost
  refine (Reading.follows_bindType hcovered₂ hseen.below.type.elementOrCaptured).bind
    fun t t' env₃ env₃' hcovered₃ hgrows₃ hbinds => ?_
  obtain ⟨ht, hbinds⟩ := hbinds
  refine (Reading.follows_linkElements hcovered₃ hseen.below (.of_eq hbinds.lookup) fun v hv => ?_).bind
    fun _ _ env₄ env₄' hcovered₄ _ _ => ?_
  · obtain ⟨⟨v', hv', hnames⟩, hframe⟩ := hseen.var v hv
    -- The list is not its own element, so that nothing was learned about the one from the other.
    have hne : v.name ≠ w.name := by
      intro heq
      subst hv'
      cases hlist with | var hself => ?_
      have hloop : σ w.name = .list (σ w.name) := calc
        σ w.name = v'.type := by rw [hself, hnames, heq]
        _ = .list w.type := hasked
        _ = .list (σ w.name) := by rw [hw']
      generalize σ w.name = t at hloop
      cases hloop
    rw [hbinds.frame v.name hne.symm]
    subst hv
    have hvar : (env₂'.lookup v.name).Refines v.type := hknows v (List.mem_singleton.mpr rfl)
    obtain ⟨element, hlookup₂, helement₂⟩ := (htold v rfl).exists_list
    rw [hlookup₂] at hvar ⊢
    refine .list (Ty.Refines.of_unify? ?_ hvar.elementOrCaptured hbinds.unified)
    rw [hframe w.name hne, ← hlookup]
    exact helement₂
  refine (follows_statementsIn (forall₂_of_path hbody hfromBody hbelowBody hfromBody') hcovered₄).bind
    fun ss ss' env₅ env₅' hcovered₅ _ hstmts => ?_
  refine (Block.follows_makeVar hcovered₅ ht).bind fun v v' env₆ env₆' hcovered₆ _ hv => ?_
  refine follows_node hcovered₆ fun made made' hmade hmade' => ?_
  rw [eq_of_makeForEach hmade, eq_of_makeForEach hmade']
  exact .forEach hv.1 hseen.below hstmts trivial

theorem rereads_wait (time : Expr) (attrs : Attributes) : (wait time attrs).Rereads := by
  intro q b b' hfrom hbelow hfrom'
  cases hbelow with | wait hbelow _ => ?_
  cases hfrom with | wait htag hplug hfrom => ?_
  cases hfrom' with | wait htag' hplug' hfrom' => ?_
  refine readBelow_of_rule (read_of_tag htag) (read_of_tag htag') fun env env' h => ?_
  unfold Block.readWait
  refine (follows_valueIn hplug hplug' (time.rereads _ _ _ hfrom hbelow hfrom') h (.refl _)).bind
    fun e e' env₁ env₁' hcovered₁ _ hpost => ?_
  refine follows_node hcovered₁ fun made made' hmade hmade' => ?_
  rw [eq_of_makeWait hmade, eq_of_makeWait hmade']
  exact .wait hpost.1.below trivial

theorem rereads_print (text : Expr) (attrs : Attributes) : (print text attrs).Rereads := by
  intro q b b' hfrom hbelow hfrom'
  cases hbelow with | print hbelow _ => ?_
  cases hfrom with | print htag hplug hfrom => ?_
  cases hfrom' with | print htag' hplug' hfrom' => ?_
  refine readBelow_of_rule (read_of_tag htag) (read_of_tag htag') fun env env' h => ?_
  unfold Block.readPrint
  refine (follows_valueIn hplug hplug' (text.rereads _ _ _ hfrom hbelow hfrom') h (.refl _)).bind
    fun e e' env₁ env₁' hcovered₁ _ hpost => ?_
  exact follows_pure hcovered₁ (.print hpost.1.below trivial)

theorem rereads_flow (choice : Flow) (attrs : Attributes) : (flow choice attrs).Rereads := by
  intro q b b' hfrom hbelow hfrom'
  cases hbelow
  cases hfrom with | flow htag hfield => ?_
  cases hfrom' with | flow htag' hfield' => ?_
  refine readBelow_of_rule (read_of_tag htag) (read_of_tag htag') fun env env' h => ?_
  rw [Block.readFlow_of_field hfield, Block.readFlow_of_field hfield']
  exact follows_pure h (.flow trivial)

/-! ## Choices -/

def BodyBelow (b b' : Block) (i j : Nat) : Prop :=
  Forall₂ ReadBelow (b.body (Block.branchSlot i)) (b'.body (Block.branchSlot j))

theorem follows_readBranches {indices indices' : List Nat}
    (hconditions : Forall₂ (fun i j => Expr.ItemBelow b b' (Block.conditionSlot i) (Block.conditionSlot j)) indices
      indices') (hbodies : Forall₂ (BodyBelow b b') indices indices') (h : env.CoveredBy env') :
    Follows env env' (b.readBranches (fun child _ => child.read) indices)
      (b'.readBranches (fun child _ => child.read) indices') fun read read' _ =>
      Forall₂ (Expr.Below fun _ _ => True) read.1 read'.1 ∧
        Forall₂ (Forall₂ (Below fun _ _ => True)) read.2 read'.2 := by
  induction hconditions generalizing env env' with
  | nil => exact follows_pure h ⟨.nil, .nil⟩
  | cons hcondition _ ih =>
    cases hbodies with | cons hbody hbodies => ?_
    obtain ⟨q', c, c', hplug, hplug', hread⟩ := hcondition
    unfold Block.readBranches
    refine (follows_valueIn hplug hplug' hread h (.refl _)).bind fun e e' env₁ env₁' hcovered₁ _ hpost => ?_
    refine (follows_statementsIn hbody hcovered₁).bind fun ss ss' env₂ env₂' hcovered₂ _ hstmts => ?_
    refine (ih hbodies hcovered₂).bind fun read read' env₃ env₃' hcovered₃ _ hlater => ?_
    exact follows_pure hcovered₃ ⟨.cons hpost.1.below hlater.1, .cons hstmts hlater.2⟩

theorem follows_readLast (hasElse : Bool) (hbody : Forall₂ ReadBelow (b.body "ELSE") (b'.body "ELSE"))
    (h : env.CoveredBy env') :
    Follows env env' (b.readLast (fun child _ => child.read) hasElse)
      (b'.readLast (fun child _ => child.read) hasElse) fun last last' _ =>
      last.isSome = last'.isSome ∧ Forall₂ (Below fun _ _ => True) (last.getD []) (last'.getD []) := by
  unfold Block.readLast
  cases hasElse with
  | false => exact follows_pure h ⟨rfl, .nil⟩
  | true =>
    refine (follows_statementsIn hbody h).bind fun ss ss' env₁ env₁' hcovered _ hstmts => ?_
    exact follows_pure hcovered ⟨rfl, hstmts⟩

theorem rereads_choose {branches : List (Expr × List Stmt)} {otherwise : Option (List Stmt)} (attrs : Attributes)
    (hbranches : ∀ body ∈ branches.map Prod.snd, ∀ s ∈ body, s.Rereads)
    (hotherwise : ∀ s ∈ otherwise.getD [], s.Rereads) : (choose branches otherwise attrs).Rereads := by
  intro q b b' hfrom hbelow hfrom'
  cases hbelow with | @choose bs _ _ _ _ _ hbelow hbelowBodies hisSome hbelowLast _ => ?_
  cases hfrom with | choose htag has hplugged hfrom hfromBodies hfromLast => ?_
  cases hfrom' with | choose htag' has' hplugged' hfrom' hfromBodies' hfromLast' => ?_
  refine readBelow_of_rule (read_of_tag htag) (read_of_tag htag') fun env env' h => ?_
  obtain ⟨⟨further, hfurther, hcount⟩, ⟨last, hlast, hasElse⟩, hslots⟩ := has
  obtain ⟨⟨further', hfurther', hcount'⟩, ⟨last', hlast', hasElse'⟩, hslots'⟩ := has'
  rw [Block.readChoose_eq, Block.readChoose_eq, hfurther, hfurther', hlast, hlast']
  simp only [Reading.ofExcept_ok, pure_bind]
  rw [← hcount, ← hcount', ← hasElse, ← hasElse', hslots, hslots', hisSome]
  rw [List.forall₂_map_left_iff] at hplugged hplugged'
  rw [List.forall₂_map_right_iff] at hfromBodies hfromBodies'
  have hchildren := Expr.forall₂_readBelow (fun e _ => e.rereads) hfrom hbelow hfrom'
  have hbodies : Forall₂ (BodyBelow b b') (List.range bs.length) (List.range branches.length) := by
    refine forall₂_of_path (fun body' hbody' _ _ _ hfrom hbelow hfrom' => ?_) hfromBodies hbelowBodies hfromBodies'
    exact forall₂_of_path (hbranches body' hbody') hfrom hbelow hfrom'
  refine (follows_readBranches (Expr.forall₂_itemBelow hplugged.flip hchildren hplugged'.flip) hbodies h).bind
    fun read read' env₁ env₁' hcovered₁ _ hread => ?_
  refine (follows_readLast _ (forall₂_of_path hotherwise hfromLast hbelowLast hfromLast') hcovered₁).bind
    fun final final' env₂ env₂' hcovered₂ _ hfinal => ?_
  refine follows_node hcovered₂ fun made made' hmade hmade' => ?_
  obtain ⟨rfl, n, hn, hn'⟩ := exists_of_makeChoose hmade
  obtain ⟨rfl, n', hlength, hlength'⟩ := exists_of_makeChoose hmade'
  refine below_choose (hn.trans hn'.symm) ?_ ?_ hfinal.1 hfinal.2 trivial
  · rw [List.map_fst_zip (hlength.trans hlength'.symm).le]
    exact hread.1
  · rw [List.map_snd_zip (hlength'.trans hlength.symm).le]
    exact hread.2

theorem rereads {σ : String → Ty} {q' : Stmt} (hq' : q'.Agrees σ) : q'.Rereads := by
  induction hq' with
  | assign => exact rereads_assign _ _ _
  | choose _ _ _ hbodies hotherwise => exact rereads_choose _ hbodies hotherwise
  | repeat' _ _ _ hbody => exact rereads_repeat _ _ hbody
  | loop _ _ _ hbody => exact rereads_loop _ _ _ hbody
  | count _ _ _ _ _ _ _ _ _ hbody => exact rereads_count _ _ _ _ _ hbody
  | forEach hw hlist hasked _ hbody => exact rereads_forEach _ hw hlist hasked hbody
  | flow => exact rereads_flow _ _
  | wait => exact rereads_wait _ _
  | print => exact rereads_print _ _

end Stmt

/-! ## Workspaces -/

namespace Block

variable {σ : String → Ty} {env env' : TypeEnv} {allowFloating : Bool}

theorem follows_readRoot {q q' : Root} {b b' : Block} (hq' : q'.Agrees σ) (hfrom : q.ComesFrom b)
    (hbelow : q.Below Attributes.Informs q') (hfrom' : q'.ComesFrom b') (h : env.CoveredBy env') :
    Follows env env' (b.readRoot allowFloating) (b'.readRoot allowFloating) fun root root' _ =>
      root.Below (fun _ _ => True) root' := by
  unfold readRoot
  cases q with
  | statements body =>
    cases q' with
    | value => cases hbelow
    | statements body' =>
      have hchain : Forall₂ Stmt.ReadBelow b.chain b'.chain :=
        forall₂_of_path (fun s hs => Stmt.rereads (hq' s hs)) hfrom hbelow hfrom'
      rw [chain_eq, chain_eq] at hchain
      cases hchain with | cons hread hreads => ?_
      refine (hread env env' h).bind fun p p' env₁ env₁' hcovered₁ _ hpost => ?_
      obtain ⟨s, s', rfl, rfl, hbelow⟩ := hpost
      refine (Stmt.follows_readStmts hreads hcovered₁).bind fun ss ss' env₂ env₂' hcovered₂ _ hstmts => ?_
      exact follows_pure hcovered₂ (.cons hbelow hstmts)
  | value e =>
    cases q' with
    | statements => cases hbelow
    | value e' =>
      refine (e'.rereads e b b' hfrom.1 hbelow hfrom'.1 env env' h).bind fun p p' env₁ env₁' hcovered₁ _ hpost => ?_
      obtain ⟨e, e', rfl, rfl, hseen⟩ := hpost
      dsimp only
      rw [hfrom.2, hfrom'.2]
      cases allowFloating with
      | true => exact follows_pure hcovered₁ hseen.below
      | false =>
        -- A value on a workspace was refused on the first side.
        intro root env₂ _ _ hyields
        cases hyields

theorem follows_readRoots {blocks blocks' : List Block} {roots roots' : List Root}
    (hroots' : ∀ root ∈ roots', root.Agrees σ) (hfrom : Forall₂ Root.ComesFrom roots blocks)
    (hbelow : Forall₂ (Root.Below Attributes.Informs) roots roots')
    (hfrom' : Forall₂ Root.ComesFrom roots' blocks') (h : env.CoveredBy env') :
    Follows env env' (readRoots allowFloating blocks) (readRoots allowFloating blocks') fun found found' _ =>
      Forall₂ (Root.Below fun _ _ => True) found found' := by
  refine Reading.follows_mapM (forall₂_of_path (fun q' hq' q b b' hfrom hbelow hfrom' => ?_) hfrom hbelow hfrom')
    (fun b b' hread => hread) h
  exact fun env env' h => follows_readRoot (hroots' q' hq') hfrom hbelow hfrom' h

end Block

end Blockwork
