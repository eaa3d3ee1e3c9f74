import Blockwork.Proofs.Factories

/-! # Nodes that cannot be resolved

Whatever the environment says, a node that was read resolves to a well-typed node of the same block, or to an error
that names a block. No node is refused.
-/

namespace Blockwork

set_option autoImplicit false

open List (Forall₂ forall_mem_cons)
open Blockwork.Except (Sound sound_error sound_ok)

theorem Var.sound_resolve {ids : List String} {v : Var} (env : TypeEnv)
    (hname : (Text.strip v.name.toList).isEmpty = false) (hid : v.attrs.id ∈ ids) :
    Sound ids (v.resolve env) fun v' =>
      v'.name = v.name ∧ v'.attrs = v.attrs ∧ v'.type.Refines v.type := by
  unfold Var.resolve
  split
  · exact sound_error ⟨v.attrs.id, hid, rfl⟩
  · next t ht =>
    split
    · rw [Block.makeVar_of_visible hname]
      exact sound_ok ⟨rfl, rfl, Ty.unify?_refines_left ht⟩
    · exact sound_error ⟨v.attrs.id, hid, rfl⟩

/-! ## Expressions -/

namespace Expr

/-- Wherever the expression comes from, it resolves to an expression of the same block, or to an error that names a
block. -/
def ResolvesSoundly (env : TypeEnv) (e : Expr) : Prop :=
  ∀ b expected, e.ComesFrom b → Sound b.ids (e.resolve env expected) (ComesFrom · b)

variable {env : TypeEnv}

section Items

variable {ids : List String} {items : List Expr} {children : List Block}
  (hresolve : ∀ e ∈ items, e.ResolvesSoundly env) (hfrom : Forall₂ ComesFrom items children)
  (hids : ∀ c ∈ children, c.ids ⊆ ids)

include hresolve hfrom hids

theorem sound_resolveAll : Sound ids (resolveAll env items) fun items' => Forall₂ ComesFrom items' children := by
  induction hfrom with
  | nil =>
    rw [resolveAll]
    exact sound_ok .nil
  | @cons e c rest cs he _ ih =>
    obtain ⟨hc, hcs⟩ := forall_mem_cons.mp hids
    rw [resolveAll]
    refine ((hresolve e List.mem_cons_self c .captured he).mono hc).bind fun e' _ he' => ?_
    refine (ih (fun e he => hresolve e (List.mem_cons_of_mem _ he)) hcs).bind fun others _ hothers => ?_
    exact sound_ok (.cons he' hothers)

theorem sound_resolveElements (element : Ty) :
    Sound ids (resolveElements env element items) fun resolved =>
      Forall₂ ComesFrom resolved.2 children := by
  induction hfrom generalizing element with
  | nil =>
    rw [resolveElements]
    exact sound_ok .nil
  | @cons e c rest cs he _ ih =>
    obtain ⟨hc, hcs⟩ := forall_mem_cons.mp hids
    rw [resolveElements]
    refine ((hresolve e List.mem_cons_self c element he).mono hc).bind fun e' _ he' => ?_
    cases ht : Ty.unify? element e'.type with
    | none => exact sound_error ⟨e'.id, hc he'.id_mem, rfl⟩
    | some t =>
      refine (ih (fun e he => hresolve e (List.mem_cons_of_mem _ he)) hcs t).bind fun resolved _ hresolved => ?_
      exact sound_ok (.cons he' hresolved)

end Items

variable {ids : List String} {e : Expr} {items : List Expr}

theorem ResolvesSoundly.expect {α : Type} {c : Block} {hint expected : Ty}
    {f : Expr → Except Error α} {R : α → Prop} (h : e.ResolvesSoundly env) (hfrom : e.ComesFrom c) (hids : c.ids ⊆ ids)
    (hf : ∀ q, q.ComesFrom c → q.type.Refines expected → Sound ids (f q) R) :
    Sound ids (e.resolve env hint >>= fun q => q.expect expected >>= f) R := by
  refine ((h c hint hfrom).mono hids).bind fun q hq hfromQ => ?_
  unfold Expr.expect
  split
  · next haccepts =>
    exact hf q hfromQ (Ty.refines_of_accepts haccepts (e.resolvesWell env hq).wellTyped.isConcrete)
  · exact sound_error ⟨q.id, hids hfromQ.id_mem, rfl⟩

theorem resolvesSoundly_var (v : Var) : (var v).ResolvesSoundly env := by
  intro b expected h
  cases h with | var tag name declared attrs => ?_
  have hid : v.attrs.id ∈ b.ids := attrs ▸ b.id_mem_ids
  rw [resolve]
  refine (v.sound_resolve env name.visible hid).bind fun v' _ hv' => ?_
  obtain ⟨hname, hattrs, htype⟩ := hv'
  exact sound_ok (.var tag (hname ▸ name) (declared.mono htype) (hattrs.trans attrs))

theorem resolvesSoundly_binary {op : BinaryOp} {left right : Expr} (attrs : Attributes)
    (ihl : left.ResolvesSoundly env) (ihr : right.ResolvesSoundly env) :
    (binary op left right attrs).ResolvesSoundly env := by
  intro b expected h
  cases h with | binary tag field hl hr fromLeft fromRight => ?_
  rw [resolve]
  cases hints op left right with | mk leftHint rightHint => ?_
  refine ihl.expect fromLeft hl.ids fun left' hleft typeLeft => ?_
  refine ihr.expect fromRight hr.ids fun right' hright typeRight => ?_
  split
  · next haccepts =>
    rw [Block.makeBinary_of_accepts typeLeft.accepted typeRight.accepted b.nodeAttrs haccepts]
    exact sound_ok (.binary tag field hl hr hleft hright)
  · exact sound_error ⟨b.id, b.id_mem_ids, rfl⟩

theorem resolvesSoundly_unary {op : UnaryOp} {operand : Expr} (attrs : Attributes)
    (ih : operand.ResolvesSoundly env) : (unary op operand attrs).ResolvesSoundly env := by
  intro b expected h
  cases h with | unary tag field plugged fromOperand => ?_
  rw [resolve]
  refine ih.expect fromOperand plugged.ids fun operand' hoperand type => ?_
  have hmade : makeUnary op operand' b.nodeAttrs = .ok (.unary op operand' b.nodeAttrs) :=
    if_pos type.accepted
  rw [hmade]
  exact sound_ok (.unary tag field plugged hoperand)

theorem resolvesSoundly_list {element : Ty} (attrs : Attributes)
    (ih : ∀ e ∈ items, e.ResolvesSoundly env) : (list element items attrs).ResolvesSoundly env := by
  intro b expected h
  cases h with | list tag declared holds fromItems => ?_
  rw [resolve]
  refine (sound_resolveElements ih fromItems (fun c hc => Block.ids_of_plugged holds.plugged hc)
    (startElement element expected)).bind fun resolved hresolved fromItems' => ?_
  obtain ⟨final, items'⟩ := resolved
  obtain ⟨hfinal, -, hitems⟩ := outcomes_of_resolveElements (fun e _ => e.resolvesWell env) hresolved
  dsimp only
  split
  · rw [makeList_of_refines hitems]
    have hrefines : final.Refines element := hfinal.trans (startElement_refines element expected)
    exact sound_ok (.list tag (declared.mono hrefines) holds fromItems')
  · exact sound_error ⟨b.id, b.id_mem_ids, rfl⟩

theorem resolvesSoundly_length {operand : Expr} (attrs : Attributes) (ih : operand.ResolvesSoundly env) :
    (length operand attrs).ResolvesSoundly env := by
  intro b expected h
  cases h with | length tag plugged fromList => ?_
  rw [resolve]
  refine ih.expect fromList plugged.ids fun operand' hoperand type => ?_
  obtain ⟨t, ht, -⟩ := type.exists_list
  have hmade : makeLength operand' b.nodeAttrs = .ok (.length operand' b.nodeAttrs) := by
    unfold makeLength
    rw [ht]
  rw [hmade]
  exact sound_ok (.length tag plugged hoperand)

theorem resolvesSoundly_join (attrs : Attributes)
    (ih : ∀ e ∈ items, e.ResolvesSoundly env) : (join items attrs).ResolvesSoundly env := by
  intro b expected h
  cases h with | join tag holds fromItems => ?_
  rw [resolve]
  refine (sound_resolveAll ih fromItems fun c hc => Block.ids_of_plugged holds.plugged hc).bind
    fun items' _ hitems => ?_
  exact sound_ok (.join tag holds hitems)

theorem sound_resolve (env : TypeEnv) (e : Expr) : e.ResolvesSoundly env := by
  induction e with
  | var v => exact resolvesSoundly_var v
  | number | boolean | text => exact fun b _ h => sound_ok h
  | binary _ _ _ attrs ihl ihr => exact resolvesSoundly_binary attrs ihl ihr
  | unary _ _ attrs ih => exact resolvesSoundly_unary attrs ih
  | list _ _ attrs ih => exact resolvesSoundly_list attrs ih
  | length _ attrs ih => exact resolvesSoundly_length attrs ih
  | join _ attrs ih => exact resolvesSoundly_join attrs ih

theorem sound_resolveAs {b : Block} (h : e.ComesFrom b) (expected : Ty) (hids : b.ids ⊆ ids) :
    Sound ids (e.resolveAs env expected) fun q => q.ComesFrom b ∧ q.type.Refines expected := by
  unfold resolveAs
  rw [← bind_pure (e.resolve env expected >>= _), bind_assoc]
  exact (sound_resolve env e).expect h hids fun q hq htype => sound_ok ⟨hq, htype⟩

end Expr

/-! ## Statements -/

namespace Stmt

def ResolvesSoundly (env : TypeEnv) (s : Stmt) : Prop :=
  ∀ b, s.ComesFrom b → Sound b.ids (s.resolve env) (ComesFrom · b)

variable {env : TypeEnv}

variable {body : List Stmt}

theorem sound_resolveAll {ids : List String} {blocks : List Block}
    (hresolve : ∀ s ∈ body, s.ResolvesSoundly env) (hfrom : Forall₂ ComesFrom body blocks)
    (hids : ∀ c ∈ blocks, c.ids ⊆ ids) :
    Sound ids (resolveAll env body) fun body' => Forall₂ ComesFrom body' blocks := by
  induction hfrom with
  | nil =>
    rw [resolveAll]
    exact sound_ok .nil
  | @cons s c rest cs hs _ ih =>
    obtain ⟨hc, hcs⟩ := forall_mem_cons.mp hids
    rw [resolveAll]
    refine ((hresolve s List.mem_cons_self c hs).mono hc).bind fun s' _ hs' => ?_
    refine (ih (fun s hs => hresolve s (List.mem_cons_of_mem _ hs)) hcs).bind fun others _ hothers => ?_
    exact sound_ok (.cons hs' hothers)

theorem sound_resolveBody {b : Block} {slot : String}
    (hresolve : ∀ s ∈ body, s.ResolvesSoundly env) (hfrom : Forall₂ ComesFrom body (b.body slot)) :
    Sound b.ids (resolveAll env body) fun body' => Forall₂ ComesFrom body' (b.body slot) :=
  sound_resolveAll hresolve hfrom fun _ hc => Block.ids_of_mem_body hc

theorem resolvesSoundly_assign (target : Var) (value : Expr) (attrs : Attributes) :
    (assign target value attrs).ResolvesSoundly env := by
  intro b h
  cases h with | assign tag name declared hattrs plugged fromValue => ?_
  have hid : target.attrs.id ∈ b.ids := hattrs ▸ b.id_mem_ids
  rw [resolve]
  refine (target.sound_resolve env name.visible hid).bind fun target' _ htarget => ?_
  obtain ⟨hname, hattrs', htype⟩ := htarget
  refine (Expr.sound_resolveAs fromValue target'.type plugged.ids).bind fun value' _ hvalue => ?_
  have hmade : makeAssign target' value' b.nodeAttrs = .ok (.assign target' value' b.nodeAttrs) :=
    if_pos hvalue.2.accepted
  rw [hmade]
  exact sound_ok (.assign tag (hname ▸ name) (declared.mono htype) (hattrs'.trans hattrs) plugged hvalue.1)

theorem resolvesSoundly_repeat (times : Expr) (attrs : Attributes)
    (ih : ∀ s ∈ body, s.ResolvesSoundly env) : (Stmt.repeat times body attrs).ResolvesSoundly env := by
  intro b h
  cases h with | repeat' tag plugged fromTimes fromBody => ?_
  rw [resolve]
  refine (Expr.sound_resolveAs fromTimes .number plugged.ids).bind fun times' _ htimes => ?_
  refine (sound_resolveBody ih fromBody).bind fun body' _ hbody => ?_
  have hmade : makeRepeat times' body' b.nodeAttrs = .ok (.repeat times' body' b.nodeAttrs) :=
    if_pos htimes.2.accepted
  rw [hmade]
  exact sound_ok (.repeat' tag plugged htimes.1 hbody)

theorem resolvesSoundly_loop (mode : LoopMode) (condition : Expr) (attrs : Attributes)
    (ih : ∀ s ∈ body, s.ResolvesSoundly env) : (loop mode condition body attrs).ResolvesSoundly env := by
  intro b h
  cases h with | loop tag field plugged fromCondition fromBody => ?_
  rw [resolve]
  refine (Expr.sound_resolveAs fromCondition .boolean plugged.ids).bind fun condition' _ hcondition => ?_
  refine (sound_resolveBody ih fromBody).bind fun body' _ hbody => ?_
  have hmade : makeLoop mode condition' body' b.nodeAttrs =
      .ok (.loop mode condition' body' b.nodeAttrs) := if_pos hcondition.2.accepted
  rw [hmade]
  exact sound_ok (.loop tag field plugged hcondition.1 hbody)

theorem resolvesSoundly_count (counter : Var) (first last step : Expr)
    (attrs : Attributes) (ih : ∀ s ∈ body, s.ResolvesSoundly env) :
    (count counter first last step body attrs).ResolvesSoundly env := by
  intro b h
  cases h with | count tag name type hattrs hfirst hlast hstep fromFirst fromLast fromStep fromBody => ?_
  have hid : counter.attrs.id ∈ b.ids := hattrs ▸ b.id_mem_ids
  rw [resolve]
  refine (counter.sound_resolve env name.visible hid).bind fun counter' _ hcounter => ?_
  obtain ⟨hname, hattrs', htype⟩ := hcounter
  refine (Expr.sound_resolveAs fromFirst .number hfirst.ids).bind fun first' _ resolvedFirst => ?_
  refine (Expr.sound_resolveAs fromLast .number hlast.ids).bind fun last' _ resolvedLast => ?_
  refine (Expr.sound_resolveAs fromStep .number hstep.ids).bind fun step' _ resolvedStep => ?_
  refine (sound_resolveBody ih fromBody).bind fun body' _ hbody => ?_
  have numberCounter : counter'.type = .number := (type ▸ htype).eq_of_isConcrete rfl
  rw [makeCount_of_types numberCounter (resolvedFirst.2.eq_of_isConcrete rfl)
    (resolvedLast.2.eq_of_isConcrete rfl) (resolvedStep.2.eq_of_isConcrete rfl)]
  exact sound_ok (.count tag (hname ▸ name) numberCounter (hattrs'.trans hattrs) hfirst hlast hstep
    resolvedFirst.1 resolvedLast.1 resolvedStep.1 hbody)

theorem resolvesSoundly_forEach (item : Var) (list : Expr) (attrs : Attributes)
    (ih : ∀ s ∈ body, s.ResolvesSoundly env) : (forEach item list body attrs).ResolvesSoundly env := by
  intro b h
  cases h with | forEach tag name hattrs plugged fromList fromBody => ?_
  have hid : item.attrs.id ∈ b.ids := hattrs ▸ b.id_mem_ids
  rw [resolve]
  refine (item.sound_resolve env name.visible hid).bind fun item' _ hitem => ?_
  obtain ⟨hname, hattrs', -⟩ := hitem
  refine (Expr.sound_resolveAs fromList (.list item'.type) plugged.ids).bind fun list' _ hlist => ?_
  refine (sound_resolveBody ih fromBody).bind fun body' _ hbody => ?_
  have hmade : makeForEach item' list' body' b.nodeAttrs =
      .ok (.forEach item' list' body' b.nodeAttrs) := if_pos hlist.2.accepted
  rw [hmade]
  exact sound_ok (.forEach tag (hname ▸ name) (hattrs'.trans hattrs) plugged hlist.1 hbody)

theorem resolvesSoundly_wait (time : Expr) (attrs : Attributes) : (wait time attrs).ResolvesSoundly env := by
  intro b h
  cases h with | wait tag plugged fromTime => ?_
  rw [resolve]
  refine (Expr.sound_resolveAs fromTime .number plugged.ids).bind fun time' _ htime => ?_
  have hmade : makeWait time' b.nodeAttrs = .ok (.wait time' b.nodeAttrs) := if_pos htime.2.accepted
  rw [hmade]
  exact sound_ok (.wait tag plugged htime.1)

theorem resolvesSoundly_print (text : Expr) (attrs : Attributes) : (print text attrs).ResolvesSoundly env := by
  intro b h
  cases h with
  | print tag plugged fromText =>
    rw [resolve]
    refine ((Expr.sound_resolve env text _ .captured fromText).mono plugged.ids).bind fun text' _ htext => ?_
    exact sound_ok (.print tag plugged htext)

/-! ## Choices -/

structure BranchesFrom (children : List Block) (chains : List (List Block)) (conditions : List Expr)
    (bodies : List (List Stmt)) : Prop where
  fromConditions : Forall₂ Expr.ComesFrom conditions children
  fromBodies : Forall₂ (Forall₂ ComesFrom) bodies chains
  accepted : ∀ e ∈ conditions, Ty.boolean.accepts e.type = true

theorem sound_resolveBranches {ids : List String} {branches : List (Expr × List Stmt)}
    {children : List Block} {chains : List (List Block)}
    (hresolve : ∀ branch ∈ branches, ∀ s ∈ branch.2, s.ResolvesSoundly env)
    (fromConditions : Forall₂ Expr.ComesFrom (branches.map Prod.fst) children)
    (fromBodies : Forall₂ (Forall₂ ComesFrom) (branches.map Prod.snd) chains)
    (hids : ∀ c ∈ children, c.ids ⊆ ids) (hids' : ∀ cs ∈ chains, ∀ c ∈ cs, c.ids ⊆ ids) :
    Sound ids (resolveBranches env branches) fun resolved =>
      BranchesFrom children chains resolved.1 resolved.2 := by
  induction branches generalizing children chains with
  | nil =>
    cases fromConditions
    cases fromBodies
    rw [resolveBranches]
    exact sound_ok ⟨.nil, .nil, List.forall_mem_nil _⟩
  | cons branch rest ih =>
    obtain ⟨condition, body⟩ := branch
    cases fromConditions with | @cons _ c _ cs fromCondition fromConditions => ?_
    cases fromBodies with | @cons _ chain _ chains fromBody fromBodies => ?_
    obtain ⟨hc, hcs⟩ := forall_mem_cons.mp hids
    obtain ⟨hchain, hchains⟩ := forall_mem_cons.mp hids'
    obtain ⟨hhere, hrest⟩ := forall_mem_cons.mp hresolve
    rw [resolveBranches]
    refine (Expr.sound_resolveAs fromCondition .boolean hc).bind fun condition' _ hcondition => ?_
    refine (sound_resolveAll hhere fromBody hchain).bind fun body' _ hbody => ?_
    refine (ih hrest fromConditions fromBodies hcs hchains).bind fun resolved _ hresolved => ?_
    exact sound_ok ⟨.cons hcondition.1 hresolved.fromConditions, .cons hbody hresolved.fromBodies,
      forall_mem_cons.mpr ⟨hcondition.2.accepted, hresolved.accepted⟩⟩

theorem sound_resolveOtherwise {b : Block} {otherwise : Option (List Stmt)}
    (hresolve : ∀ body, otherwise = some body → ∀ s ∈ body, s.ResolvesSoundly env)
    (hfrom : Forall₂ ComesFrom (otherwise.getD []) (b.body "ELSE")) :
    Sound b.ids (resolveOtherwise env otherwise) fun otherwise' =>
      otherwise'.isSome = otherwise.isSome ∧ Forall₂ ComesFrom (otherwise'.getD []) (b.body "ELSE") := by
  cases otherwise with
  | none =>
    rw [resolveOtherwise]
    exact sound_ok ⟨rfl, hfrom⟩
  | some body =>
    rw [resolveOtherwise]
    refine (sound_resolveBody (hresolve body rfl) hfrom).bind fun body' _ hbody => ?_
    exact sound_ok ⟨rfl, hbody⟩

theorem resolvesSoundly_choose {branches : List (Expr × List Stmt)} {otherwise : Option (List Stmt)}
    (attrs : Attributes) (ih : ∀ branch ∈ branches, ∀ s ∈ branch.2, s.ResolvesSoundly env)
    (ih' : ∀ body, otherwise = some body → ∀ s ∈ body, s.ResolvesSoundly env) :
    (choose branches otherwise attrs).ResolvesSoundly env := by
  intro b h
  cases h with | choose tag has plugged fromConditions fromBodies fromOtherwise => ?_
  rw [resolve]
  have hids : ∀ cs ∈ (List.range branches.length).map fun i => b.body (Block.branchSlot i),
      ∀ c ∈ cs, c.ids ⊆ b.ids := by
    intro cs hcs c hc
    obtain ⟨i, -, rfl⟩ := List.mem_map.mp hcs
    exact Block.ids_of_mem_body hc
  refine (sound_resolveBranches ih fromConditions fromBodies
    (fun c hc => Block.ids_of_plugged plugged hc) hids).bind fun resolved _ hresolved => ?_
  obtain ⟨conditions, bodies⟩ := resolved
  refine (sound_resolveOtherwise ih' fromOtherwise).bind fun otherwise' _ hotherwise => ?_
  obtain ⟨m, -, hm⟩ := has.further
  have hconditions : conditions.length = m.getD 0 + 1 := by
    rw [hresolved.fromConditions.length_eq, ← plugged.length_eq, List.length_map, List.length_range, hm]
  have hbodies : bodies.length = m.getD 0 + 1 := by
    rw [hresolved.fromBodies.length_eq, List.length_map, List.length_range, hm]
  rw [Block.makeChoose_of_accepts hconditions hbodies hresolved.accepted]
  exact sound_ok (comesFrom_choose tag (hotherwise.1 ▸ has) plugged hresolved.fromConditions
    hresolved.fromBodies hotherwise.2)

theorem sound_resolve (env : TypeEnv) (s : Stmt) : s.ResolvesSoundly env := by
  induction s with
  | assign target value attrs => exact resolvesSoundly_assign target value attrs
  | choose _ _ attrs ih ih' => exact resolvesSoundly_choose attrs ih ih'
  | repeat' times _ attrs ih => exact resolvesSoundly_repeat times attrs ih
  | loop mode condition _ attrs ih => exact resolvesSoundly_loop mode condition attrs ih
  | count counter first last step _ attrs ih => exact resolvesSoundly_count counter first last step attrs ih
  | forEach item list _ attrs ih => exact resolvesSoundly_forEach item list attrs ih
  | flow choice attrs => exact fun b h => sound_ok h
  | wait time attrs => exact resolvesSoundly_wait time attrs
  | print text attrs => exact resolvesSoundly_print text attrs

end Stmt

/-! ## Roots -/

theorem Root.sound_resolve {root : Root} {b : Block} (h : root.ComesFrom b) (env : TypeEnv) :
    Sound b.ids (root.resolve env) (ComesFrom · b) := by
  cases root with
  | statements body =>
    unfold Root.resolve
    have hids : ∀ c ∈ b.chain, c.ids ⊆ b.ids := fun c hc =>
      Block.ids_subset (Block.reached_of_mem_chain hc)
    refine (Stmt.sound_resolveAll (fun s _ => s.sound_resolve env) h hids).bind fun body' _ hbody => ?_
    exact sound_ok hbody
  | value e =>
    unfold Root.resolve
    refine (Expr.sound_resolve env e b .captured h.1).bind fun e' _ he => ?_
    exact sound_ok ⟨he, h.2⟩

end Blockwork
