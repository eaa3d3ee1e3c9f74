import Blockwork.Proofs.Rerendering

/-! # The order of the roots of a workspace

* `Program.ofBlocks_perm` says what another order of the roots can change: a type may stay open that was known
  before, and nothing else. If all list literals tell their types by themselves, then it changes nothing.
* `Program.lateElement_depends_on_order` is a workspace that is accepted in one order only.
-/

namespace Blockwork

set_option autoImplicit false

namespace Program

variable {blocks blocks' : List Block} {allowFloating : Bool} {p : Program} {σ τ : String → Ty}
variable {env settled : TypeEnv}

/-! ## One order -/

def TypedAs (blocks : List Block) (allowFloating : Bool) (τ : String → Ty) (root : Block → Root) : Prop :=
  ∀ b ∈ blocks, (root b).ComesFrom b ∧ (root b).Agrees τ ∧ Block.Takes allowFloating (root b)

variable {root : Block → Root} {roots : List Root}

theorem TypedAs.of_perm (h : TypedAs blocks allowFloating τ root) (hperm : blocks'.Perm blocks) :
    TypedAs blocks' allowFloating τ root :=
  fun b hb => h b (hperm.mem_iff.mp hb)

theorem TypedAs.exists_settled (h : TypedAs blocks allowFloating τ root) :
    ∃ roots env settled, (Block.readRoots allowFloating blocks).Yields {} roots env ∧ env.settle = .ok settled ∧
      env.Solution τ ∧ List.Forall₂ (fun found b => (root b).Found b found env) roots blocks := by
  have hpairs : ∀ pair ∈ blocks.map fun b => (root b, b),
      pair.1.ComesFrom pair.2 ∧ pair.1.Agrees τ ∧ Block.Takes allowFloating pair.1 := List.forall_mem_map.mpr h
  obtain ⟨roots, env, hread, hsolution, -, hfound⟩ := Block.infers_readRoots hpairs (TypeEnv.solution_empty τ)
  simp only [List.map_map, Function.comp_def, List.map_id'] at hread
  rw [List.forall₂_map_right_iff] at hfound
  obtain ⟨settled, hsettle⟩ := TypeEnv.settle_of_solvedBy hsolution.within hsolution.solved
  exact ⟨roots, env, settled, hread, hsettle, hsolution, hfound⟩

theorem settles_roots (htyped : ∀ b ∈ blocks, (root b).ComesFrom b ∧ (root b).TypedBy σ) (hwithin : settled.Within σ)
    (hfound : List.Forall₂ (fun found b => (root b).Found b found env) roots blocks) :
    Except.Settles (settled.lookup = σ ∧ ∀ b ∈ blocks, b.ListsTyped) (roots.mapM (Root.resolve settled))
      (blocks.map root) := by
  have hresolve : List.Forall₂ (fun found q => Except.Settles (Root.Meets (Expr.Known σ settled) (Stmt.Known σ settled)
      found q) (Root.resolve settled found) q) roots (blocks.map root) := by
    refine List.forall₂_map_right_iff.mpr (forall₂_of_mem hfound fun found _ b hb hfound => ?_)
    exact Root.settles_resolve Stmt.closes_known hwithin hfound.below (htyped b hb).1 (htyped b hb).2
  refine (Except.settles_mapM hresolve).mono fun hknown => ?_
  refine List.forall₂_map_right_iff.mpr (forall₂_of_mem hfound fun found _ b hb hfound => ?_)
  exact Root.meets_known hfound.below hknown.1 (hfound.known (hknown.2 b hb))

theorem ofBlocks_of_read {q : List Root} {known : Prop}
    (hread : (Block.readRoots allowFloating blocks).Yields {} roots env) (hsettle : env.settle = .ok settled)
    (h : Except.Settles known (roots.mapM (Root.resolve settled)) q) :
    Except.Settles known (ofBlocks blocks allowFloating) ⟨q⟩ := by
  unfold ofBlocks readFrom
  rw [hread]
  dsimp only
  unfold Program.resolve
  rw [hsettle, Except.ok_bind]
  exact h.bind (Except.settles_ok _)

/-! ## Two orders -/

theorem Accepted.exists_typedAs (h : Accepted blocks allowFloating p roots env settled) :
    ∃ root : Block → Root, TypedAs blocks allowFloating settled.lookup root ∧
      ∀ b ∈ blocks, (root b).TypedBy settled.lookup := by
  have hroot : ∀ b ∈ blocks, ∃ q : Root, q.ComesFrom b ∧ q.TypedBy settled.lookup ∧ Block.Takes allowFloating q := by
    intro b hb
    obtain ⟨q, hq, hfrom, -, -⟩ := exists_of_mem_right h.resolved hb
    exact ⟨q, hfrom, h.typedBy q hq, h.takes q hq⟩
  have : Nonempty Root := ⟨.statements []⟩
  choose! root hroot using hroot
  refine ⟨root, fun b hb => ?_, fun b hb => (hroot b hb).2.1⟩
  obtain ⟨hfrom, htyped, htakes⟩ := hroot b hb
  exact ⟨hfrom, htyped.agrees, htakes⟩

theorem TypedAs.exists_of_solution (h : TypedAs blocks allowFloating σ root) (hlists : ∀ b ∈ blocks, b.ListsTyped)
    (hfound : List.Forall₂ (fun found b => (root b).Found b found env) roots blocks) (hτ : env.Solution τ) :
    ∃ root', TypedAs blocks allowFloating τ root' := by
  have hroot : ∀ b ∈ blocks, ∃ q : Root, q.ComesFrom b ∧ q.Agrees τ ∧ Block.Takes allowFloating q := by
    intro b hb
    obtain ⟨found, -, hfound⟩ := exists_of_mem_right hfound hb
    obtain ⟨q, hfrom, hagrees, hbelow⟩ := hfound.typings (hlists b hb) τ hτ
    obtain ⟨-, -, htakes⟩ := h b hb
    exact ⟨q, hfrom, hagrees, (htakes.below hfound.below).above hbelow⟩
  have : Nonempty Root := ⟨.statements []⟩
  choose! root' hroot' using hroot
  exact ⟨root', hroot'⟩

theorem Accepted.settles_perm (h : Accepted blocks allowFloating p roots env settled) (hperm : blocks'.Perm blocks)
    (hroot : TypedAs blocks allowFloating settled.lookup root)
    (htyped : ∀ b ∈ blocks, (root b).TypedBy settled.lookup) :
    Except.Settles (∀ b ∈ blocks', b.ListsTyped) (ofBlocks blocks' allowFloating) ⟨blocks'.map root⟩ := by
  have hroot' : TypedAs blocks' allowFloating settled.lookup root := hroot.of_perm hperm
  have htyped' : ∀ b ∈ blocks', (root b).ComesFrom b ∧ (root b).TypedBy settled.lookup :=
    fun b hb => ⟨(hroot' b hb).1, htyped b (hperm.mem_iff.mp hb)⟩
  obtain ⟨roots', env', settled', hread', hsettle', hsolution', hfound'⟩ := hroot'.exists_settled
  have hleast := TypeEnv.settle_ok h.settle
  have hleast' := TypeEnv.settle_ok hsettle'
  have hwithin' : settled'.Within settled.lookup := hleast'.least _ hsolution'.within hsolution'.solved
  refine ofBlocks_of_read hread' hsettle' ((settles_roots htyped' hwithin' hfound').mono fun hlists => ⟨?_, hlists⟩)
  -- What was settled in the second order is a typing of the first one, so that it knows as much.
  obtain ⟨root'', hroot''⟩ := hroot'.exists_of_solution hlists hfound' ⟨hleast'.within, hleast'.solved⟩
  obtain ⟨roots₁, env₁, settled₁, hread₁, -, hsolution₁, -⟩ := (hroot''.of_perm hperm.symm).exists_settled
  have hsame : env₁ = env := by
    have hboth := hread₁.symm.trans h.read
    exact congrArg Prod.snd hboth
  rw [hsame] at hsolution₁
  exact (hleast.least _ hsolution₁.within hsolution₁.solved).lookup_eq hwithin'

theorem exists_settles_perm (hperm : blocks'.Perm blocks) (h : ofBlocks blocks allowFloating = .ok p) :
    ∃ root : Block → Root, p.roots = blocks.map root ∧
      Except.Settles (∀ b ∈ blocks', b.ListsTyped) (ofBlocks blocks' allowFloating) ⟨blocks'.map root⟩ := by
  obtain ⟨roots, env, settled, haccepted⟩ := exists_accepted h
  obtain ⟨root, hroot, htyped⟩ := haccepted.exists_typedAs
  refine ⟨root, ?_, haccepted.settles_perm hperm hroot htyped⟩
  rcases haccepted.settles_perm (.refl blocks) hroot htyped with hsame | ⟨-, t, id, herror⟩
  · rw [h] at hsame
    exact congrArg Program.roots (Except.ok.inj hsame)
  · rw [h] at herror
    cases herror

/-- Another order of the roots gives the same roots in that order, or leaves a type open. It leaves no type open if all
list literals tell their types by themselves. -/
theorem ofBlocks_perm (hperm : blocks'.Perm blocks) :
    (∀ p, ofBlocks blocks allowFloating = .ok p → ∃ root : Block → Root, p.roots = blocks.map root ∧
      (ofBlocks blocks' allowFloating = .ok ⟨blocks'.map root⟩ ∨
        ∃ t id, ofBlocks blocks' allowFloating = .error (.unresolved t id))) ∧
    ((∀ b ∈ blocks, b.ListsTyped) →
      ((∃ p, ofBlocks blocks allowFloating = .ok p) ↔ ∃ p, ofBlocks blocks' allowFloating = .ok p)) := by
  constructor
  · intro p h
    obtain ⟨root, hroots, hsettles⟩ := exists_settles_perm hperm h
    refine ⟨root, hroots, ?_⟩
    rcases hsettles with hok | ⟨-, hopen⟩
    · exact .inl hok
    · exact .inr hopen
  · intro hlists
    have hlists' : ∀ b ∈ blocks', b.ListsTyped := fun b hb => hlists b (hperm.mem_iff.mp hb)
    constructor
    · rintro ⟨p, h⟩
      obtain ⟨root, -, hok | ⟨hopen, -⟩⟩ := exists_settles_perm hperm h
      · exact ⟨_, hok⟩
      · exact absurd hlists' hopen
    · rintro ⟨p, h⟩
      obtain ⟨root, -, hok | ⟨hopen, -⟩⟩ := exists_settles_perm hperm.symm h
      · exact ⟨_, hok⟩
      · exact absurd hlists hopen

def listingBlock (id : String) (items : List (String × Block)) : Block :=
  { tag := Tag.list.name, attrs := { id }, values := items }

/-- A variable is set to another one, whose type is told by its place in a list that begins with a truth value. -/
def knownElement : List Block :=
  [settingBlock "b" "z" (readingBlock "h" "x"),
   settingBlock "a" "y" (listingBlock "l" [("ADD0", truthBlock "t"), ("ADD1", readingBlock "g" "x")])]

theorem listsTyped_knownElement : ∀ b ∈ knownElement, b.ListsTyped := by
  intro b hb c hc htag
  have hvalue : (listingBlock "l" [("ADD0", truthBlock "t"), ("ADD1", readingBlock "g" "x")]).value?
      (Block.itemSlot 0) = some (truthBlock "t") := by cbv
  have hfirst : (listingBlock "l" [("ADD0", truthBlock "t"), ("ADD1", readingBlock "g" "x")]).SaysType :=
    .first rfl hvalue (.plain (by decide) (by decide))
  have hreached : c ∈ knownElement.flatMap Block.reached := List.mem_flatMap.mpr ⟨b, hb, hc⟩
  simp only [knownElement, settingBlock, readingBlock, truthBlock, listingBlock, List.flatMap_cons, List.flatMap_nil,
    Block.reached, Block.reachedSlots, Block.reachedNext, List.append_nil, List.cons_append, List.nil_append,
    List.mem_cons, List.not_mem_nil, or_false] at hreached
  rcases hreached with rfl | rfl | rfl | rfl | rfl | rfl
  · exact absurd htag (by decide)
  · exact absurd htag (by decide)
  · exact absurd htag (by decide)
  · exact hfirst
  · exact absurd htag (by decide)
  · exact absurd htag (by decide)

theorem ofBlocks_perm_knownElement :
    knownElement.reverse.Perm knownElement ∧ (∀ b ∈ knownElement, b.ListsTyped) ∧
    ∃ p root, ofBlocks knownElement false = .ok p ∧ p.roots = knownElement.map root ∧
      ofBlocks knownElement.reverse false = .ok ⟨knownElement.reverse.map root⟩ := by
  have hperm : knownElement.reverse.Perm knownElement := List.reverse_perm knownElement
  obtain ⟨p, hp⟩ : ∃ p, ofBlocks knownElement false = .ok p := Except.exists_of_isOk (by decide +kernel)
  obtain ⟨hroots, haccepted⟩ := @ofBlocks_perm knownElement knownElement.reverse false hperm
  obtain ⟨root, hroot, hsame | ⟨t, id, hopen⟩⟩ := hroots p hp
  · exact ⟨hperm, listsTyped_knownElement, p, root, hp, hroot, hsame⟩
  · obtain ⟨p', hp'⟩ := (haccepted listsTyped_knownElement).mp ⟨p, hp⟩
    rw [hp'] at hopen
    cases hopen

/-- A variable is the only item of a list, and its type is told by another root. -/
def lateElement : List Block :=
  [settingBlock "a" "y" (listingBlock "l" [("ADD0", readingBlock "g" "x")]), settingBlock "b" "x" (truthBlock "n")]

/-- The type of the list stays open if the other root comes later. -/
theorem lateElement_depends_on_order :
    ofBlocks lateElement false = .error (.unresolved (.list .captured) "a") ∧
    ∃ p, ofBlocks lateElement.reverse false = .ok p :=
  ⟨by cbv, Except.exists_of_isOk (by decide +kernel)⟩

end Program

end Blockwork
