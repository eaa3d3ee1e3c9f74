import Blockwork.Proofs.AnnotationStatements
import Blockwork.Proofs.RereadingStatements
import Blockwork.Proofs.Reresolving
import Blockwork.Proofs.RoundTrip

/-! # Rendering is settled after one time

A program that was read from a workspace is rendered as a workspace that is accepted too, and is rendered as
itself from then on.
-/

namespace Blockwork

set_option autoImplicit false

variable {env settled : TypeEnv}

theorem TypeEnv.CoveredBy.lookup_eq {env' settled' : TypeEnv} (h : env.CoveredBy env')
    (hsolution : env'.Solution settled.lookup) (hsettled : LeastSolution env settled)
    (hsettled' : LeastSolution env' settled') : settled'.lookup = settled.lookup := by
  have hbelow : settled'.Within settled.lookup := hsettled'.least _ hsolution.within hsolution.solved
  have habove : settled.Within settled'.lookup :=
    hsettled.least _ (h.known.trans hsettled'.within) (h.implied _ ⟨hsettled'.within, hsettled'.solved⟩)
  funext name
  exact (habove name).antisymm (hbelow name)

theorem Root.typedBy_of_wellTyped {σ : String → Ty} {q : Root} (h : q.WellTyped)
    (hvars : ∀ v ∈ q.vars, v.type = σ v.name) : q.TypedBy σ := by
  cases q with
  | statements body => exact Stmt.typedBy_body.mpr ⟨h, hvars⟩
  | value e => exact ⟨h, hvars⟩

namespace Program

variable {blocks : List Block} {allowFloating : Bool} {p : Program}
variable {roots : List Root}

theorem Accepted.typedBy (h : Accepted blocks allowFloating p roots env settled) :
    ∀ q ∈ p.roots, q.TypedBy settled.lookup := by
  intro q hq
  obtain ⟨b, -, -, hwellTyped, hvars⟩ := exists_of_mem_left h.resolved hq
  exact Root.typedBy_of_wellTyped hwellTyped fun v hv => (hvars v hv).1

theorem Accepted.takes (h : Accepted blocks allowFloating p roots env settled) :
    ∀ q ∈ p.roots, Block.Takes allowFloating q := by
  intro q hq
  obtain ⟨found, hfound, hresolve⟩ := exists_of_mem_right h.resolve hq
  exact (Block.takes_of_readRoots h.read found hfound).of_resolve hresolve

theorem exists_read_of_agrees {σ : String → Ty} (hfrom : List.Forall₂ Root.ComesFrom roots blocks)
    (hroots : ∀ root ∈ roots, root.Agrees σ ∧ Block.Takes allowFloating root) :
    ∃ found env, (Block.readRoots allowFloating blocks).Yields {} found env ∧ env.Solution σ ∧
      List.Forall₂ (Root.Below Eq) found roots := by
  have hpairs : ∀ pair ∈ roots.zip blocks,
      pair.1.ComesFrom pair.2 ∧ pair.1.Agrees σ ∧ Block.Takes allowFloating pair.1 :=
    fun pair hpair => ⟨List.forall₂_zip hfrom hpair, hroots _ (List.of_mem_zip hpair).1⟩
  obtain ⟨found, env, hread, hsolution, -, hfound⟩ := Block.infers_readRoots hpairs (TypeEnv.solution_empty σ)
  rw [List.map_snd_zip hfrom.length_eq.ge] at hread
  refine ⟨found, env, hread, hsolution, ?_⟩
  rw [← List.map_fst_zip hfrom.length_eq.le, List.forall₂_map_right_iff]
  exact hfound.imp fun _ _ hfound => hfound.below

theorem exists_annotates_roots (hfrom : List.Forall₂ Root.ComesFrom p.roots blocks)
    (hblocks : ∀ b ∈ blocks, b.Countable) : ∃ roots', List.Forall₂ Root.Annotates roots' p.roots := by
  generalize p.roots = roots at hfrom
  induction hfrom with
  | nil => exact ⟨[], .nil⟩
  | cons hfrom _ ih =>
    obtain ⟨hblock, hblocks⟩ := List.forall_mem_cons.mp hblocks
    obtain ⟨root', hroot'⟩ := Root.exists_annotates hfrom hblock
    obtain ⟨rest', hrest'⟩ := ih hblocks
    exact ⟨root' :: rest', .cons hroot' hrest'⟩

theorem toBlocks_of_annotates {p' : Program} (h : List.Forall₂ Root.Annotates p'.roots p.roots) :
    p'.toBlocks = p.toBlocks := by
  unfold toBlocks
  generalize p'.roots = roots' at h
  generalize p.roots = roots at h
  induction h with
  | nil => rfl
  | cons hhead _ ih => rw [List.filterMap_cons, List.filterMap_cons, hhead.toBlock?_eq, ih]

/-- What an accepted workspace is rendered as is accepted as well, and is rendered as itself. No count of
values is out of the range of machine numbers. -/
theorem ofBlocks_toBlocks? (h : ofBlocks blocks allowFloating = .ok p)
    (hcountable : ∀ b ∈ blocks, b.Countable) :
    ∃ rendered, p.toBlocks? = .ok rendered ∧
      ∃ p', ofBlocks rendered allowFloating = .ok p' ∧ p'.toBlocks? = .ok rendered := by
  obtain ⟨roots, env, settled, haccepted⟩ := exists_accepted h
  have hfrom : List.Forall₂ Root.ComesFrom p.roots blocks := haccepted.resolved.imp fun _ _ => And.left
  obtain ⟨roots', hroots'⟩ := exists_annotates_roots hfrom hcountable
  have hfrom' : List.Forall₂ Root.ComesFrom roots' p.toBlocks :=
    forall₂_toBlocks (hroots'.imp fun _ _ => Root.Annotates.comesFrom)
  have hinforms : List.Forall₂ (Root.Below Attributes.Informs) p.roots roots' :=
    hroots'.flip.imp fun _ _ => Root.Annotates.informs
  have htyped : ∀ root ∈ roots', root.TypedBy settled.lookup := by
    intro root hroot
    obtain ⟨q, hq, hbelow⟩ := exists_of_mem_right hinforms hroot
    exact hbelow.typedBy (haccepted.typedBy q hq)
  have htakes : ∀ root ∈ roots', Block.Takes allowFloating root := by
    intro root hroot
    obtain ⟨q, hq, hbelow⟩ := exists_of_mem_right hinforms hroot
    exact (haccepted.takes q hq).above hbelow
  -- The rendered workspace is read because it has a typing, and by a run that knows at least as much at every step.
  obtain ⟨found', env', hread', hsolution, habove⟩ :=
    exists_read_of_agrees hfrom' fun root hroot => ⟨(htyped root hroot).agrees, htakes root hroot⟩
  obtain ⟨hcovered, -, hbelow⟩ := Block.follows_readRoots (fun root hroot => (htyped root hroot).agrees) hfrom hinforms
    hfrom' (.refl {}) _ _ _ _ haccepted.read hread'
  obtain ⟨settled', hsettle'⟩ := TypeEnv.settle_of_solvedBy hsolution.within hsolution.solved
  have hlookup : settled'.lookup = settled.lookup :=
    hcovered.lookup_eq hsolution (TypeEnv.settle_ok haccepted.settle) (TypeEnv.settle_ok hsettle')
  have hresolve : found'.mapM (Root.resolve settled') = .ok roots' :=
    Root.resolveAll_of_below hbelow habove hinforms hfrom' (hlookup ▸ htyped) haccepted.resolve
  have haccepted' : Accepted p.toBlocks allowFloating ⟨roots'⟩ found' env' settled' :=
    ⟨hread', hsettle', Except.mapM_ok_iff.mp hresolve⟩
  refine ⟨p.toBlocks, toBlocks?_eq_ok hfrom, ⟨roots'⟩, ofBlocks_of_accepted haccepted', ?_⟩
  have hrendered : Program.toBlocks ⟨roots'⟩ = p.toBlocks := toBlocks_of_annotates hroots'
  rw [@toBlocks?_eq_ok ⟨roots'⟩ p.toBlocks hfrom', hrendered]

theorem spelled_rerendered :
    (∀ b ∈ spelled, b.Countable) ∧
    ∃ p rendered p', ofBlocks spelled false = .ok p ∧ p.toBlocks? = .ok rendered ∧ rendered ≠ spelled ∧
      ofBlocks rendered false = .ok p' ∧ p'.toBlocks? = .ok rendered := by
  have hcountable : ∀ b ∈ spelled, b.Countable := by decide +kernel
  obtain ⟨p, hp⟩ : ∃ p, ofBlocks spelled false = .ok p := Except.exists_of_isOk (by decide +kernel)
  obtain ⟨rendered, hrendered, p', hp', hrendered'⟩ := ofBlocks_toBlocks? hp hcountable
  refine ⟨hcountable, p, rendered, p', hp, hrendered, ?_, hp', hrendered'⟩
  rintro rfl
  have hchanged : ((ofBlocks spelled false).toOption.bind fun p => p.toBlocks?.toOption) ≠ some spelled := by
    decide +kernel
  rw [hp] at hchanged
  exact hchanged (congrArg Except.toOption hrendered)

end Program

end Blockwork
