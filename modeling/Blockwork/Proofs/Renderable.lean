import Blockwork.Proofs.Derivation
import Blockwork.Proofs.Provenance

/-! # Programs that can be rendered

A name of a type that cannot be cut is refused when a block is read, so no node that comes from a block keeps
one.
-/

namespace Blockwork

set_option autoImplicit false

theorem Block.brokenName?_eq_none {b : Block} {a : Attributes} {key : String} {t : Ty}
    (h : b.Declares key t) (ha : a.mutation? key = b.attrs.mutation? key) : a.brokenName? key t = none := by
  unfold Attributes.brokenName?
  rw [ha]
  split
  · next kept _ hkept =>
    unfold Block.Declares at h
    rw [declaredType_of_mutation? hkept] at h
    split
    · rfl
    · next hvisible =>
      rw [if_neg hvisible] at h
      rw [if_neg]
      intro hbroken
      simp [hbroken] at h
  · rfl

theorem Expr.ComesFrom.brokenName?_eq_none {e : Expr} {b : Block} (h : e.ComesFrom b) : e.brokenName? = none := by
  cases h with
  | var _ _ declared attrs =>
    refine Block.brokenName?_eq_none declared ?_
    rw [attrs]
    rfl
  | list _ declared => exact Block.brokenName?_eq_none declared rfl
  | _ => rfl

namespace Stmt

variable {s : Stmt} {b : Block}

theorem ComesFrom.brokenName?_eq_none (h : s.ComesFrom b) : s.brokenName? = none := by
  cases h with
  | assign _ _ declared => exact Block.brokenName?_eq_none declared rfl
  | _ => rfl

theorem ComesFrom.exprs (h : s.ComesFrom b) {e : Expr} (he : e ∈ s.exprs) : ∃ c, e.ComesFrom c := by
  cases h with
  | choose _ _ _ fromConditions =>
    obtain ⟨c, -, hfrom⟩ := exists_of_mem_left fromConditions he
    exact ⟨c, hfrom⟩
  | count _ _ _ _ _ _ _ fromFirst fromLast fromStep =>
    simp only [Stmt.exprs, List.mem_cons, List.not_mem_nil, or_false] at he
    rcases he with rfl | rfl | rfl
    · exact ⟨_, fromFirst⟩
    · exact ⟨_, fromLast⟩
    · exact ⟨_, fromStep⟩
  | flow => cases he
  | assign _ _ _ _ _ hfrom => exact List.mem_singleton.mp he ▸ ⟨_, hfrom⟩
  | repeat' _ _ hfrom => exact List.mem_singleton.mp he ▸ ⟨_, hfrom⟩
  | loop _ _ _ hfrom => exact List.mem_singleton.mp he ▸ ⟨_, hfrom⟩
  | forEach _ _ _ _ hfrom => exact List.mem_singleton.mp he ▸ ⟨_, hfrom⟩
  | wait _ _ hfrom => exact List.mem_singleton.mp he ▸ ⟨_, hfrom⟩
  | print _ _ hfrom => exact List.mem_singleton.mp he ▸ ⟨_, hfrom⟩

theorem ComesFrom.everywhere (h : s.ComesFrom b) : s.Everywhere fun part => ∃ c, part.ComesFrom c := by
  have here : ∃ c, s.ComesFrom c := ⟨b, h⟩
  -- The statements of a body come from the blocks of a chain.
  have hbody : ∀ {body : List Stmt} {chain : List Block}, List.Forall₂ ComesFrom body chain →
      (∀ s ∈ body, ∀ {c : Block}, s.ComesFrom c → (∃ c, s.ComesFrom c) →
        s.Everywhere fun part => ∃ c, part.ComesFrom c) →
      ∀ s ∈ body, s.Everywhere fun part => ∃ c, part.ComesFrom c := by
    intro body chain hchain ih s hs
    obtain ⟨c, -, hc⟩ := exists_of_mem_left hchain hs
    exact ih s hs hc ⟨c, hc⟩
  induction s generalizing b with
  | choose branches otherwise attrs ih ih' =>
    cases h with
    | choose _ _ _ _ fromBodies fromOtherwise =>
      refine everywhere_choose.mpr ⟨here, fun branch hbranch => ?_, fun body e => ?_⟩
      · obtain ⟨chain, -, hchain⟩ := exists_of_mem_left fromBodies (List.mem_map_of_mem hbranch)
        exact hbody hchain (ih branch hbranch)
      · subst e
        exact hbody fromOtherwise (ih' body rfl)
  | repeat' times body attrs ih =>
    cases h with
    | repeat' _ _ _ fromBody => exact everywhere_repeat.mpr ⟨here, hbody fromBody ih⟩
  | loop mode condition body attrs ih =>
    cases h with
    | loop _ _ _ _ fromBody => exact everywhere_loop.mpr ⟨here, hbody fromBody ih⟩
  | count counter first last step body attrs ih =>
    cases h with
    | count _ _ _ _ _ _ _ _ _ _ fromBody => exact everywhere_count.mpr ⟨here, hbody fromBody ih⟩
  | forEach item list body attrs ih =>
    cases h with
    | forEach _ _ _ _ _ fromBody => exact everywhere_forEach.mpr ⟨here, hbody fromBody ih⟩
  | _ =>
    intro part hpart
    cases List.mem_singleton.mp hpart
    exact here

end Stmt

namespace Root

variable {root : Root} {b : Block}

theorem ComesFrom.stmts (h : root.ComesFrom b) {s : Stmt} (hs : s ∈ root.stmts) : ∃ c, s.ComesFrom c := by
  cases root with
  | statements body =>
    obtain ⟨s', hs', hs⟩ := Stmt.mem_allIn.mp hs
    obtain ⟨c, -, hc⟩ := exists_of_mem_left h hs'
    exact hc.everywhere s hs
  | value e => cases hs

theorem ComesFrom.exprs (h : root.ComesFrom b) {e : Expr} (he : e ∈ root.exprs) : ∃ c, e.ComesFrom c := by
  cases root with
  | statements body =>
    obtain ⟨s, hs, he⟩ := List.mem_flatMap.mp he
    obtain ⟨e', he', he⟩ := List.mem_flatMap.mp he
    obtain ⟨c, hc⟩ := h.stmts hs
    obtain ⟨d, hd⟩ := hc.exprs he'
    obtain ⟨d', -, hd'⟩ := hd.everywhere e he
    exact ⟨d', hd'⟩
  | value e' =>
    obtain ⟨d, -, hd⟩ := h.1.everywhere e he
    exact ⟨d, hd⟩

end Root

theorem Program.toBlocks?_eq_ok {p : Program} {blocks : List Block}
    (h : List.Forall₂ Root.ComesFrom p.roots blocks) : p.toBlocks? = .ok p.toBlocks := by
  have hnone : p.brokenName? = none := by
    unfold Program.brokenName?
    refine List.findSome?_eq_none_iff.mpr fun root hroot => ?_
    obtain ⟨b, -, hb⟩ := exists_of_mem_left h hroot
    refine Option.or_eq_none_iff.mpr ⟨?_, ?_⟩
    · refine List.findSome?_eq_none_iff.mpr fun e he => ?_
      obtain ⟨c, hc⟩ := hb.exprs he
      exact hc.brokenName?_eq_none
    · refine List.findSome?_eq_none_iff.mpr fun s hs => ?_
      obtain ⟨c, hc⟩ := hb.stmts hs
      exact hc.brokenName?_eq_none
  unfold Program.toBlocks?
  rw [hnone]

end Blockwork
