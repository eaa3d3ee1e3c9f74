import Blockwork.Proofs.Acceptance
import Blockwork.Proofs.OpenTypes

/-! # Checking and resolving

A program passes the check if types are known and fit everywhere in it. That is just when there is nothing
left to resolve. A program that was read from blocks passes it.
-/

namespace Blockwork

set_option autoImplicit false

open Blockwork.Except (ok_bind)

/-! ## Well-typed programs pass the check -/

namespace Expr

variable {e : Expr} {items : List Expr}

theorem checkAll_of (h : ∀ e ∈ items, e.check = .ok e.type) : checkAll items = .ok () := by
  induction items with
  | nil => rfl
  | cons e rest ih =>
    obtain ⟨he, hrest⟩ := List.forall_mem_cons.mp h
    rw [checkAll, he, ih hrest]
    rfl

theorem checkElements_of {element : Ty} (h : ∀ e ∈ items, e.check = .ok e.type)
    (htypes : ∀ e ∈ items, e.type = element) : checkElements element items = .ok () := by
  induction items with
  | nil => rfl
  | cons e rest ih =>
    obtain ⟨he, hrest⟩ := List.forall_mem_cons.mp h
    obtain ⟨htype, htypes⟩ := List.forall_mem_cons.mp htypes
    rw [checkElements, he, ok_bind, fits_of_accepts (htype ▸ (Ty.Refines.refl _).accepted), ok_bind, ih hrest htypes]

theorem WellTyped.check_eq (h : e.WellTyped) : e.check = .ok e.type := by
  have hhere := Everywhere.here h
  induction e with
  | var v => exact if_pos hhere
  | number | boolean | text => rfl
  | binary op left right attrs ihl ihr =>
    obtain ⟨-, hl, hr⟩ := everywhere_binary.mp h
    rw [check, ihl hl hl.here, ok_bind, fits_of_accepts hhere.2.accepted, ok_bind, ihr hr hr.here,
      ok_bind, fits_of_accepts (hhere.1 ▸ (Ty.Refines.refl _).accepted)]
    rfl
  | unary op operand attrs ih =>
    obtain ⟨-, ho⟩ := everywhere_unary.mp h
    rw [check, ih ho ho.here, ok_bind, fits_of_accepts (hhere ▸ (Ty.Refines.refl _).accepted)]
    exact congrArg _ hhere
  | list element items attrs ih =>
    obtain ⟨-, hi⟩ := everywhere_list.mp h
    rw [check, Ty.checkConcrete, if_pos hhere.1, ok_bind,
      checkElements_of (fun e he => ih e he (hi e he) (hi e he).here) hhere.2]
    rfl
  | length operand attrs ih =>
    obtain ⟨-, ho⟩ := everywhere_length.mp h
    obtain ⟨element, htype⟩ := hhere
    rw [check, ih ho ho.here, ok_bind, fits_of_accepts (htype ▸ (Ty.Refines.list (.captured _)).accepted)]
    rfl
  | join items attrs ih =>
    obtain ⟨-, hi⟩ := everywhere_join.mp h
    rw [check, checkAll_of fun e he => ih e he (hi e he) (hi e he).here]
    rfl

theorem WellTyped.checkAs_eq (h : e.WellTyped) {t : Ty} (ht : e.type = t) : e.checkAs t = .ok () := by
  rw [checkAs, h.check_eq, ok_bind, fits_of_accepts (ht ▸ (Ty.Refines.refl _).accepted)]
  rfl

end Expr

namespace Stmt

variable {s : Stmt} {body : List Stmt}

theorem checkAll_of (h : ∀ s ∈ body, s.check = .ok ()) : checkAll body = .ok () := by
  induction body with
  | nil => rfl
  | cons s rest ih =>
    obtain ⟨hs, hrest⟩ := List.forall_mem_cons.mp h
    rw [checkAll, hs, ih hrest]
    rfl

theorem checkBranches_of {branches : List (Expr × List Stmt)}
    (hconditions : ∀ branch ∈ branches, branch.1.checkAs .boolean = .ok ())
    (hbodies : ∀ branch ∈ branches, ∀ s ∈ branch.2, s.check = .ok ()) : checkBranches branches = .ok () := by
  induction branches with
  | nil => rfl
  | cons branch rest ih =>
    obtain ⟨hcondition, hconditions⟩ := List.forall_mem_cons.mp hconditions
    obtain ⟨hbody, hbodies⟩ := List.forall_mem_cons.mp hbodies
    rw [checkBranches, hcondition, checkAll_of hbody, ih hconditions hbodies]
    rfl

theorem WellTyped.check_eq (h : s.WellTyped) : s.check = .ok () := by
  have hvar : ∀ {v : Var}, v.type.isConcrete = true → v.check = .ok v.type := fun h => if_pos h
  induction s with
  | assign target value attrs =>
    obtain ⟨hexprs, htarget, hvalue⟩ := Everywhere.here h
    rw [check, hvar htarget]
    exact (hexprs value (by simp [exprs])).checkAs_eq hvalue
  | choose branches otherwise attrs ihb iho =>
    obtain ⟨⟨hexprs, hconditions⟩, hbranches, hotherwise⟩ := everywhere_choose.mp h
    have hlast : checkOtherwise otherwise = .ok () := by
      cases otherwise with
      | none => rfl
      | some body => exact checkAll_of fun s hs => iho body rfl s hs (hotherwise body rfl s hs)
    rw [check, checkBranches_of _ (fun branch hb s hs => ihb branch hb s hs (hbranches branch hb s hs)), hlast]
    · rfl
    · exact fun branch hb => (hexprs _ (List.mem_map_of_mem hb)).checkAs_eq (hconditions _ hb)
  | repeat' times body attrs ih =>
    obtain ⟨⟨hexprs, htimes⟩, hbody⟩ := everywhere_repeat.mp h
    rw [check, (hexprs times (by simp [exprs])).checkAs_eq htimes]
    exact checkAll_of fun s hs => ih s hs (hbody s hs)
  | loop mode condition body attrs ih =>
    obtain ⟨⟨hexprs, hcondition⟩, hbody⟩ := everywhere_loop.mp h
    rw [check, (hexprs condition (by simp [exprs])).checkAs_eq hcondition]
    exact checkAll_of fun s hs => ih s hs (hbody s hs)
  | count counter first last step body attrs ih =>
    obtain ⟨⟨hexprs, hcounter, hfirst, hlast, hstep⟩, hbody⟩ := everywhere_count.mp h
    rw [check, hvar (by rw [hcounter]; rfl), (hexprs first (by simp [exprs])).checkAs_eq hfirst,
      (hexprs last (by simp [exprs])).checkAs_eq hlast, (hexprs step (by simp [exprs])).checkAs_eq hstep]
    exact checkAll_of fun s hs => ih s hs (hbody s hs)
  | forEach item list body attrs ih =>
    obtain ⟨⟨hexprs, hitem, hlist⟩, hbody⟩ := everywhere_forEach.mp h
    rw [check, hvar hitem, ok_bind, (hexprs list (by simp [exprs])).checkAs_eq hlist]
    exact checkAll_of fun s hs => ih s hs (hbody s hs)
  | flow choice attrs => rfl
  | wait time attrs =>
    obtain ⟨hexprs, htime⟩ := Everywhere.here h
    exact (hexprs time (by simp [exprs])).checkAs_eq htime
  | print text attrs =>
    obtain ⟨hexprs, -⟩ := Everywhere.here h
    rw [check, (hexprs text (by simp [exprs])).check_eq]
    rfl

end Stmt

namespace Program

theorem check_of_ofBlocks {blocks : List Block} {allowFloating : Bool} {p : Program}
    (h : ofBlocks blocks allowFloating = .ok p) : p.check = .ok () := by
  obtain ⟨roots, env, settled, haccepted⟩ := exists_accepted h
  rw [check, Except.forM_ok_iff]
  intro root hroot
  obtain ⟨b, -, -, hwell, -⟩ := exists_of_mem_left haccepted.resolved hroot
  cases root with
  | statements body => exact Stmt.checkAll_of fun s hs => (hwell s hs).check_eq
  | value e =>
    rw [Root.check, Expr.WellTyped.check_eq hwell]
    rfl

theorem Made.check_eq_ok_iff {p : Program} (h : p.Made) : p.check = .ok () ↔ ∀ root ∈ p.roots, root.WellTyped := by
  rw [h.check_eq]
  change Node.checkForest (p.roots.flatMap Root.tops) = .ok () ↔ _
  rw [Node.checkForest_eq_ok_iff, List.forall_mem_flatMap]
  refine forall₂_congr fun root hroot => ?_
  rw [← Node.checkForest_eq_ok_iff, (h root hroot).checkForest_iff]

/-- What resolving gives passes the check. A program passes the check if and only if resolving it with
nothing known gives the very same program. -/
theorem check_agrees_with_resolve {p : Program} (h : p.Made) :
    (∀ env p', p.resolve env = .ok p' → p'.Made ∧ p'.check = .ok ()) ∧
      (p.check = .ok () ↔ p.resolve {} = .ok p) := by
  refine ⟨?_, ?_, ?_⟩
  · intro env p' hp'
    obtain ⟨hmade, hwell⟩ := h.of_resolve hp'
    exact ⟨hmade, hmade.check_eq_ok_iff.mpr hwell⟩
  · intro hcheck
    exact h.resolve_eq (h.check_eq_ok_iff.mp hcheck)
  · intro hresolve
    exact h.check_eq_ok_iff.mpr (h.of_resolve hresolve).2

/-- An empty list is assigned to a variable. -/
def clearing (target element : Ty) : Program where
  roots := [.statements [.assign ⟨"y", target, { id := "s" }⟩ (.list element [] { id := "l" }) { id := "s" }]]

theorem made_clearing {target element : Ty} (h : target.accepts (.list element) = true) :
    (clearing target element).Made := by
  intro root hroot
  obtain rfl := List.mem_singleton.mp hroot
  intro s hs
  obtain rfl := List.mem_singleton.mp hs
  have madeList : (Expr.list element [] { id := "l" }).Made := .list (fun _ h => absurd h List.not_mem_nil) rfl
  exact .assign ⟨"y", target, { id := "s" }, rfl⟩ madeList (if_pos h)

theorem check_agrees_with_resolve_clearing :
    (clearing .captured .captured).resolve (({} : TypeEnv).assign "y" (.list .number)) =
        .ok (clearing (.list .number) .number) ∧
      (clearing (.list .number) .number).check = .ok () ∧
      (clearing (.list .number) .number).resolve {} = .ok (clearing (.list .number) .number) := by
  have hopen : (clearing .captured .captured).Made := made_clearing rfl
  have hclosed : (clearing (.list .number) .number).Made := made_clearing rfl
  have hresolve : (clearing .captured .captured).resolve (({} : TypeEnv).assign "y" (.list .number)) =
      .ok (clearing (.list .number) .number) := rfl
  have hcheck := ((check_agrees_with_resolve hopen).1 _ _ hresolve).2
  exact ⟨hresolve, hcheck, (check_agrees_with_resolve hclosed).2.mp hcheck⟩

end Program

end Blockwork
