import Blockwork.Proofs.Outcomes
import Blockwork.Program.Resolve

/-! # What a node resolves to

A node resolves to the node that is made from what its parts resolve to. There is one statement for each form of
node, for those with parts.
-/

namespace Blockwork

set_option autoImplicit false

open Blockwork.Except (bind_ok_iff pure_ok_iff)

variable {env : TypeEnv} {attrs : Attributes}

theorem remade_ok_iff {α : Type} {x : Except Defect α} {a : α} : remade x = .ok a ↔ x = .ok a :=
  Except.mapError_ok_iff

theorem Var.resolve_ok_iff {v w : Var} :
    v.resolve env = .ok w ↔
      Ty.unify? v.type (env.lookup v.name) = some w.type ∧ w.type.isConcrete = true ∧
        (Text.strip v.name.toList).isEmpty = false ∧ w.name = v.name ∧ w.attrs = v.attrs := by
  obtain ⟨name, type, attrs⟩ := w
  unfold Var.resolve
  cases hu : Ty.unify? v.type (env.lookup v.name) with
  | none => simp
  | some t =>
    by_cases hconcrete : t.isConcrete = true
    · dsimp only
      rw [if_pos hconcrete, remade_ok_iff]
      unfold Var.make
      grind
    · grind

namespace Expr

attribute [local simp] resolve resolveAll resolveElements

variable {expected : Ty} {e q : Expr}

theorem resolveAs_ok_iff :
    e.resolveAs env expected = .ok q ↔ e.resolve env expected = .ok q ∧ expected.accepts q.type = true := by
  unfold resolveAs expect
  rw [bind_ok_iff]
  grind

theorem bind_expect_ok_iff {α : Type} {hint : Ty} {f : Expr → Except Error α} {a : α} :
    (e.resolve env hint >>= fun q => q.expect expected >>= f) = .ok a ↔
      ∃ q, e.resolve env hint = .ok q ∧ expected.accepts q.type = true ∧ f q = .ok a := by
  simp only [bind_ok_iff, expect]
  grind

theorem resolve_binary_ok_iff {op : BinaryOp} {left right : Expr} :
    (binary op left right attrs).resolve env expected = .ok q ↔
      ∃ l r, left.resolve env (hints op left right).1 = .ok l ∧ right.resolve env (hints op left right).2 = .ok r ∧
        makeBinary op l r attrs = .ok q := by
  rw [resolve]
  cases hints op left right with
  | mk leftHint rightHint =>
    simp only [bind_expect_ok_iff]
    constructor
    · rintro ⟨l, hl, -, r, hr, -, h⟩
      split at h
      · exact ⟨l, r, hl, hr, remade_ok_iff.mp h⟩
      · cases h
    · rintro ⟨l, r, hl, hr, h⟩
      have hmade := h
      unfold makeBinary at hmade
      refine ⟨l, hl, by grind, r, hr, by grind, ?_⟩
      rw [if_pos (by grind)]
      exact remade_ok_iff.mpr h

theorem resolve_unary_ok_iff {op : UnaryOp} {operand : Expr} :
    (unary op operand attrs).resolve env expected = .ok q ↔
      ∃ e, operand.resolve env op.operandType = .ok e ∧ makeUnary op e attrs = .ok q := by
  rw [resolve, bind_expect_ok_iff]
  unfold makeUnary
  grind [remade_ok_iff]

theorem resolve_length_ok_iff {operand : Expr} :
    (length operand attrs).resolve env expected = .ok q ↔
      ∃ e, operand.resolve env (.list .captured) = .ok e ∧ (Ty.list .captured).accepts e.type = true ∧
        makeLength e attrs = .ok q := by
  rw [resolve, bind_expect_ok_iff]
  simp only [remade_ok_iff]

/-- What is known of the items of a list before they are resolved. -/
def startElement (element expected : Ty) : Ty :=
  (Ty.unify? element expected.elementOrCaptured).getD element

theorem resolve_list_ok_iff {element : Ty} {items : List Expr} :
    (list element items attrs).resolve env expected = .ok q ↔
      ∃ t qs, resolveElements env (startElement element expected) items = .ok (t, qs) ∧ t.isConcrete = true ∧
        makeList t qs attrs = .ok q := by
  rw [resolve]
  simp only [bind_ok_iff, Prod.exists]
  refine exists_congr fun t => exists_congr fun qs => and_congr_right fun _ => ?_
  split
  · next hconcrete => rw [remade_ok_iff, and_iff_right hconcrete]
  · next hopen => exact ⟨fun h => (by cases h), fun h => absurd h.1 hopen⟩

theorem resolveElements_cons_ok_iff {t final : Ty} {rest qs : List Expr} :
    resolveElements env t (e :: rest) = .ok (final, qs) ↔
      ∃ q u others, e.resolve env t = .ok q ∧ Ty.unify? t q.type = some u ∧
        resolveElements env u rest = .ok (final, others) ∧ q :: others = qs := by
  rw [resolveElements, bind_ok_iff]
  refine exists_congr fun q => ?_
  cases hu : Ty.unify? t q.type with
  | none =>
    refine ⟨fun h => ?_, fun h => ?_⟩
    · cases h.2
    · obtain ⟨u, others, -, hu', -⟩ := h
      cases hu'
  | some u =>
    simp only [bind_ok_iff, Prod.exists, pure_ok_iff]
    grind

theorem resolveAll_eq_mapM (items : List Expr) : resolveAll env items = items.mapM (resolve env .captured) := by
  induction items with
  | nil => rfl
  | cons e rest ih => rw [resolveAll, List.mapM_cons, ih]

theorem resolve_join_ok_iff {items : List Expr} :
    (join items attrs).resolve env expected = .ok q ↔
      ∃ qs, List.Forall₂ (fun e q => e.resolve env .captured = .ok q) items qs ∧ join qs attrs = q := by
  rw [resolve]
  simp only [bind_ok_iff, resolveAll_eq_mapM, Except.mapM_ok_iff, pure_ok_iff]

end Expr

namespace Stmt

attribute [local simp] resolve resolveAll resolveBranches resolveOtherwise

abbrev AllResolve (env : TypeEnv) (body qs : List Stmt) : Prop :=
  List.Forall₂ (fun s q => s.resolve env = .ok q) body qs

theorem resolveAll_eq_mapM (body : List Stmt) : resolveAll env body = body.mapM (resolve env) := by
  induction body with
  | nil => rfl
  | cons s rest ih => rw [resolveAll, List.mapM_cons, ih]

theorem resolveAll_ok_iff {body qs : List Stmt} : resolveAll env body = .ok qs ↔ AllResolve env body qs := by
  rw [resolveAll_eq_mapM, Except.mapM_ok_iff]

variable {target : Var} {value : Expr} {body : List Stmt} {q : Stmt}

theorem resolve_assign_ok_iff :
    (assign target value attrs).resolve env = .ok q ↔
      ∃ v e, target.resolve env = .ok v ∧ value.resolve env v.type = .ok e ∧ makeAssign v e attrs = .ok q := by
  rw [resolve]
  simp only [bind_ok_iff, Expr.resolveAs_ok_iff, remade_ok_iff]
  unfold makeAssign
  grind

theorem resolve_repeat_ok_iff :
    (Stmt.repeat value body attrs).resolve env = .ok q ↔
      ∃ e qs, value.resolve env .number = .ok e ∧ AllResolve env body qs ∧ makeRepeat e qs attrs = .ok q := by
  rw [resolve]
  simp only [bind_ok_iff, Expr.resolveAs_ok_iff, resolveAll_ok_iff, remade_ok_iff]
  unfold makeRepeat
  grind

theorem resolve_loop_ok_iff {mode : LoopMode} :
    (loop mode value body attrs).resolve env = .ok q ↔
      ∃ e qs, value.resolve env .boolean = .ok e ∧ AllResolve env body qs ∧ makeLoop mode e qs attrs = .ok q := by
  rw [resolve]
  simp only [bind_ok_iff, Expr.resolveAs_ok_iff, resolveAll_ok_iff, remade_ok_iff]
  unfold makeLoop
  grind

theorem resolve_count_ok_iff {first last step : Expr} :
    (count target first last step body attrs).resolve env = .ok q ↔
      ∃ v e₁ e₂ e₃ qs, target.resolve env = .ok v ∧ first.resolve env .number = .ok e₁ ∧
        last.resolve env .number = .ok e₂ ∧ step.resolve env .number = .ok e₃ ∧ AllResolve env body qs ∧
        makeCount v e₁ e₂ e₃ qs attrs = .ok q := by
  rw [resolve]
  simp only [bind_ok_iff, Expr.resolveAs_ok_iff, resolveAll_ok_iff, remade_ok_iff]
  unfold makeCount
  grind

theorem resolve_forEach_ok_iff :
    (forEach target value body attrs).resolve env = .ok q ↔
      ∃ v e qs, target.resolve env = .ok v ∧ value.resolve env (.list v.type) = .ok e ∧ AllResolve env body qs ∧
        makeForEach v e qs attrs = .ok q := by
  rw [resolve]
  simp only [bind_ok_iff, Expr.resolveAs_ok_iff, resolveAll_ok_iff, remade_ok_iff]
  unfold makeForEach
  grind

theorem resolve_wait_ok_iff :
    (wait value attrs).resolve env = .ok q ↔
      ∃ e, value.resolve env .number = .ok e ∧ makeWait e attrs = .ok q := by
  rw [resolve]
  simp only [bind_ok_iff, Expr.resolveAs_ok_iff, remade_ok_iff]
  unfold makeWait
  grind

theorem resolve_print_ok_iff :
    (print value attrs).resolve env = .ok q ↔
      ∃ e, value.resolve env .captured = .ok e ∧ print e attrs = q := by
  rw [resolve]
  simp only [bind_ok_iff, pure_ok_iff]

theorem resolveBranches_ok_iff {branches : List (Expr × List Stmt)} {conditions : List Expr}
    {bodies : List (List Stmt)} :
    resolveBranches env branches = .ok (conditions, bodies) ↔
      List.Forall₂ (fun e q => e.resolveAs env .boolean = .ok q) (branches.map Prod.fst) conditions ∧
        List.Forall₂ (AllResolve env) (branches.map Prod.snd) bodies := by
  induction branches generalizing conditions bodies with
  | nil => simp [resolveBranches, eq_comm]
  | cons branch rest ih =>
    obtain ⟨condition, body⟩ := branch
    rw [resolveBranches]
    simp only [bind_ok_iff, resolveAll_ok_iff, Prod.exists, ih, pure_ok_iff, List.map_cons,
      List.forall₂_cons_left_iff]
    grind

theorem resolve_choose_ok_iff {branches : List (Expr × List Stmt)} {otherwise : Option (List Stmt)} :
    (choose branches otherwise attrs).resolve env = .ok q ↔
      ∃ conditions bodies last,
        List.Forall₂ (fun e q => e.resolveAs env .boolean = .ok q) (branches.map Prod.fst) conditions ∧
        List.Forall₂ (AllResolve env) (branches.map Prod.snd) bodies ∧ otherwise.isSome = last.isSome ∧
        AllResolve env (otherwise.getD []) (last.getD []) ∧ makeChoose conditions bodies last attrs = .ok q := by
  have hlast : ∀ last, resolveOtherwise env otherwise = .ok last ↔
      otherwise.isSome = last.isSome ∧ AllResolve env (otherwise.getD []) (last.getD []) := by
    intro last
    cases otherwise with
    | none => cases last <;> simp [resolveOtherwise]
    | some body =>
      rw [resolveOtherwise, bind_ok_iff]
      cases last <;> simp [resolveAll_ok_iff, pure_ok_iff]
  rw [resolve]
  simp only [bind_ok_iff, Prod.exists, resolveBranches_ok_iff, hlast, remade_ok_iff]
  grind

end Stmt

end Blockwork
