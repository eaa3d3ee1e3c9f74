import Blockwork.Proofs.Resolving
import Blockwork.Proofs.RulesSound

/-! # Well-typed programs

The parts of a well-typed node fit together exactly: nothing is left open, and every part has the type that is asked of
it.
-/

namespace Blockwork

set_option autoImplicit false

/-! ## Types that fit -/

def Expr.Checks : Expr → Prop
  | .var v => v.type.isConcrete = true
  | .binary op left right _ => right.type = left.type ∧ left.type.Refines op.operandType
  | .unary op operand _ => operand.type = op.operandType
  | .list element items _ => element.isConcrete = true ∧ ∀ e ∈ items, e.type = element
  | .length operand _ => ∃ element, operand.type = .list element
  | .number .. | .boolean .. | .text .. | .join .. => True

abbrev Expr.WellTyped (e : Expr) : Prop :=
  e.Everywhere Expr.Checks

def Stmt.Checks (s : Stmt) : Prop :=
  (∀ e ∈ s.exprs, e.WellTyped) ∧
    match s with
    | .assign target value _ => target.type.isConcrete = true ∧ value.type = target.type
    | .choose branches _ _ => ∀ branch ∈ branches, branch.1.type = .boolean
    | .repeat times _ _ => times.type = .number
    | .loop _ condition _ _ => condition.type = .boolean
    | .count counter first last step _ _ =>
      counter.type = .number ∧ first.type = .number ∧ last.type = .number ∧ step.type = .number
    | .forEach item list _ _ => item.type.isConcrete = true ∧ list.type = .list item.type
    | .wait time _ => time.type = .number
    | .flow .. | .print .. => True

abbrev Stmt.WellTyped (s : Stmt) : Prop :=
  s.Everywhere Stmt.Checks

theorem Expr.WellTyped.isConcrete {e : Expr} (h : e.WellTyped) : e.type.isConcrete = true := by
  have hhere := Everywhere.here h
  cases e with
  | var v => exact hhere
  | list element items attrs => exact hhere.1
  | binary op => cases op <;> rfl
  | unary op => cases op <;> rfl
  | _ => rfl

theorem Stmt.everywhere_leaf {P : Stmt → Prop} {s : Stmt} (h : P s) (hs : s.all = [s]) : s.Everywhere P := by
  intro part hpart
  rw [hs] at hpart
  exact List.mem_singleton.mp hpart ▸ h

theorem Expr.startElement_refines (element expected : Ty) : (startElement element expected).Refines element := by
  unfold startElement
  cases hu : Ty.unify? element expected.elementOrCaptured with
  | none => exact .refl element
  | some u => exact Ty.unify?_refines_left hu

namespace Root

def WellTyped : Root → Prop
  | .statements body => ∀ s ∈ body, s.WellTyped
  | .value e => e.WellTyped

theorem WellTyped.checks {root : Root} (h : root.WellTyped) : ∀ e ∈ root.exprs, e.Checks := by
  intro e he
  cases root with
  | statements body =>
    obtain ⟨part, hpart, he⟩ := List.mem_flatMap.mp he
    obtain ⟨whole, hwhole, he⟩ := List.mem_flatMap.mp he
    obtain ⟨s, hs, hpart⟩ := Stmt.mem_allIn.mp hpart
    exact (h s hs part hpart).1 whole hwhole e he
  | value whole => exact h e he

end Root

end Blockwork
