import Blockwork.Program.ToBlocks

/-! # Words and tags

A word is read as the choice that it names, and as no other. -/

namespace Blockwork

set_option autoImplicit false

variable {word : String}

theorem Tag.ofName?_eq_some_iff {name : String} {tag : Tag} : Tag.ofName? name = some tag ↔ name = tag.name := by
  constructor
  · intro h
    have hname := List.find?_some h
    exact (eq_of_beq hname).symm
  · rintro rfl
    cases tag <;> rfl

theorem BinaryOp.ofWord?_eq_some_iff {tag : String} {op : BinaryOp} :
    BinaryOp.ofWord? tag word = some op ↔ word = op.word ∧ tag = op.tag := by
  constructor
  · intro h
    have hop := List.find?_some h
    rw [Bool.and_eq_true] at hop
    exact ⟨(eq_of_beq hop.1).symm, (eq_of_beq hop.2).symm⟩
  · rintro ⟨rfl, rfl⟩
    cases op <;> rfl

theorem UnaryOp.ofWord?_eq_some_iff {op : UnaryOp} : UnaryOp.ofWord? word = some op ↔ op.word? = some word := by
  constructor
  · intro h
    have hop := List.find?_some h
    exact eq_of_beq hop
  · intro h
    cases op with
    | not => cases h
    | _ =>
      cases h
      rfl

theorem LoopMode.ofWord?_eq_some_iff {mode : LoopMode} : LoopMode.ofWord? word = some mode ↔ word = mode.word := by
  constructor
  · intro h
    have hmode := List.find?_some h
    exact (eq_of_beq hmode).symm
  · rintro rfl
    cases mode <;> rfl

theorem Flow.ofWord?_eq_some_iff {flow : Flow} : Flow.ofWord? word = some flow ↔ word = flow.word := by
  constructor
  · intro h
    have hflow := List.find?_some h
    exact (eq_of_beq hflow).symm
  · rintro rfl
    cases flow <;> rfl

theorem Block.truth?_eq_some_iff {value : Bool} : Block.truth? word = some value ↔ word = Expr.truthWord value := by
  unfold Block.truth? Expr.truthWord
  cases value <;> grind

end Blockwork
