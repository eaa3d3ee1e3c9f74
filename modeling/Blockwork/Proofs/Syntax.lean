import Mathlib.Data.List.Basic
import Blockwork.Program.Parts

/-! # Induction over programs

Expressions and statements are nested through lists. The two principles here give the hypothesis for
every member of such a list, so that proofs are by cases on one node.
-/

namespace Blockwork

set_option autoImplicit false

/-! ## Expressions -/

@[induction_eliminator]
theorem Expr.induct {motive : Expr → Prop} (var : ∀ v, motive (.var v))
    (number : ∀ literal value attrs, motive (.number literal value attrs))
    (boolean : ∀ value attrs, motive (.boolean value attrs))
    (text : ∀ value attrs, motive (.text value attrs))
    (binary : ∀ op left right attrs, motive left → motive right → motive (.binary op left right attrs))
    (unary : ∀ op operand attrs, motive operand → motive (.unary op operand attrs))
    (list : ∀ element items attrs, (∀ e ∈ items, motive e) → motive (.list element items attrs))
    (length : ∀ operand attrs, motive operand → motive (.length operand attrs))
    (join : ∀ items attrs, (∀ e ∈ items, motive e) → motive (.join items attrs)) :
    ∀ e, motive e
  | .var v => var v
  | .number l x a => number l x a
  | .boolean x a => boolean x a
  | .text x a => text x a
  | .binary op l r a =>
    binary op l r a (Expr.induct var number boolean text binary unary list length join l)
      (Expr.induct var number boolean text binary unary list length join r)
  | .unary op e a => unary op e a (Expr.induct var number boolean text binary unary list length join e)
  | .list t items a =>
    list t items a fun e _ => Expr.induct var number boolean text binary unary list length join e
  | .length e a => length e a (Expr.induct var number boolean text binary unary list length join e)
  | .join items a =>
    join items a fun e _ => Expr.induct var number boolean text binary unary list length join e

namespace Expr

attribute [local simp] varsIn parts partsIn

variable {items : List Expr} {P : Expr → Prop} {e : Expr} {attrs : Attributes}

theorem mem_varsIn {v : Var} : v ∈ varsIn items ↔ ∃ e ∈ items, v ∈ e.vars := by
  induction items with
  | nil => simp
  | cons e rest ih => simp [ih]

theorem mem_partsIn {p : Expr} : p ∈ partsIn items ↔ ∃ e ∈ items, p ∈ e.parts := by
  induction items with
  | nil => simp
  | cons e rest ih => simp [ih]

def Everywhere (P : Expr → Prop) (e : Expr) : Prop :=
  ∀ part ∈ e.parts, P part

theorem Everywhere.imp {Q : Expr → Prop} (h : e.Everywhere P) (hPQ : ∀ part, P part → Q part) : e.Everywhere Q :=
  fun part hpart => hPQ part (h part hpart)

@[simp] theorem everywhere_var {v : Var} : (var v).Everywhere P ↔ P (.var v) := by
  simp [Everywhere]

@[simp] theorem everywhere_number {literal : String} {value : Binary64} :
    (number literal value attrs).Everywhere P ↔ P (.number literal value attrs) := by
  simp [Everywhere]

@[simp] theorem everywhere_boolean {value : Bool} : (boolean value attrs).Everywhere P ↔ P (.boolean value attrs) := by
  simp [Everywhere]

@[simp] theorem everywhere_text {value : String} : (text value attrs).Everywhere P ↔ P (.text value attrs) := by
  simp [Everywhere]

theorem everywhere_binary {op : BinaryOp} {left right : Expr} : (binary op left right attrs).Everywhere P ↔
      P (.binary op left right attrs) ∧ left.Everywhere P ∧ right.Everywhere P := by
  simp [Everywhere, or_imp, forall_and]

theorem everywhere_unary {op : UnaryOp} {operand : Expr} :
    (unary op operand attrs).Everywhere P ↔ P (.unary op operand attrs) ∧ operand.Everywhere P := by
  simp [Everywhere]

theorem everywhere_list {element : Ty} : (list element items attrs).Everywhere P ↔
      P (.list element items attrs) ∧ ∀ e ∈ items, e.Everywhere P := by
  simp only [Everywhere, parts, List.mem_cons, mem_partsIn]
  grind

theorem everywhere_length {operand : Expr} :
    (length operand attrs).Everywhere P ↔ P (.length operand attrs) ∧ operand.Everywhere P := by
  simp [Everywhere]

theorem everywhere_join : (join items attrs).Everywhere P ↔ P (.join items attrs) ∧ ∀ e ∈ items, e.Everywhere P := by
  simp only [Everywhere, parts, List.mem_cons, mem_partsIn]
  grind

theorem Everywhere.here (h : e.Everywhere P) : P e := by
  apply h
  cases e <;> simp

theorem Everywhere.everywhere (h : e.Everywhere P) : e.Everywhere fun part => part.Everywhere P := by
  induction e with
  | var v => simpa using h
  | number literal value attrs => simpa using h
  | boolean value attrs => simpa using h
  | text value attrs => simpa using h
  | binary op left right attrs ihl ihr =>
    obtain ⟨-, hleft, hright⟩ := everywhere_binary.mp h
    exact everywhere_binary.mpr ⟨h, ihl hleft, ihr hright⟩
  | unary op operand attrs ih => exact everywhere_unary.mpr ⟨h, ih (everywhere_unary.mp h).2⟩
  | list element items attrs ih =>
    exact everywhere_list.mpr ⟨h, fun e he => ih e he ((everywhere_list.mp h).2 e he)⟩
  | length operand attrs ih => exact everywhere_length.mpr ⟨h, ih (everywhere_length.mp h).2⟩
  | join items attrs ih =>
    exact everywhere_join.mpr ⟨h, fun e he => ih e he ((everywhere_join.mp h).2 e he)⟩

end Expr

/-! ## Statements -/

@[induction_eliminator]
theorem Stmt.induct {motive : Stmt → Prop}
    (assign : ∀ target value attrs, motive (.assign target value attrs))
    (choose : ∀ branches otherwise attrs, (∀ branch ∈ branches, ∀ s ∈ branch.2, motive s) →
      (∀ body, otherwise = some body → ∀ s ∈ body, motive s) → motive (.choose branches otherwise attrs))
    (repeat' : ∀ times body attrs, (∀ s ∈ body, motive s) → motive (.repeat times body attrs))
    (loop : ∀ mode condition body attrs, (∀ s ∈ body, motive s) →
      motive (.loop mode condition body attrs))
    (count : ∀ counter first last step body attrs, (∀ s ∈ body, motive s) →
      motive (.count counter first last step body attrs))
    (forEach : ∀ item list body attrs, (∀ s ∈ body, motive s) → motive (.forEach item list body attrs))
    (flow : ∀ flow attrs, motive (.flow flow attrs)) (wait : ∀ time attrs, motive (.wait time attrs))
    (print : ∀ text attrs, motive (.print text attrs)) : ∀ s, motive s
  | .assign t e a => assign t e a
  | .choose bs o a =>
    choose bs o a
      (fun b _hb s _hs => Stmt.induct assign choose repeat' loop count forEach flow wait print s)
      (fun body _hbody s _hs => Stmt.induct assign choose repeat' loop count forEach flow wait print s)
  | .repeat e body a =>
    repeat' e body a fun s _ =>
      Stmt.induct assign choose repeat' loop count forEach flow wait print s
  | .loop m e body a =>
    loop m e body a fun s _ => Stmt.induct assign choose repeat' loop count forEach flow wait print s
  | .count v e₁ e₂ e₃ body a =>
    count v e₁ e₂ e₃ body a fun s _ =>
      Stmt.induct assign choose repeat' loop count forEach flow wait print s
  | .forEach v e body a =>
    forEach v e body a fun s _ =>
      Stmt.induct assign choose repeat' loop count forEach flow wait print s
  | .flow f a => flow f a
  | .wait e a => wait e a
  | .print e a => print e a
decreasing_by
  · have h₁ := List.sizeOf_lt_of_mem _hb
    have h₂ := List.sizeOf_lt_of_mem _hs
    obtain ⟨c, body⟩ := b
    simp only [Prod.mk.sizeOf_spec, Stmt.choose.sizeOf_spec] at *
    omega
  · have h := List.sizeOf_lt_of_mem _hs
    subst _hbody
    simp only [Option.some.sizeOf_spec, Stmt.choose.sizeOf_spec]
    omega
  all_goals decreasing_tactic

namespace Stmt

attribute [local simp] all allIn allInBranches allInOtherwise

variable {p : Stmt} {body : List Stmt} {otherwise : Option (List Stmt)} {P : Stmt → Prop} {attrs : Attributes}

theorem mem_allIn : p ∈ allIn body ↔ ∃ s ∈ body, p ∈ s.all := by
  induction body with
  | nil => simp
  | cons s rest ih => simp [ih]

theorem mem_allInBranches {branches : List (Expr × List Stmt)} :
    p ∈ allInBranches branches ↔ ∃ branch ∈ branches, ∃ s ∈ branch.2, p ∈ s.all := by
  induction branches with
  | nil => simp
  | cons branch rest ih =>
    obtain ⟨condition, body⟩ := branch
    simp [mem_allIn, ih]

theorem mem_allInOtherwise : p ∈ allInOtherwise otherwise ↔ ∃ body, otherwise = some body ∧ ∃ s ∈ body, p ∈ s.all := by
  cases otherwise with
  | none => simp
  | some body => simp [mem_allIn]

theorem forall_mem_otherwise (h : ∀ body, otherwise = some body → ∀ s ∈ body, P s) : ∀ s ∈ otherwise.getD [], P s := by
  cases otherwise with
  | none => exact List.forall_mem_nil _
  | some body => exact h body rfl

def Everywhere (P : Stmt → Prop) (s : Stmt) : Prop :=
  ∀ part ∈ s.all, P part

theorem everywhere_choose {branches : List (Expr × List Stmt)} : (choose branches otherwise attrs).Everywhere P ↔
      P (.choose branches otherwise attrs) ∧ (∀ branch ∈ branches, ∀ s ∈ branch.2, s.Everywhere P) ∧
        ∀ body, otherwise = some body → ∀ s ∈ body, s.Everywhere P := by
  simp only [Everywhere, all, List.mem_cons, List.mem_append, mem_allInBranches, mem_allInOtherwise]
  constructor
  · intro h
    refine ⟨h _ (.inl rfl), ?_, ?_⟩
    · intro branch hb s hs part hp
      exact h part (.inr (.inl ⟨branch, hb, s, hs, hp⟩))
    · intro body hbody s hs part hp
      exact h part (.inr (.inr ⟨body, hbody, s, hs, hp⟩))
  · rintro ⟨here, inBranches, inOtherwise⟩ part (rfl | ⟨branch, hb, s, hs, hp⟩ | ⟨body, hbody, s, hs, hp⟩)
    · exact here
    · exact inBranches branch hb s hs part hp
    · exact inOtherwise body hbody s hs part hp

theorem everywhere_repeat {times : Expr} : (Stmt.repeat times body attrs).Everywhere P ↔
      P (.repeat times body attrs) ∧ ∀ s ∈ body, s.Everywhere P := by
  simp only [Everywhere, all, List.mem_cons, mem_allIn]
  grind

theorem everywhere_loop {mode : LoopMode} {condition : Expr} : (loop mode condition body attrs).Everywhere P ↔
      P (.loop mode condition body attrs) ∧ ∀ s ∈ body, s.Everywhere P := by
  simp only [Everywhere, all, List.mem_cons, mem_allIn]
  grind

theorem everywhere_count {counter : Var} {first last step : Expr} :
    (count counter first last step body attrs).Everywhere P ↔
      P (.count counter first last step body attrs) ∧ ∀ s ∈ body, s.Everywhere P := by
  simp only [Everywhere, all, List.mem_cons, mem_allIn]
  grind

theorem everywhere_forEach {item : Var} {list : Expr} : (forEach item list body attrs).Everywhere P ↔
      P (.forEach item list body attrs) ∧ ∀ s ∈ body, s.Everywhere P := by
  simp only [Everywhere, all, List.mem_cons, mem_allIn]
  grind

theorem Everywhere.here {s : Stmt} (h : s.Everywhere P) : P s := by
  apply h
  cases s <;> simp

end Stmt

theorem Root.everywhere_of_exprs {P : Expr → Prop} {root : Root} (h : ∀ e ∈ root.exprs, P e) {e : Expr}
    (he : e ∈ root.exprs) : e.Everywhere P := by
  cases root with
  | statements body =>
    obtain ⟨s, hs, he⟩ := List.mem_flatMap.mp he
    obtain ⟨whole, hwhole, he⟩ := List.mem_flatMap.mp he
    have hparts : whole.Everywhere P := fun part hpart =>
      h part (List.mem_flatMap.mpr ⟨s, hs, List.mem_flatMap.mpr ⟨whole, hwhole, hpart⟩⟩)
    exact hparts.everywhere e he
  | value whole =>
    have hparts : whole.Everywhere P := h
    exact hparts.everywhere e he

end Blockwork
