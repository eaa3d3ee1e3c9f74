import Blockwork.Proofs.ArduinoExpressions

/-! # Division in sketches

Operands of a division are widened if they are literals or lengths, so that the quotient is not cut off. Nothing is
done to other operands, which may have been computed with integers.
-/

namespace Blockwork.Arduino

set_option autoImplicit false

open Precedence (Language)
open Source (writesMinus)
open Python (Writable)

/-- Whether a number is computed with integers. Digits alone are an integer, and so is the size of a list. -/
def isIntegral : ExprTree → Bool
  | .leaf (.number numeral) => numeral.toList.all Text.isDigit
  | .unary op t => op = .neg && isIntegral t
  | .binary op left right => op ∈ [.add, .minus, .multiply, .divide] && isIntegral left && isIntegral right
  | .call (.member _ name) _ => name = .name "size"
  | _ => false

/-- Whether an expression is computed with integers, by itself or as an operand of a division. -/
def isInteger (divided : Bool) : Expr → Bool
  | .number literal value _ => !divided && isWhole (Source.numberLiteral literal value)
  | .length .. => !divided
  | .unary op operand _ => op = .neg && isInteger false operand
  | .binary op left right _ =>
    op ∈ [.add, .minus, .multiply, .divide] && isInteger (op = .divide) left && isInteger (op = .divide) right
  | _ => false

def dividendOf (names : Source.Names) (e : Expr) : ExprTree :=
  dividendTree writesMinus e (tree names.get writesMinus true e)

variable {spell : String → String} {e : Expr}

theorem isIntegral_withMinus (minus : Bool) (t : ExprTree) : isIntegral (withMinus minus t) = isIntegral t := by
  cases minus <;> simp [withMinus, isIntegral]

theorem all_isDigit_widened (numeral : String) : (widened numeral).toList.all Text.isDigit = false := by
  unfold widened
  split
  · simp [Text.isDigit]
  · next h => simpa using h

theorem isIntegral_dividendTree (h : isIntegral (tree spell writesMinus true e) = isInteger false e) :
    isIntegral (dividendTree writesMinus e (tree spell writesMinus true e)) = isInteger true e := by
  cases e with
  | number literal value attrs =>
    simp only [dividendTree, isIntegral_withMinus, isIntegral, all_isDigit_widened, isInteger, Bool.not_true,
      Bool.false_and]
  | length operand attrs => simp [dividendTree, isIntegral, isInteger]
  | _ => exact h

theorem isIntegral_operandTree (op : BinaryOp) (h : isIntegral (tree spell writesMinus true e) = isInteger false e) :
    isIntegral (operandTree writesMinus true op e (tree spell writesMinus true e)) = isInteger (op = .divide) e := by
  by_cases hop : op = .divide
  · simp only [operandTree, hop, and_self, if_true, decide_true, isIntegral_dividendTree h]
  · simp only [operandTree, hop, and_false, if_false, decide_false, h]

theorem isIntegral_tree (hwritable : e.Everywhere Writable) (htype : e.type = .number) :
    isIntegral (tree spell writesMinus true e) = isInteger false e := by
  induction e with
  | var v => simp [tree, isIntegral, isInteger]
  | number literal value attrs =>
    simp only [tree, isIntegral_withMinus, isIntegral, isInteger, isWhole_numberLiteral (hwritable.here.denotes rfl),
      Bool.not_false, Bool.true_and]
  | binary op left right attrs ihl ihr =>
    obtain ⟨hhere, hleft, hright⟩ := Expr.everywhere_binary.mp hwritable
    have hop : op.operandType = .number := by
      cases op <;> first | rfl | cases htype
    obtain ⟨hltype, hrtype⟩ := Python.types_of_checks hhere.checks hop
    have hl := isIntegral_operandTree op (ihl hleft hltype)
    have hr := isIntegral_operandTree op (ihr hright hrtype)
    by_cases hpower : op = .power
    · simp [tree, combined, hpower, callOf, isIntegral, isInteger]
    · rw [tree, combined, if_neg hpower, isIntegral, isInteger, hl, hr]
  | unary op operand attrs ih =>
    obtain ⟨hhere, hoperand⟩ := Expr.everywhere_unary.mp hwritable
    cases op with
    | neg => simp [tree, applied, isIntegral, isInteger, ih hoperand hhere.checks]
    | not => cases htype
    | _ => simp [tree, applied, callOf, isIntegral, isInteger]
  | length operand attrs ih => simp [tree, isIntegral, isInteger]
  | _ => cases htype

end Blockwork.Arduino

namespace Blockwork.Program

open Arduino

variable {blocks : List Block} {allowFloating : Bool} {p : Program} {left right : Expr} {attrs : Attributes}

/-- A division is one of integers exactly if each of its operands is a sum, a difference, a product, a quotient or a
negated value that is computed with integers. The texts of the operands are read as the trees that are looked at. -/
theorem divides_integers_iff (h : ofBlocks blocks allowFloating = .ok p)
    (he : .binary .divide left right attrs ∈ p.roots.flatMap Root.exprs) {names : Source.Names} {s t : String}
    (hs : expr names left = .ok s) (ht : expr names right = .ok t) :
    expr names (.binary .divide left right attrs) = .ok (dividend left s ++ " / " ++ dividend right t) ∧
    ((∀ v ∈ left.vars ++ right.vars, isName (names.get v.name) = true) →
      parse? (dividend left s) = some (dividendOf names left) ∧
      parse? (dividend right t) = some (dividendOf names right)) ∧
    ((isIntegral (dividendOf names left) = true ∧ isIntegral (dividendOf names right) = true) ↔
      (isInteger true left = true ∧ isInteger true right = true)) := by
  obtain ⟨hhere, hleft, hright⟩ := Expr.everywhere_binary.mp (writable_of_ofBlocks h he)
  obtain ⟨hltype, hrtype⟩ := Python.types_of_checks hhere.checks rfl
  have hparse : ∀ {e text}, e.Everywhere Python.Writable → e.type = .number → expr names e = .ok text →
      (∀ v ∈ e.vars, isName (names.get v.name) = true) → parse? (dividend e text) = some (dividendOf names e) :=
    fun hwritable htype htext hnames => Precedence.Language.parse?_of_spells lawful_language
      (spells_dividend hwritable.here htype htext (spelled_expr _ hwritable hnames htext))
  refine ⟨?_, ?_, ?_⟩
  · rw [expr, hs, ht]
    rfl
  · intro hnames
    obtain ⟨hl, hr⟩ := List.forall_mem_append.mp hnames
    exact ⟨hparse hleft hltype hs hl, hparse hright hrtype ht hr⟩
  · rw [dividendOf, dividendOf, isIntegral_dividendTree (isIntegral_tree hleft hltype),
      isIntegral_dividendTree (isIntegral_tree hright hrtype)]

def operands? : Expr → Option (Expr × Expr)
  | .binary .divide left right _ => some (left, right)
  | _ => none

theorem exists_quotient_of_any (blocks : List Block) (P : Expr → Expr → Prop) [∀ left right, Decidable (P left right)]
    (h : ((ofBlocks blocks true).toOption.any fun p =>
      ((p.roots.flatMap Root.exprs).head?.bind operands?).any fun o => decide (P o.1 o.2)) = true) :
    ∃ p left right attrs, ofBlocks blocks true = .ok p ∧
      .binary .divide left right attrs ∈ p.roots.flatMap Root.exprs ∧ P left right := by
  obtain ⟨p, hp, hany⟩ := exists_of_any blocks true (fun p =>
    (((p.roots.flatMap Root.exprs).head?.bind operands?).any fun o => decide (P o.1 o.2)) = true) (by simpa using h)
  obtain ⟨o, ho, hP⟩ := (Option.any_eq_true _ _).mp hany
  obtain ⟨e, hhead, heq⟩ := Option.bind_eq_some_iff.mp ho
  unfold operands? at heq
  split at heq
  · next left right attrs =>
    cases heq
    exact ⟨p, left, right, attrs, hp, List.mem_of_head? hhead, of_decide_eq_true hP⟩
  · cases heq

def arithmeticBlock (id op : String) (left right : Block) : Block :=
  { tag := Tag.arithmetic.name, attrs := { id }, fields := [("OP", op)], values := [("A", left), ("B", right)] }

def sumBlock (id left right : String) : Block :=
  arithmeticBlock id "ADD" (numberBlock (id ++ "l") left) (numberBlock (id ++ "r") right)

theorem divided_literal_is_widened :
    ∃ p left right attrs,
      ofBlocks [arithmeticBlock "a" "DIVIDE" (numberBlock "b" "1") (sumBlock "c" "2" "3")] true = .ok p ∧
      .binary .divide left right attrs ∈ p.roots.flatMap Root.exprs ∧
      expr .none (.binary .divide left right attrs) = .ok "1.0 / (2 + 3)" ∧
      ¬(isIntegral (dividendOf .none left) = true ∧ isIntegral (dividendOf .none right) = true) := by
  obtain ⟨p, left, right, attrs, hp, hmem, hs, ht, htext, hinteger⟩ := exists_quotient_of_any
    [arithmeticBlock "a" "DIVIDE" (numberBlock "b" "1") (sumBlock "c" "2" "3")]
    (fun left right => expr .none left = .ok "1" ∧ expr .none right = .ok "2 + 3" ∧
      dividend left "1" ++ " / " ++ dividend right "2 + 3" = "1.0 / (2 + 3)" ∧ isInteger true left = false)
    (by decide +kernel)
  obtain ⟨hwritten, -, hiff⟩ := divides_integers_iff hp hmem hs ht
  refine ⟨p, left, right, attrs, hp, hmem, htext ▸ hwritten, ?_⟩
  rw [hiff, hinteger]
  simp

/-- Both sums are sums of integers, and so their quotient is cut off. -/
theorem quotient_of_sums_is_cut_off :
    ∃ p left right attrs,
      ofBlocks [arithmeticBlock "a" "DIVIDE" (sumBlock "b" "1" "2") (sumBlock "c" "3" "4")] true = .ok p ∧
      .binary .divide left right attrs ∈ p.roots.flatMap Root.exprs ∧
      expr .none left = .ok "1 + 2" ∧ expr .none right = .ok "3 + 4" ∧
      dividend left "1 + 2" ++ " / " ++ dividend right "3 + 4" = "(1 + 2) / (3 + 4)" ∧
      isIntegral (dividendOf .none left) = true ∧ isIntegral (dividendOf .none right) = true := by
  apply exists_quotient_of_any
  decide +kernel

end Blockwork.Program
