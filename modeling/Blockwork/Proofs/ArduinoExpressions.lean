import Blockwork.Proofs.ArduinoTokens
import Blockwork.Proofs.SourceTexts

/-! # Expressions in sketches

* `Arduino.tree` is the tree of the operators of an expression, with operands of divisions widened or not.
* `Arduino.spelled_expr` says that the text of an expression is read as that tree.
* `Arduino.narrowed` takes the widening off a tree.
* `Program.read?_arduino` says that the text of an expression of an accepted program is read as the tree of its
  operators, up to the widening.
-/

namespace Blockwork.Arduino

set_option autoImplicit false

open Precedence (Language Token Tree Table)
open Source (writesMinus)
open Python (Writable losesMinus)
open List (map_nil map_cons map_map)
open Blockwork.Except (bind_ok_iff)
open Python (IsNumeral SameMinus)

/-! ## Trees of expressions -/

def callOf (name : String) (args : List ExprTree) : ExprTree :=
  .call (.leaf (.name name)) args

def applied (op : UnaryOp) (t : ExprTree) : ExprTree :=
  match op with
  | .not => .unary .not t
  | .neg => .unary .neg t
  | .root => callOf "sqrt" [t]
  | .abs => callOf "fabs" [t]
  | .ln => callOf "log" [t]
  | .log10 => callOf "log10" [t]
  | .exp => callOf "exp" [t]
  | .pow10 => callOf "pow" [.leaf (.number "10"), t]

def combined (op : BinaryOp) (left right : ExprTree) : ExprTree :=
  if op = .power then callOf "pow" [left, right] else .binary op left right

def textTree (value : String) : ExprTree :=
  callOf "String" [.leaf (.text (Source.quote value))]

def converted : Expr → ExprTree → ExprTree
  | .text .., t => t
  | _, t => callOf "String" [t]

def sumTree : List ExprTree → ExprTree
  | [] => textTree ""
  | t :: ts => ts.foldl (.binary .add) t

def withMinus (minus : Bool) (t : ExprTree) : ExprTree :=
  if minus then .unary .neg t else t

def widened (numeral : String) : String :=
  if numeral.toList.all Text.isDigit then numeral ++ ".0" else numeral

def dividendTree (minus : String → Binary64 → Bool) (e : Expr) (t : ExprTree) : ExprTree :=
  match e with
  | .number literal value _ =>
    withMinus (minus literal value) (.leaf (.number (widened (Source.numeral literal value))))
  | .length .. => .unary (.cast .number) t
  | _ => t

def operandTree (minus : String → Binary64 → Bool) (wide : Bool) (op : BinaryOp) (e : Expr) (t : ExprTree) : ExprTree :=
  if wide ∧ op = .divide then dividendTree minus e t else t

mutual

/-- The tree of the operators of an expression, with names for its variables. A number is a minus before its
absolute value where `minus` says so, and operands of divisions are widened if `wide` says so. -/
def tree (spell : String → String) (minus : String → Binary64 → Bool) (wide : Bool) : Expr → ExprTree
  | .var v => .leaf (.name (spell v.name))
  | .number literal value _ => withMinus (minus literal value) (.leaf (.number (Source.numeral literal value)))
  | .boolean value _ => .leaf (.truth value)
  | .text value _ => textTree value
  | .binary op left right _ =>
    combined op (operandTree minus wide op left (tree spell minus wide left))
      (operandTree minus wide op right (tree spell minus wide right))
  | .unary op operand _ => applied op (tree spell minus wide operand)
  | .list element items _ => .build (.leaf (.type (.list element))) (trees spell minus wide items)
  | .length operand _ => .call (.member (tree spell minus wide operand) (.name "size")) []
  | .join items _ => sumTree (convertedTrees spell minus wide items)

def trees (spell : String → String) (minus : String → Binary64 → Bool) (wide : Bool) : List Expr → List ExprTree
  | [] => []
  | e :: rest => tree spell minus wide e :: trees spell minus wide rest

def convertedTrees (spell : String → String) (minus : String → Binary64 → Bool) (wide : Bool) :
    List Expr → List ExprTree
  | [] => []
  | e :: rest => converted e (tree spell minus wide e) :: convertedTrees spell minus wide rest

end

attribute [local simp] tree trees convertedTrees

theorem trees_eq_map (spell : String → String) (minus : String → Binary64 → Bool) (wide : Bool) (items : List Expr) :
    trees spell minus wide items = items.map (tree spell minus wide) := by
  induction items with
  | nil => rw [trees, map_nil]
  | cons e rest ih => rw [trees, ih, map_cons]

theorem convertedTrees_eq_map (spell : String → String) (minus : String → Binary64 → Bool) (wide : Bool)
    (items : List Expr) :
    convertedTrees spell minus wide items = items.map fun e => converted e (tree spell minus wide e) := by
  induction items with
  | nil => rw [convertedTrees, map_nil]
  | cons e rest ih => rw [convertedTrees, ih, map_cons]

/-! ## Texts of expressions -/

def textLevel : Expr → Nat
  | .binary op .. => if op = .power then 9 else 0
  | .unary .not .. | .unary .neg .. | .number .. => 7
  | .join .. => 5
  | _ => 9

def operandLevel : Expr → Nat
  | .binary .. => 9
  | e => textLevel e

def Spelled (e : Expr) (text : String) (t : ExprTree) : Prop :=
  language.Spells (textLevel e) text t ∧ (textLevel e = 9 → language.Names text t)

variable {n : Nat} {text : String} {t : ExprTree} {e : Expr} {names : Source.Names}

theorem Spelled.zero (h : Spelled e text t) : language.Spells 0 text t :=
  h.1.mono (Nat.zero_le _)

theorem spelled_of_names (h : language.Names text t) : Spelled e text t :=
  ⟨h.spells, fun _ => h⟩

theorem spelled_of_spells (h : language.Spells (textLevel e) text t) (hlevel : textLevel e ≠ 9) : Spelled e text t :=
  ⟨h, fun hnine => absurd hnine hlevel⟩

theorem spells_grouped (h : Spelled e text t) : language.Spells (operandLevel e) (grouped e text) t := by
  cases e with
  | binary op left right attrs =>
    by_cases hop : op = .power
    · have hnames : language.Names text t := h.2 (if_pos hop)
      rw [grouped, if_pos hop]
      exact hnames.spells
    · rw [grouped, if_neg hop]
      exact (Language.names_parens lawful_language h.zero).spells
  | _ => exact h.1

theorem five_le_operandLevel (e : Expr) : 5 ≤ operandLevel e := by
  cases e with
  | unary op => cases op <;> simp [operandLevel, textLevel]
  | _ => simp [operandLevel, textLevel]

theorem seven_le_operandLevel (h : e.type ≠ .text) : 7 ≤ operandLevel e := by
  cases e with
  | unary op => cases op <;> simp [operandLevel, textLevel]
  | join items attrs => exact absurd rfl h
  | _ => simp [operandLevel, textLevel]

/-! ### Numbers -/

variable {s literal : String} {value : Binary64} {texts : List String}

theorem begins_of_isNumeral (h : IsNumeral s.toList) : Begins s := by
  obtain ⟨c, cs, hcs, -, -, hc⟩ := Python.exists_of_isNumeral h []
  rw [Begins, hcs, List.head?_cons, Option.any_some]
  simp only [Bool.or_eq_true, Bool.and_eq_true, decide_eq_true_eq] at hc ⊢
  tauto

theorem spells_withMinus (hs : IsNumeral s.toList) (minus : Bool) :
    language.Spells 7 (if minus then "-" ++ s else s) (withMinus minus (.leaf (.number s))) := by
  cases minus with
  | true => exact spells_minus (begins_of_isNumeral hs) (spells_numeral hs)
  | false => exact spells_numeral hs

theorem spells_number (h : Numeral.value literal = .ok value) : language.Spells 7 (Source.numberLiteral literal value)
      (withMinus (writesMinus literal value) (.leaf (.number (Source.numeral literal value)))) := by
  rw [Source.numberLiteral_eq h]
  exact spells_withMinus (Source.isNumeral_numeral h) _

theorem isNumeral_widened (h : IsNumeral s.toList) : IsNumeral (widened s).toList := by
  unfold widened
  split
  · next hall =>
    have hne : s.toList ≠ [] := by
      obtain ⟨c, cs, hcs, -⟩ := Python.exists_of_isNumeral h []
      simp [hcs]
    have hzero : ∀ c ∈ ['0'], Text.isDigit c = true := by
      simp [Text.isDigit]
    simpa using Source.isNumeral_of_point hne (List.all_eq_true.mp hall) hzero
  · exact h

theorem isWhole_numberLiteral (h : Numeral.value literal = .ok value) :
    isWhole (Source.numberLiteral literal value) = (Source.numeral literal value).toList.all Text.isDigit := by
  obtain ⟨c, cs, hcs, -, -, hc⟩ := Python.exists_of_isNumeral (Source.isNumeral_numeral h) []
  have hminus : c ≠ '-' := by
    rintro rfl
    simp [Text.isDigit] at hc
  rw [Source.numberLiteral_eq h, isWhole]
  cases writesMinus literal value <;> simp [hcs, hminus]

theorem dividend_number (attrs : Attributes) (h : Numeral.value literal = .ok value) :
    dividend (.number literal value attrs) (Source.numberLiteral literal value) =
      if writesMinus literal value then "-" ++ widened (Source.numeral literal value)
      else widened (Source.numeral literal value) := by
  rw [dividend, isWhole_numberLiteral h, Source.numberLiteral_eq h, widened]
  cases writesMinus literal value <;> split <;> simp [String.append_assoc]

theorem spells_dividend (hwritable : Writable e) (htype : e.type = .number) (he : expr names e = .ok text)
    (h : Spelled e text t) :
    language.Spells 7 (dividend e text) (dividendTree writesMinus e t) := by
  have hseven : 7 ≤ operandLevel e := seven_le_operandLevel (by simp [htype])
  cases e with
  | number literal value attrs =>
    have hvalue := hwritable.denotes rfl
    rw [expr] at he
    cases he
    rw [dividend_number attrs hvalue]
    exact spells_withMinus (isNumeral_widened (Source.isNumeral_numeral hvalue)) _
  | length operand attrs => exact spells_cast ((h.2 rfl).spells)
  | _ => exact (spells_grouped h).mono hseven

/-! ### Calls -/

theorem names_apply (name : String) (hname : isName name = true) {opening : String} (hopening : opening = name ++ "(")
    (h : language.Spells 0 text t) : language.Names (opening ++ text ++ ")") (callOf name [t]) := by
  have hcall := Language.names_call lawful_language (names_name hname) (.cons h .nil)
  rw [String.intercalate_singleton, ← hopening] at hcall
  exact hcall

theorem names_pow {text' : String} {t' : ExprTree} (h : language.Spells 0 text t) (h' : language.Spells 0 text' t') :
    language.Names ("pow(" ++ text ++ ", " ++ text' ++ ")") (callOf "pow" [t, t']) := by
  have hcall := Language.names_call lawful_language (names_name (s := "pow") (by decide)) (.cons h (.cons h' .nil))
  have htext : "pow" ++ "(" ++ ", ".intercalate [text, text'] ++ ")" = "pow(" ++ text ++ ", " ++ text' ++ ")" := by
    rw [String.intercalate_cons_cons, String.intercalate_singleton]
    apply String.toList_inj.mp
    simp
  rw [htext] at hcall
  exact hcall

theorem names_text (value : String) : language.Names ("String(" ++ Source.quote value ++ ")") (textTree value) :=
  names_apply "String" (by decide) (by decide) (names_quote value).spells

theorem spells_joined (h : Spelled e text t) : language.Spells 6 (joined e text) (converted e t) := by
  cases e with
  | text value attrs => exact (h.2 rfl).spells
  | _ => exact (names_apply "String" (by decide) (by decide) h.zero).spells

theorem spells_sum {items : List ExprTree} (h : List.Forall₂ (language.Spells 6) texts items) :
    language.Spells 5 (sum texts) (sumTree items) := by
  cases h with
  | nil => exact (names_text "").spells
  | cons hfirst hrest =>
    have hadd : BinaryOp.add ≠ .power := by
      decide
    exact Language.spells_sum lawful_language (L := language) .add rfl (fun cs => tokens?_cons (scan_operator hadd cs))
      (by decide) rfl (hfirst.mono (by decide)) hrest

/-! ### Operands behind a sign -/

theorem begins_of_isName (h : isName s = true) : Begins s := by
  obtain ⟨hword, -⟩ := wordToken_of_isName h
  have hend : ∀ c, ([] : List Char).head? = some c → Python.isWordChar c = false := by
    simp
  obtain ⟨c, cs, hcs, hc, -⟩ := Python.exists_of_isWord hword hend
  simp [Begins, hcs, hc]

theorem begins_parens (text : String) : Begins (parens text) :=
  ((show Begins "(" by decide).append text).append ")"

theorem begins_of_list {element : Ty} (htype : e.type = .list element)
    (hnames : ∀ v ∈ e.vars, isName (names.get v.name) = true)
    (he : expr names e = .ok text) : Begins text := by
  cases e with
  | var v =>
    rw [expr, var] at he
    obtain ⟨_, -, htext⟩ := bind_ok_iff.mp he
    cases htext
    exact begins_of_isName (hnames v List.mem_cons_self)
  | list element items attrs =>
    rw [expr] at he
    obtain ⟨name, -, hrest⟩ := bind_ok_iff.mp he
    obtain ⟨texts, -, htext⟩ := bind_ok_iff.mp hrest
    cases htext
    have hbegins : Begins "std::vector<" := by decide
    exact (((hbegins.append name).append _).append _).append _
  | binary op => cases op <;> cases htype
  | unary op => cases op <;> cases htype
  | _ => cases htype

theorem begins_grouped (hwritable : Writable e) (hnames : ∀ v ∈ e.vars, isName (names.get v.name) = true)
    (htype : e.type ≠ .text) (hunary : ∀ op operand attrs, e ≠ .unary op operand attrs)
    (he : expr names e = .ok text) : Begins (grouped e text) ∨ (grouped e text).toList.head? = some '-' := by
  cases e with
  | var v =>
    rw [expr, var] at he
    obtain ⟨_, -, htext⟩ := bind_ok_iff.mp he
    cases htext
    exact .inl (begins_of_isName (hnames v List.mem_cons_self))
  | number literal value attrs =>
    have hvalue := hwritable.denotes rfl
    have hnumeral := begins_of_isNumeral (Source.isNumeral_numeral hvalue)
    rw [expr, Source.numberLiteral_eq hvalue, Except.ok.injEq] at he
    rw [grouped, ← he]
    · cases writesMinus literal value with
      | true => exact .inr (by simp)
      | false =>
        rw [if_neg Bool.false_ne_true]
        exact .inl hnumeral
    · simp
  | boolean value attrs =>
    rw [expr] at he
    cases he
    have hbegins : Begins (Json.boolText value) := by
      cases value <;> decide
    exact .inl hbegins
  | text value attrs => exact absurd rfl htype
  | binary op left right attrs =>
    by_cases hop : op = .power
    · subst hop
      rw [expr] at he
      obtain ⟨leftText, -, hrest⟩ := bind_ok_iff.mp he
      obtain ⟨rightText, -, htext⟩ := bind_ok_iff.mp hrest
      cases htext
      have hbegins : Begins "pow(" := by decide
      exact .inl ((((hbegins.append leftText).append _).append _).append _)
    · rw [grouped, if_neg hop]
      exact .inl (begins_parens text)
  | unary op operand attrs => exact absurd rfl (hunary op operand attrs)
  | list element items attrs => exact .inl (begins_of_list rfl hnames he)
  | length operand attrs =>
    obtain ⟨element, helement⟩ := hwritable.checks
    rw [expr] at he
    obtain ⟨operandText, hoperand, htext⟩ := bind_ok_iff.mp he
    cases htext
    exact .inl ((begins_of_list helement hnames hoperand).append _)
  | join items attrs => exact absurd rfl htype

theorem spells_signed (hwritable : Writable e) (hnames : ∀ v ∈ e.vars, isName (names.get v.name) = true)
    (htype : e.type ≠ .text) (he : expr names e = .ok text) (h : Spelled e text t) :
    language.Spells 7 (signed e text) t ∧ Begins (signed e text) := by
  by_cases hunary : ∃ op operand attrs, e = .unary op operand attrs
  · obtain ⟨op, operand, attrs, rfl⟩ := hunary
    exact ⟨(Language.names_parens lawful_language h.zero).spells, begins_parens text⟩
  · push Not at hunary
    have hgrouped := spells_grouped h
    have hsigned : signed e text =
        if (grouped e text).toList.head? == some '-' then parens (grouped e text) else grouped e text := by
      cases e with
      | unary op operand attrs => exact absurd rfl (hunary op operand attrs)
      | _ => rfl
    rw [hsigned]
    split
    · exact ⟨(Language.names_parens lawful_language (hgrouped.mono (Nat.zero_le _))).spells, begins_parens _⟩
    · next hminus =>
      refine ⟨hgrouped.mono (seven_le_operandLevel htype), ?_⟩
      exact (begins_grouped hwritable hnames htype hunary he).resolve_right (by simpa using hminus)

/-! ### All expressions -/

theorem spelled_unary {op : UnaryOp} {operand : Expr} {attrs : Attributes} (hwritable : Writable operand)
    (hchecks : (Expr.unary op operand attrs).Checks) (hnames : ∀ v ∈ operand.vars, isName (names.get v.name) = true)
    (he : expr names operand = .ok text) (h : Spelled operand text t) :
    Spelled (.unary op operand attrs) (unary op operand text) (applied op t) := by
  have htype : operand.type ≠ .text := by
    rw [hchecks]
    cases op <;> simp [UnaryOp.operandType]
  obtain ⟨hsigned, hbegins⟩ := spells_signed hwritable hnames htype he h
  cases op with
  | not => exact spelled_of_spells (spells_not hbegins hsigned) (by simp [textLevel])
  | neg => exact spelled_of_spells (spells_minus hbegins hsigned) (by simp [textLevel])
  | root => exact spelled_of_names (names_apply "sqrt" (by decide) (by decide) h.zero)
  | abs => exact spelled_of_names (names_apply "fabs" (by decide) (by decide) h.zero)
  | ln => exact spelled_of_names (names_apply "log" (by decide) (by decide) h.zero)
  | log10 => exact spelled_of_names (names_apply "log10" (by decide) (by decide) h.zero)
  | exp => exact spelled_of_names (names_apply "exp" (by decide) (by decide) h.zero)
  | pow10 =>
    have hten : language.Spells 0 "10" (.leaf (.number "10")) := spells_numeral ⟨by decide, by decide, by decide⟩
    have hpow := names_pow hten h.zero
    have htext : "pow(" ++ "10" ++ ", " ++ text ++ ")" = "pow(10, " ++ text ++ ")" := by
      apply String.toList_inj.mp
      simp
    rw [htext] at hpow
    exact spelled_of_names hpow

section Binary

variable {op : BinaryOp} {left right : Expr} {attrs : Attributes}

theorem right_le_operandLevel (h : (Expr.binary op left right attrs).Checks) :
    (operators.binding op).right ≤ operandLevel right := by
  have hfive := five_le_operandLevel right
  by_cases hop : op.operandType = .number
  · have hseven : 7 ≤ operandLevel right := seven_le_operandLevel (by simp [(Python.types_of_checks h hop).2])
    have hright : (operators.binding op).right ≤ 7 := by
      cases op <;> decide
    omega
  · have hright : (operators.binding op).right ≤ 5 := by
      cases op <;> first | decide | exact absurd rfl hop
    omega

theorem left_le_operandLevel (h : (Expr.binary op left right attrs).Checks) :
    (operators.binding op).left ≤ operandLevel left := by
  have hfive := five_le_operandLevel left
  by_cases hop : op.operandType = .number
  · have hseven : 7 ≤ operandLevel left := seven_le_operandLevel (by simp [(Python.types_of_checks h hop).1])
    have hleft : (operators.binding op).left ≤ 6 := by
      cases op <;> decide
    omega
  · have hleft : (operators.binding op).left ≤ 5 := by
      cases op <;> first | decide | exact absurd rfl hop
    omega

theorem spelled_binary {leftText rightText : String} {leftTree rightTree : ExprTree}
    (hchecks : (Expr.binary op left right attrs).Checks) (hleft : Writable left) (hright : Writable right)
    (hl : expr names left = .ok leftText) (hr : expr names right = .ok rightText)
    (h : Spelled left leftText leftTree) (h' : Spelled right rightText rightTree) :
    Spelled (.binary op left right attrs) (binary op left right leftText rightText)
      (combined op (operandTree writesMinus true op left leftTree) (operandTree writesMinus true op right rightTree)) := by
  by_cases hpower : op = .power
  · subst hpower
    exact spelled_of_names (names_pow h.zero h'.zero)
  have hlevel : textLevel (.binary op left right attrs) = 0 := if_neg hpower
  apply spelled_of_spells
  · rw [hlevel, combined, if_neg hpower]
    by_cases hdivide : op = .divide
    · subst hdivide
      obtain ⟨hltype, hrtype⟩ := Python.types_of_checks hchecks rfl
      have hl' := spells_dividend hleft hltype hl h
      have hr' := spells_dividend hright hrtype hr h'
      have htext : binary .divide left right leftText rightText =
          dividend left leftText ++ " " ++ sign .divide ++ " " ++ dividend right rightText := by
        apply String.toList_inj.mp
        simp [binary, sign]
      rw [htext, operandTree, if_pos ⟨rfl, rfl⟩, operandTree, if_pos ⟨rfl, rfl⟩]
      exact spells_binary hpower (hl'.mono (by decide)) (hr'.mono (by decide))
    · have htext : binary op left right leftText rightText =
          grouped left leftText ++ " " ++ sign op ++ " " ++ grouped right rightText := by
        cases op <;> first | rfl | exact absurd rfl hpower | exact absurd rfl hdivide
      rw [htext, operandTree, if_neg fun hboth => hdivide hboth.2, operandTree, if_neg fun hboth => hdivide hboth.2]
      exact spells_binary hpower ((spells_grouped h).mono (left_le_operandLevel hchecks))
        ((spells_grouped h').mono (right_le_operandLevel hchecks))
  · simp [hlevel]

end Binary

theorem forall₂_exprs {items : List Expr}
    (h : ∀ e ∈ items, ∀ {text}, expr names e = .ok text → Spelled e text (tree names.get writesMinus true e))
    (htexts : List.Forall₂ (fun e text => expr names e = .ok text) items texts) :
    List.Forall₂ (language.Spells 0) texts (trees names.get writesMinus true items) := by
  induction htexts with
  | nil => exact .nil
  | cons htext _ ih =>
    obtain ⟨he, hrest⟩ := List.forall_mem_cons.mp h
    exact .cons (he htext).zero (ih hrest)

theorem forall₂_joinedItems {items : List Expr}
    (h : ∀ e ∈ items, ∀ {text}, expr names e = .ok text → Spelled e text (tree names.get writesMinus true e))
    (htexts : List.Forall₂ (fun e text => ∃ inner, expr names e = .ok inner ∧ text = joined e inner) items texts) :
    List.Forall₂ (language.Spells 6) texts (convertedTrees names.get writesMinus true items) := by
  induction htexts with
  | nil => exact .nil
  | cons htext _ ih =>
    obtain ⟨he, hrest⟩ := List.forall_mem_cons.mp h
    obtain ⟨inner, hinner, rfl⟩ := htext
    exact .cons (spells_joined (he hinner)) (ih hrest)

theorem spelled_expr (e : Expr) {text : String} (hwritable : e.Everywhere Writable)
    (hnames : ∀ v ∈ e.vars, isName (names.get v.name) = true) (he : expr names e = .ok text) :
    Spelled e text (tree names.get writesMinus true e) := by
  induction e generalizing text with
  | var v =>
    rw [expr, var] at he
    obtain ⟨_, -, htext⟩ := bind_ok_iff.mp he
    cases htext
    exact spelled_of_names (names_name (hnames v List.mem_cons_self))
  | number literal value attrs =>
    rw [expr] at he
    cases he
    exact spelled_of_spells (spells_number (hwritable.here.denotes rfl)) (by simp [textLevel])
  | boolean value attrs =>
    rw [expr] at he
    cases he
    exact spelled_of_names (names_truth value)
  | text value attrs =>
    rw [expr] at he
    cases he
    exact spelled_of_names (names_text value)
  | binary op left right attrs ihl ihr =>
    obtain ⟨hhere, hleft, hright⟩ := Expr.everywhere_binary.mp hwritable
    rw [expr] at he
    obtain ⟨leftText, hl, hrest⟩ := bind_ok_iff.mp he
    obtain ⟨rightText, hr, htext⟩ := bind_ok_iff.mp hrest
    cases htext
    exact spelled_binary hhere.checks hleft.here hright.here hl hr
      (ihl hleft (fun v hv => hnames v (List.mem_append_left _ hv)) hl)
      (ihr hright (fun v hv => hnames v (List.mem_append_right _ hv)) hr)
  | unary op operand attrs ih =>
    obtain ⟨hhere, hoperand⟩ := Expr.everywhere_unary.mp hwritable
    rw [expr] at he
    obtain ⟨operandText, ho, htext⟩ := bind_ok_iff.mp he
    cases htext
    exact spelled_unary hoperand.here hhere.checks hnames ho (ih hoperand hnames ho)
  | list element items attrs ih =>
    obtain ⟨-, hitems⟩ := Expr.everywhere_list.mp hwritable
    rw [expr] at he
    obtain ⟨name, hname, hrest⟩ := bind_ok_iff.mp he
    obtain ⟨texts, htexts, htext⟩ := bind_ok_iff.mp hrest
    cases htext
    apply spelled_of_names
    apply names_listLiteral hname
    apply forall₂_exprs _ (forall₂_of_exprs htexts)
    intro e he text htext
    exact ih e he (hitems e he) (fun v hv => hnames v (Expr.mem_varsIn.mpr ⟨e, he, hv⟩)) htext
  | length operand attrs ih =>
    obtain ⟨hhere, hoperand⟩ := Expr.everywhere_length.mp hwritable
    obtain ⟨element, helement⟩ := hhere.checks
    rw [expr] at he
    obtain ⟨operandText, ho, htext⟩ := bind_ok_iff.mp he
    cases htext
    have hlevel : textLevel operand = 9 := by
      cases operand with
      | var v => rfl
      | list element items attrs => rfl
      | binary op => cases op <;> cases helement
      | unary op => cases op <;> cases helement
      | _ => cases helement
    exact spelled_of_names (names_size ((ih hoperand hnames ho).2 hlevel))
  | join items attrs ih =>
    obtain ⟨-, hitems⟩ := Expr.everywhere_join.mp hwritable
    rw [expr] at he
    obtain ⟨texts, htexts, htext⟩ := bind_ok_iff.mp he
    cases htext
    refine spelled_of_spells (spells_sum (forall₂_joinedItems ?_ (forall₂_of_joinedItems htexts))) (by simp [textLevel])
    intro e he text htext
    exact ih e he (hitems e he) (fun v hv => hnames v (Expr.mem_varsIn.mpr ⟨e, he, hv⟩)) htext

/-! ## Variables and their names -/

def renamedAtom (f : String → String) : Atom → Atom
  | .name s => .name (f s)
  | a => a

mutual

def renamed (f : String → String) : ExprTree → ExprTree
  | .leaf a => .leaf (renamedAtom f a)
  | .unary op t => .unary op (renamed f t)
  | .binary op left right => .binary op (renamed f left) (renamed f right)
  | .call function args => .call (renamedFunction f function) (renamedAll f args)
  | .list items => .list (renamedAll f items)
  | .member whole name => .member (renamed f whole) name
  | .build type items => .build type (renamedAll f items)

def renamedFunction (f : String → String) : ExprTree → ExprTree
  | .member whole name => .member (renamed f whole) name
  | function => function

def renamedAll (f : String → String) : List ExprTree → List ExprTree
  | [] => []
  | t :: rest => renamed f t :: renamedAll f rest

end

attribute [local simp] renamed renamedFunction renamedAll

theorem renamedAll_eq_map (f : String → String) (ts : List ExprTree) : renamedAll f ts = ts.map (renamed f) := by
  induction ts with
  | nil => rw [renamedAll, map_nil]
  | cons t rest ih => rw [renamedAll, ih, map_cons]

section Renamed

variable (f : String → String)

theorem renamed_withMinus (minus : Bool) (t : ExprTree) :
    renamed f (withMinus minus t) = withMinus minus (renamed f t) := by
  cases minus <;> simp [withMinus]

theorem renamed_callOf (name : String) (args : List ExprTree) :
    renamed f (callOf name args) = callOf name (args.map (renamed f)) := by
  simp [callOf, renamedAll_eq_map]

theorem renamed_applied (op : UnaryOp) (t : ExprTree) : renamed f (applied op t) = applied op (renamed f t) := by
  cases op <;> simp [applied, renamed_callOf, renamedAtom]

theorem renamed_combined (op : BinaryOp) (left right : ExprTree) :
    renamed f (combined op left right) = combined op (renamed f left) (renamed f right) := by
  by_cases hop : op = .power <;> simp [combined, hop, renamed_callOf]

theorem renamed_operandTree (minus : String → Binary64 → Bool) (wide : Bool) (op : BinaryOp) (e : Expr) (t : ExprTree) :
    renamed f (operandTree minus wide op e t) = operandTree minus wide op e (renamed f t) := by
  unfold operandTree
  split
  · cases e <;> simp [dividendTree, renamed_withMinus, renamedAtom]
  · rfl

theorem renamed_converted (e : Expr) (t : ExprTree) : renamed f (converted e t) = converted e (renamed f t) := by
  cases e <;> simp [converted, renamed_callOf]

theorem renamed_textTree (value : String) : renamed f (textTree value) = textTree value := by
  simp [textTree, renamed_callOf, renamedAtom]

theorem renamed_sumTree (ts : List ExprTree) : renamed f (sumTree ts) = sumTree (ts.map (renamed f)) := by
  cases ts with
  | nil => exact renamed_textTree f ""
  | cons t ts =>
    rw [sumTree, map_cons, sumTree, List.foldl_map]
    exact (List.foldl_hom (renamed f) fun left right => by rw [renamed]).symm

theorem renamed_tree {spell spell' : String → String} (minus : String → Binary64 → Bool) (wide : Bool) (e : Expr)
    (h : ∀ v ∈ e.vars, f (spell v.name) = spell' v.name) :
    renamed f (tree spell minus wide e) = tree spell' minus wide e := by
  induction e with
  | var v => simp [renamedAtom, h v List.mem_cons_self]
  | number literal value attrs => simp [renamed_withMinus, renamedAtom]
  | boolean value attrs => simp [renamedAtom]
  | text value attrs => simp [renamed_textTree]
  | binary op left right attrs ihl ihr =>
    rw [tree, tree, renamed_combined, renamed_operandTree, renamed_operandTree,
      ihl fun v hv => h v (List.mem_append_left _ hv), ihr fun v hv => h v (List.mem_append_right _ hv)]
  | unary op operand attrs ih => rw [tree, tree, renamed_applied, ih h]
  | list element items attrs ih =>
    rw [tree, tree, renamed, renamedAll_eq_map, trees_eq_map, trees_eq_map, map_map]
    apply congrArg (Tree.build _)
    apply List.map_congr_left
    intro e he
    exact ih e he fun v hv => h v (Expr.mem_varsIn.mpr ⟨e, he, hv⟩)
  | length operand attrs ih => simp [ih h]
  | join items attrs ih =>
    rw [tree, tree, renamed_sumTree, convertedTrees_eq_map, convertedTrees_eq_map, map_map]
    apply congrArg sumTree
    apply List.map_congr_left
    intro e he
    exact (renamed_converted f e _).trans
      (congrArg (converted e) (ih e he fun v hv => h v (Expr.mem_varsIn.mpr ⟨e, he, hv⟩)))

end Renamed

structure Distinguishes (names : Source.Names) (vars : List Var) : Prop where
  isName : ∀ v ∈ vars, isName (names.get v.name) = true
  distinct : ∀ v ∈ vars, ∀ w ∈ vars, names.get v.name = names.get w.name → v.name = w.name

/-- The tree of a text, with the variables that have its identifiers. -/
def read? (names : Source.Names) (vars : List Var) (text : String) : Option ExprTree :=
  (parse? text).map (renamed (Python.owner names vars))

/-- The tree of an expression: a negative number is a minus before its absolute value. -/
def operatorTree (e : Expr) : ExprTree :=
  tree id (fun _ value => value.isNegative) false e

def writtenTree (e : Expr) : ExprTree :=
  tree id writesMinus true e

theorem read?_expr (hwritable : e.Everywhere Writable) (hnames : Distinguishes names e.vars)
    (he : expr names e = .ok text) : read? names e.vars text = some (writtenTree e) := by
  have hspells := (spelled_expr e hwritable hnames.isName he).1
  have hparse : parse? text = some (tree names.get writesMinus true e) :=
    Language.parse?_of_spells lawful_language hspells
  rw [read?, hparse, Option.map_some]
  exact congrArg some (renamed_tree _ writesMinus true e fun v hv => Python.owner_get hnames.distinct hv)

/-! ## Trees without widening -/

def narrowedNumeral (numeral : String) : String :=
  let whole := numeral.toList.takeWhile Text.isDigit
  if numeral.toList = whole ++ ['.', '0'] then String.ofList whole else numeral

def narrowedAtom : Atom → Atom
  | .number numeral => .number (narrowedNumeral numeral)
  | a => a

mutual

/-- A tree without casts to floating point numbers, and without fractions of zero. -/
def narrowed : ExprTree → ExprTree
  | .leaf a => .leaf (narrowedAtom a)
  | .unary op t => if op = .cast .number then narrowed t else .unary op (narrowed t)
  | .binary op left right => .binary op (narrowed left) (narrowed right)
  | .call function args => .call (narrowed function) (narrowedAll args)
  | .list items => .list (narrowedAll items)
  | .member whole name => .member (narrowed whole) name
  | .build type items => .build (narrowed type) (narrowedAll items)

def narrowedAll : List ExprTree → List ExprTree
  | [] => []
  | t :: rest => narrowed t :: narrowedAll rest

end

attribute [local simp] narrowed narrowedAll

theorem narrowedAll_eq_map (ts : List ExprTree) : narrowedAll ts = ts.map narrowed := by
  induction ts with
  | nil => rw [narrowedAll, map_nil]
  | cons t rest ih => rw [narrowedAll, ih, map_cons]

theorem narrowedNumeral_widened (numeral : String) : narrowedNumeral (widened numeral) = narrowedNumeral numeral := by
  unfold widened
  split
  · next hall =>
    have hwhole : numeral.toList.takeWhile Text.isDigit = numeral.toList :=
      List.takeWhile_eq_self_iff.mpr (List.all_eq_true.mp hall)
    have hpoint : ['.', '0'].takeWhile Text.isDigit = [] := by decide
    have hlong : numeral.toList ≠ numeral.toList ++ ['.', '0'] := by simp
    have htake : (numeral ++ ".0").toList.takeWhile Text.isDigit = numeral.toList := by
      rw [String.toList_append, List.takeWhile_append_of_pos (List.all_eq_true.mp hall)]
      simp [Text.isDigit]
    simp only [narrowedNumeral, hwhole, if_neg hlong, htake]
    simp
  · rfl

theorem narrowed_withMinus (minus : Bool) (t : ExprTree) :
    narrowed (withMinus minus t) = withMinus minus (narrowed t) := by
  cases minus <;> simp [withMinus]

theorem narrowed_callOf (name : String) (args : List ExprTree) :
    narrowed (callOf name args) = callOf name (args.map narrowed) := by
  simp [callOf, narrowedAll_eq_map, narrowedAtom]

theorem narrowed_applied (op : UnaryOp) (t : ExprTree) : narrowed (applied op t) = applied op (narrowed t) := by
  have hten : narrowedNumeral "10" = "10" := by decide
  cases op <;> simp [applied, narrowed_callOf, narrowedAtom, hten]

theorem narrowed_combined (op : BinaryOp) (left right : ExprTree) :
    narrowed (combined op left right) = combined op (narrowed left) (narrowed right) := by
  by_cases hop : op = .power <;> simp [combined, hop, narrowed_callOf]

theorem narrowed_operandTree (spell : String → String) (minus : String → Binary64 → Bool) (wide : Bool) (op : BinaryOp)
    (e : Expr) :
    narrowed (operandTree minus wide op e (tree spell minus wide e)) = narrowed (tree spell minus wide e) := by
  unfold operandTree
  split
  · cases e <;> simp [dividendTree, narrowed_withMinus, narrowedAtom, narrowedNumeral_widened]
  · rfl

theorem narrowed_converted (e : Expr) (t : ExprTree) : narrowed (converted e t) = converted e (narrowed t) := by
  cases e <;> simp [converted, narrowed_callOf]

theorem narrowed_sumTree (ts : List ExprTree) : narrowed (sumTree ts) = sumTree (ts.map narrowed) := by
  cases ts with
  | nil => simp [sumTree, textTree, narrowed_callOf, narrowedAtom]
  | cons t ts =>
    rw [sumTree, map_cons, sumTree, List.foldl_map]
    exact (List.foldl_hom narrowed fun left right => by rw [narrowed]).symm

theorem applied_injective (op : UnaryOp) : Function.Injective (applied op) := by
  intro t t' h
  cases op <;> simpa [applied, callOf] using h

theorem combined_inj {op : BinaryOp} {left left' right right' : ExprTree} :
    combined op left right = combined op left' right' ↔ left = left' ∧ right = right' := by
  by_cases hop : op = .power <;> simp [combined, hop, callOf]

theorem converted_injective (e : Expr) : Function.Injective (converted e) := by
  intro t t' h
  cases e <;> simpa [converted, callOf] using h

theorem sumTree_inj {ts ts' : List ExprTree} (hlength : ts.length = ts'.length) :
    sumTree ts = sumTree ts' ↔ ts = ts' := by
  refine ⟨?_, congrArg sumTree⟩
  intro h
  cases ts with
  | nil => exact (List.length_eq_zero_iff.mp hlength.symm).symm
  | cons t ts =>
    cases ts' with
    | nil => cases hlength
    | cons t' ts' =>
      obtain ⟨hfirst, hrest⟩ := Tree.foldl_binary_inj (Nat.succ.inj hlength) h
      rw [hfirst, hrest]

theorem narrowed_tree_eq_iff (spell : String → String) (minus minus' : String → Binary64 → Bool) (wide wide' : Bool)
    (e : Expr) :
    narrowed (tree spell minus wide e) = narrowed (tree spell minus' wide' e) ↔
      e.Everywhere (SameMinus minus minus') := by
  induction e with
  | var v => simp [SameMinus]
  | number literal value attrs =>
    rw [tree, tree, Expr.everywhere_number, SameMinus, narrowed_withMinus, narrowed_withMinus]
    cases minus literal value <;> cases minus' literal value <;> simp [withMinus]
  | boolean value attrs => simp [SameMinus]
  | text value attrs => simp [SameMinus]
  | binary op left right attrs ihl ihr =>
    rw [tree, tree, narrowed_combined, narrowed_combined, combined_inj, narrowed_operandTree, narrowed_operandTree,
      narrowed_operandTree, narrowed_operandTree, Expr.everywhere_binary, ← ihl, ← ihr]
    simp [SameMinus]
  | unary op operand attrs ih =>
    rw [tree, tree, narrowed_applied, narrowed_applied, (applied_injective op).eq_iff, Expr.everywhere_unary, ← ih]
    simp [SameMinus]
  | list element items attrs ih =>
    rw [Expr.everywhere_list]
    simp only [tree, narrowed, narrowedAll_eq_map, trees_eq_map, map_map, Tree.build.injEq, true_and,
      List.map_inj_left, SameMinus]
    exact forall₂_congr ih
  | length operand attrs ih =>
    rw [Expr.everywhere_length, ← ih]
    simp [SameMinus]
  | join items attrs ih =>
    rw [tree, tree, narrowed_sumTree, narrowed_sumTree, sumTree_inj (by simp [convertedTrees_eq_map]),
      convertedTrees_eq_map, convertedTrees_eq_map, map_map, map_map, Expr.everywhere_join]
    simp only [List.map_inj_left, Function.comp_apply, narrowed_converted, (converted_injective _).eq_iff,
      SameMinus, true_and]
    exact forall₂_congr ih

end Blockwork.Arduino

namespace Blockwork.Program

open Arduino

variable {blocks : List Block} {allowFloating : Bool} {p : Program} {e : Expr}

/-- The text of an expression of an accepted program is read as the tree of its operators, up to the widening of
operands of divisions, whatever names its variables have. Only a minus before a zero with more zeros in front is not
read, as it is not written. -/
theorem read?_arduino (h : ofBlocks blocks allowFloating = .ok p) (he : e ∈ p.roots.flatMap Root.exprs)
    {names : Source.Names} (hnames : Distinguishes names e.vars) {text : String} (htext : expr names e = .ok text) :
    read? names e.vars text = some (writtenTree e) ∧
    ((read? names e.vars text).map narrowed = some (narrowed (operatorTree e)) ↔
      ∀ part ∈ e.parts, Python.losesMinus part = false) := by
  have hread := read?_expr (writable_of_ofBlocks h he) hnames htext
  refine ⟨hread, ?_⟩
  rw [hread, Option.map_some, Option.some.injEq, writtenTree, operatorTree, narrowed_tree_eq_iff]
  exact forall₂_congr fun part _ => Python.sameMinus_iff part

/-- A negated negative number, divided by the length of a list. -/
def quotientBlock : Block :=
  { tag := Tag.arithmetic.name, attrs := { id := "a" }, fields := [("OP", "DIVIDE")],
    values :=
      [("A", { tag := Tag.function.name, attrs := { id := "b" }, fields := [("OP", "NEG")],
               values := [("NUM", numberBlock "c" "-2")] }),
       ("B", { tag := Tag.length.name, attrs := { id := "d" },
               values := [("VALUE", { tag := Tag.list.name,
                                      attrs := { id := "e", mutation := some [("list_type", "Number")] },
                                      values := [("ADD0", readingBlock "f" "x")] })] })] }

theorem read?_arduino_quotient :
    ∃ p e, ofBlocks [quotientBlock] true = .ok p ∧ e ∈ p.roots.flatMap Root.exprs ∧
      expr oneName e = .ok "-(-2) / (double) std::vector<double>\x7bv\x7d.size()" ∧
      (read? oneName e.vars "-(-2) / (double) std::vector<double>\x7bv\x7d.size()").map narrowed =
        some (narrowed (operatorTree e)) := by
  have hfirst := exists_of_any [quotientBlock] true (fun p => ((p.roots.flatMap Root.exprs).head?.any fun e =>
      expr oneName e = .ok "-(-2) / (double) std::vector<double>\x7bv\x7d.size()" ∧ e.vars.map Var.name = ["x"] ∧
        (e.parts.all fun part => !Python.losesMinus part) = true) = true) (by decide +kernel)
  obtain ⟨p, hp, hany⟩ := hfirst
  obtain ⟨e, hhead, hproperties⟩ := (Option.any_eq_true _ _).mp hany
  obtain ⟨htext, hvars, hkeeps⟩ := of_decide_eq_true hproperties
  have hmem : e ∈ p.roots.flatMap Root.exprs := List.mem_of_head? hhead
  have hnames : Distinguishes oneName e.vars := by
    refine ⟨?_, ?_⟩
    · intro v hv
      rw [name_eq_of_singleton hvars hv]
      decide
    · intro v hv w hw _
      rw [name_eq_of_singleton hvars hv, name_eq_of_singleton hvars hw]
  refine ⟨p, e, hp, hmem, htext, ?_⟩
  apply (read?_arduino hp hmem hnames htext).2.mpr
  simpa using hkeeps

/-- A zero with a minus and another zero in front is written without the minus. -/
theorem read?_arduino_minusZero :
    ∃ p e, ofBlocks [numberBlock "a" "-00"] true = .ok p ∧ e ∈ p.roots.flatMap Root.exprs ∧
      expr .none e = .ok "0" ∧ operatorTree e = .unary .neg (.leaf (.number "0")) ∧
      read? .none e.vars "0" = some (.leaf (.number "0")) := by
  have htree : operatorTree (.number "-00" (.zero true) { id := "a" }) = .unary .neg (.leaf (.number "0")) := by
    rw [operatorTree, tree, numeral_minusZero.1]
    rfl
  have hexpr : expr .none (.number "-00" (.zero true) { id := "a" }) = .ok "0" := by
    rw [expr, numeral_minusZero.2]
  refine ⟨⟨[.value (.number "-00" (.zero true) { id := "a" })]⟩, .number "-00" (.zero true) { id := "a" }, ?_⟩
  exact ⟨by cbv, List.mem_singleton_self _, hexpr, htree, by cbv⟩

end Blockwork.Program
