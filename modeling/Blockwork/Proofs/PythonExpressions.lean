import Blockwork.Proofs.Acceptance
import Blockwork.Proofs.NumberTexts
import Blockwork.Proofs.Renderable
import Blockwork.Proofs.Spelling

/-! # Expressions in Python

* `Python.Spells n text t` says that a text is read as a tree, wherever an operand of the level `n` may stand and no
  word or number goes on after it. It is `Language.Spells`, so the rules for all languages apply.
* `Python.tree` is the tree of the operators of an expression.
* `Program.read?_python` says that the text of an expression is read as the tree of its operators.
-/

namespace Blockwork.Python

set_option autoImplicit false

open Precedence (Language Token Tree Table)
open Source (writesMinus)

/-! ## Texts of trees -/

def language : Language Atom BinaryOp UnaryOp where
  isWordChar := isWordChar
  scan := scan
  opened := (.opens .round :: ·)
  table := operators

theorem lawful_language : language.Lawful where
  table := lawful_operators
  divides := not_isWordChar
  scan_nil := scan_nil
  scan_space := scan_space
  scan_comma := scan_comma
  scan_open := scan_open
  scan_close := scan_close
  opened_cons _ _ _ := rfl

def Spells (n : Nat) (text : String) (t : ExprTree) : Prop :=
  ∃ tokens, operators.Reads n tokens t ∧
    ∀ rest, Ends rest → scan (text.toList ++ rest) = (scan rest).map (tokens ++ ·)

variable {n : Nat} {text text' : String} {t t' : ExprTree}

theorem Spells.mono {m : Nat} (h : Spells n text t) (hmn : m ≤ n) : Spells m text t :=
  Language.Spells.mono (L := language) h hmn

theorem parse?_of_spells (h : Spells n text t) : parse? text = some t :=
  Language.parse?_of_spells lawful_language h

theorem names_name {s : String} (hs : isName s = true) : language.Names s (.leaf (.name s)) := by
  obtain ⟨hword, htoken⟩ := wordToken_of_isName hs
  refine ⟨[.atom (.name s)], Table.completes_atom _, ?_⟩
  intro rest hrest
  have hscan := scan_word hword hrest
  rw [htoken] at hscan
  exact hscan

theorem spells_truth (b : Bool) : Spells n (if b then "True" else "False") (.leaf (.truth b)) := by
  have hword : isWord (if b then "True" else "False") = true := by
    cases b <;> decide
  have htoken : wordToken (if b then "True" else "False") = .atom (.truth b) := by
    cases b <;> decide
  refine ⟨[.atom (.truth b)], (Table.completes_atom _).reads, ?_⟩
  intro rest hrest
  rw [scan_word hword fun c hc => (hrest c hc).1, htoken]
  rfl

theorem spells_text (s : String) : Spells n (Source.quote s) (.leaf (.text s)) := by
  refine ⟨[.atom (.text s)], (Table.completes_atom _).reads, ?_⟩
  intro rest _
  exact scan_quote s rest

theorem spells_numeral {s : String} (hs : IsNumeral s.toList) : Spells n s (.leaf (.number s)) := by
  refine ⟨[.atom (.number s)], (Table.completes_atom _).reads, ?_⟩
  intro rest hrest
  rw [scan_number hs hrest, String.ofList_toList]
  rfl

theorem spells_parens (h : Spells 0 text t) : Spells n (parens text) t :=
  (Language.names_parens lawful_language h).spells

theorem spells_minus (h : Spells 7 text t) : Spells 7 ("-" ++ text) (.unary .neg t) :=
  Language.spells_unary (L := language) "-" rfl (fun _ => scan_minus _) h

theorem spells_not (h : Spells 3 text t) : Spells 3 ("not " ++ text) (.unary .not t) := by
  have hscan : ∀ cs, scan ("not ".toList ++ cs) = (scan cs).map (.sign "not" :: ·) := by
    intro cs
    have hblank : "not ".toList ++ cs = "not".toList ++ ' ' :: cs := by
      simp
    have htoken : wordToken "not" = .sign "not" := by
      decide
    rw [hblank, scan_word (by decide) (by simp [isWordChar, isWordStart, Text.isLetter, Text.isDigit]), htoken,
      scan_space]
  exact Language.spells_unary (L := language) "not" rfl (fun _ => hscan _) h

theorem binary?_sign (op : BinaryOp) : operators.binary? (sign op) = some op := by
  cases op <;> decide

theorem spells_binary {op : BinaryOp} (hn : n ≤ (operators.binding op).level ∧ n ≤ (operators.binding op).right)
    (h : Spells (operators.binding op).left text t) (h' : Spells (operators.binding op).right text' t') :
    Spells n (text ++ " " ++ sign op ++ " " ++ text') (.binary op t t') :=
  Language.spells_binary lawful_language (binary?_sign op) (scan_operator op) hn h h'

/-! ### Calls and lists -/

theorem names_member {m s : String} (hm : isName m = true) (hs : isName s = true) :
    language.Names (m ++ "." ++ s) (.member (.leaf (.name m)) (.name s)) := by
  obtain ⟨hword, htoken⟩ := wordToken_of_isName hm
  obtain ⟨hword', htoken'⟩ := wordToken_of_isName hs
  refine ⟨[.atom (.name m), .dot, .atom (.name s)], Table.completes_member (Table.completes_atom _) _, ?_⟩
  intro rest hrest
  have hchars : (m ++ "." ++ s).toList ++ rest = m.toList ++ '.' :: (s.toList ++ rest) := by
    simp
  have hdot : scan ('.' :: (s.toList ++ rest)) = (scan (s.toList ++ rest)).map (.dot :: ·) := by
    rw [isWord, Bool.and_eq_true] at hword'
    cases hcs : s.toList with
    | nil =>
      rw [hcs] at hword'
      cases hword'.1
    | cons c cs =>
      rw [hcs] at hword'
      have hstart : isWordStart c = true := hword'.1
      apply scan_dot
      rw [← Bool.not_eq_true]
      intro hdigit
      rw [(isWordStart_of_isDigit hdigit).1] at hstart
      cases hstart
  have hscan : scan (m.toList ++ '.' :: (s.toList ++ rest)) =
      (scan rest).map ([.atom (.name m), .dot, .atom (.name s)] ++ ·) := by
    rw [scan_word hword (by simp [isWordChar, isWordStart, Text.isLetter, Text.isDigit]), hdot,
      scan_word hword' hrest, htoken, htoken']
    simp [Function.comp_def]
  rw [hchars]
  exact hscan

theorem spells_call {name opening : String} {function : ExprTree} (hname : language.Names name function)
    (hopening : opening = name ++ "(") (h : Spells 0 text t) :
    Spells n (opening ++ text ++ ")") (.call function [t]) := by
  have hcall := Language.names_call lawful_language hname (.cons h .nil)
  rw [String.intercalate_singleton, ← hopening] at hcall
  exact hcall.spells

theorem spells_list {texts : List String} {items : List ExprTree} (h : List.Forall₂ (Spells 0) texts items) :
    Spells n ("[" ++ ", ".intercalate texts ++ "]") (.list items) := by
  obtain ⟨tokens, hreads, hcuts⟩ := Language.exists_tokens_items lawful_language h
  have hlist : operators.Reads n (.opens .square :: Table.separated tokens ++ [.closes .square]) (.list items) :=
    (Table.completes_list hreads).reads
  refine ⟨_, hlist, ?_⟩
  intro rest _
  have hchars : ("[" ++ ", ".intercalate texts ++ "]").toList ++ rest =
      '[' :: ((", ".intercalate texts).toList ++ ']' :: rest) := by
    simp
  have hscan : scan ((", ".intercalate texts).toList ++ ']' :: rest) =
      (scan (']' :: rest)).map (Table.separated tokens ++ ·) :=
    hcuts _ (ends_cons (by decide) rest)
  rw [hchars, scan_openList, hscan, scan_closeList]
  simp [Function.comp_def]

/-! ### Sums -/

def sumTree : List ExprTree → ExprTree
  | [] => .leaf (.text "")
  | t :: ts => ts.foldl (.binary .add) t

theorem spells_sum {texts : List String} {items : List ExprTree} (h : List.Forall₂ (Spells 6) texts items) :
    Spells 5 (sum texts) (sumTree items) := by
  cases h with
  | nil => exact spells_text ""
  | cons hfirst hrest =>
    exact Language.spells_sum lawful_language .add (binary?_sign .add) (scan_operator .add) (by decide) rfl
      (Language.Spells.mono hfirst (by decide)) hrest

/-! ## Trees of expressions -/

def applied (op : UnaryOp) (t : ExprTree) : ExprTree :=
  match op with
  | .not => .unary .not t
  | .neg => .unary .neg t
  | .abs => .call (.leaf (.name "abs")) [t]
  | .pow10 => .binary .power (.leaf (.number "10")) t
  | .root => .call (.member (.leaf (.name "math")) (.name "sqrt")) [t]
  | .ln => .call (.member (.leaf (.name "math")) (.name "log")) [t]
  | .log10 => .call (.member (.leaf (.name "math")) (.name "log10")) [t]
  | .exp => .call (.member (.leaf (.name "math")) (.name "exp")) [t]

def converted : Expr → ExprTree → ExprTree
  | .text .., t => t
  | _, t => .call (.leaf (.name "str")) [t]

def withMinus (minus : Bool) (t : ExprTree) : ExprTree :=
  if minus then .unary .neg t else t

mutual

/-- The tree of the operators of an expression, with names for its variables. A number is a minus before its
absolute value where `minus` says so. -/
def tree (spell : String → String) (minus : String → Binary64 → Bool) : Expr → ExprTree
  | .var v => .leaf (.name (spell v.name))
  | .number literal value _ => withMinus (minus literal value) (.leaf (.number (Source.numeral literal value)))
  | .boolean value _ => .leaf (.truth value)
  | .text value _ => .leaf (.text value)
  | .binary op left right _ => .binary op (tree spell minus left) (tree spell minus right)
  | .unary op operand _ => applied op (tree spell minus operand)
  | .list _ items _ => .list (trees spell minus items)
  | .length operand _ => .call (.leaf (.name "len")) [tree spell minus operand]
  | .join items _ => sumTree (convertedTrees spell minus items)

def trees (spell : String → String) (minus : String → Binary64 → Bool) : List Expr → List ExprTree
  | [] => []
  | e :: rest => tree spell minus e :: trees spell minus rest

def convertedTrees (spell : String → String) (minus : String → Binary64 → Bool) : List Expr → List ExprTree
  | [] => []
  | e :: rest => converted e (tree spell minus e) :: convertedTrees spell minus rest

end

attribute [local simp] tree trees convertedTrees

theorem trees_eq_map (spell : String → String) (minus : String → Binary64 → Bool) (items : List Expr) :
    trees spell minus items = items.map (tree spell minus) := by
  induction items with
  | nil => rw [trees, List.map_nil]
  | cons e rest ih => rw [trees, ih, List.map_cons]

theorem convertedTrees_eq_map (spell : String → String) (minus : String → Binary64 → Bool) (items : List Expr) :
    convertedTrees spell minus items = items.map fun e => converted e (tree spell minus e) := by
  induction items with
  | nil => rw [convertedTrees, List.map_nil]
  | cons e rest ih => rw [convertedTrees, ih, List.map_cons]

/-! ## Texts of expressions -/

def textLevel : Expr → Nat
  | .binary .. | .unary .. => 0
  | .number .. => 7
  | .join .. => 5
  | _ => 9

def operandLevel : Expr → Nat
  | .number .. => 7
  | .join .. => 5
  | _ => 9

/-- What is known of the expressions of an accepted program. -/
structure Writable (e : Expr) : Prop where
  checks : e.Checks
  denotes : ∀ {literal value attrs}, e = .number literal value attrs → Numeral.value literal = .ok value

variable {names : Source.Names}

theorem spells_number {literal : String} {value : Binary64} (h : Numeral.value literal = .ok value)
    (hn : writesMinus literal value = true → n ≤ 7) :
    Spells n (Source.numberLiteral literal value)
      (withMinus (writesMinus literal value) (.leaf (.number (Source.numeral literal value)))) := by
  have hnumeral := Source.isNumeral_numeral h
  rw [Source.numberLiteral_eq h, withMinus]
  by_cases hminus : writesMinus literal value = true
  · rw [if_pos hminus, if_pos hminus]
    exact (spells_minus (spells_numeral hnumeral)).mono (hn hminus)
  · rw [if_neg hminus, if_neg hminus]
    exact spells_numeral hnumeral

theorem spells_grouped {e : Expr} (h : Spells (textLevel e) text t) : Spells (operandLevel e) (grouped e text) t := by
  cases e with
  | binary op left right attrs => exact spells_parens h
  | unary op operand attrs => exact spells_parens h
  | _ => exact h

theorem five_le_operandLevel (e : Expr) : 5 ≤ operandLevel e := by
  cases e <;> simp [operandLevel]

theorem operandLevel_of_number {e : Expr} (h : e.type = .number) : 7 ≤ operandLevel e := by
  cases e with
  | join items attrs => cases h
  | _ => simp [operandLevel]

section Binary

variable {op : BinaryOp} {left right : Expr} {attrs : Attributes}

theorem types_of_checks (h : (Expr.binary op left right attrs).Checks) (hop : op.operandType = .number) :
    left.type = .number ∧ right.type = .number := by
  obtain ⟨hsame, hrefines⟩ := h
  rw [hop] at hrefines
  have hleft : left.type = .number := hrefines.eq_of_isConcrete rfl
  exact ⟨hleft, hsame.trans hleft⟩

theorem right_le_operandLevel (h : (Expr.binary op left right attrs).Checks) :
    (operators.binding op).right ≤ operandLevel right := by
  have hfive := five_le_operandLevel right
  by_cases hop : op.operandType = .number
  · have hseven := operandLevel_of_number (types_of_checks h hop).2
    have hright : (operators.binding op).right ≤ 7 := by
      cases op <;> decide
    omega
  · have hright : (operators.binding op).right ≤ 5 := by
      cases op <;> first | decide | exact absurd rfl hop
    omega

theorem left_le_operandLevel (h : (Expr.binary op left right attrs).Checks) (hpower : op ≠ .power) :
    (operators.binding op).left ≤ operandLevel left := by
  have hfive := five_le_operandLevel left
  by_cases hop : op.operandType = .number
  · have hseven := operandLevel_of_number (types_of_checks h hop).1
    have hleft : (operators.binding op).left ≤ 6 := by
      cases op <;> first | decide | exact absurd rfl hpower
    omega
  · have hleft : (operators.binding op).left ≤ 5 := by
      cases op <;> first | decide | exact absurd rfl hop
    omega

end Binary

theorem startsWithMinus_numberLiteral {literal : String} {value : Binary64}
    (h : Numeral.value literal = .ok value) (hminus : writesMinus literal value = true) :
    startsWithMinus (Source.numberLiteral literal value) = true := by
  rw [Source.numberLiteral_eq h, if_pos hminus]
  simp [startsWithMinus]

theorem spells_base {e : Expr} (hwritable : Writable e) (htype : e.type = .number)
    (h : Spells (operandLevel e) (grouped e (expr names e)) (tree names.get writesMinus e)) :
    Spells 9 (leftOperand .power (grouped e (expr names e))) (tree names.get writesMinus e) := by
  unfold leftOperand
  by_cases hminus : startsWithMinus (grouped e (expr names e)) = true
  · rw [if_pos ⟨rfl, hminus⟩]
    exact spells_parens (h.mono (Nat.zero_le _))
  · rw [if_neg fun hboth => hminus hboth.2]
    cases e with
    | number literal value attrs =>
      have hvalue := hwritable.denotes rfl
      have hnone : ¬writesMinus literal value = true := fun hwrites =>
        hminus (startsWithMinus_numberLiteral hvalue hwrites)
      exact spells_number hvalue fun hwrites => absurd hwrites hnone
    | join items attrs => cases htype
    | _ => exact h

theorem spells_leftOperand {op : BinaryOp} {left right : Expr} {attrs : Attributes} (hwritable : Writable left)
    (hchecks : (Expr.binary op left right attrs).Checks)
    (h : Spells (operandLevel left) (grouped left (expr names left)) (tree names.get writesMinus left)) :
    Spells (operators.binding op).left (leftOperand op (grouped left (expr names left)))
      (tree names.get writesMinus left) := by
  by_cases hpower : op = .power
  · subst hpower
    exact spells_base hwritable (types_of_checks hchecks rfl).1 h
  · have hsame : leftOperand op (grouped left (expr names left)) = grouped left (expr names left) :=
      if_neg fun hboth => hpower hboth.1
    rw [hsame]
    exact h.mono (left_le_operandLevel hchecks hpower)

theorem spells_applied {op : UnaryOp} {operand : Expr} {attrs : Attributes}
    (hchecks : (Expr.unary op operand attrs).Checks) (h : Spells (operandLevel operand) text t) :
    Spells 0 (unary op text) (applied op t) := by
  have hzero : Spells 0 text t := h.mono (Nat.zero_le _)
  have hmath : ∀ {s : String}, isName s = true →
      language.Names ("math" ++ "." ++ s) (.member (.leaf (.name "math")) (.name s)) :=
    fun hs => names_member (by decide) hs
  cases op with
  | not =>
    have hthree : 3 ≤ operandLevel operand := Nat.le_trans (by decide) (five_le_operandLevel operand)
    exact (spells_not (h.mono hthree)).mono (Nat.zero_le _)
  | neg => exact (spells_minus (h.mono (operandLevel_of_number hchecks))).mono (Nat.zero_le _)
  | abs => exact spells_call (names_name (by decide)) (by decide) hzero
  | pow10 =>
    have hpower : Spells 0 ("10" ++ " " ++ sign .power ++ " " ++ text) (.binary .power (.leaf (.number "10")) t) :=
      spells_binary (by decide) (spells_numeral ⟨by decide, by decide, by decide⟩)
        (h.mono (operandLevel_of_number hchecks))
    have htext : "10 ** " ++ text = "10" ++ " " ++ sign .power ++ " " ++ text := by
      apply String.toList_inj.mp
      simp [sign]
    rw [unary, htext]
    exact hpower
  | root => exact spells_call (hmath (s := "sqrt") (by decide)) (by decide) hzero
  | ln => exact spells_call (hmath (s := "log") (by decide)) (by decide) hzero
  | log10 => exact spells_call (hmath (s := "log10") (by decide)) (by decide) hzero
  | exp => exact spells_call (hmath (s := "exp") (by decide)) (by decide) hzero

theorem forall₂_exprs {items : List Expr}
    (h : ∀ e ∈ items, Spells (textLevel e) (expr names e) (tree names.get writesMinus e)) :
    List.Forall₂ (Spells 0) (exprs names items) (trees names.get writesMinus items) := by
  induction items with
  | nil => exact .nil
  | cons e rest ih =>
    obtain ⟨he, hrest⟩ := List.forall_mem_cons.mp h
    exact .cons (he.mono (Nat.zero_le _)) (ih hrest)

theorem spells_joined {e : Expr} (h : Spells (textLevel e) text t) : Spells 6 (joined e text) (converted e t) := by
  cases e with
  | text value attrs =>
    have hnine : Spells 9 text t := h
    exact hnine.mono (by decide)
  | _ =>
    exact spells_call (names_name (by decide)) (by decide) (h.mono (Nat.zero_le _))

theorem forall₂_joinedItems {items : List Expr}
    (h : ∀ e ∈ items, Spells (textLevel e) (expr names e) (tree names.get writesMinus e)) :
    List.Forall₂ (Spells 6) (joinedItems names items) (convertedTrees names.get writesMinus items) := by
  induction items with
  | nil => exact .nil
  | cons e rest ih =>
    obtain ⟨he, hrest⟩ := List.forall_mem_cons.mp h
    exact .cons (spells_joined he) (ih hrest)

theorem spells_expr (e : Expr) (hwritable : e.Everywhere Writable)
    (hnames : ∀ v ∈ e.vars, isName (names.get v.name) = true) :
    Spells (textLevel e) (expr names e) (tree names.get writesMinus e) := by
  induction e with
  | var v =>
    exact (names_name (hnames v List.mem_cons_self)).spells
  | number literal value attrs =>
    have hvalue := hwritable.here.denotes rfl
    exact spells_number hvalue fun _ => Nat.le_refl 7
  | boolean value attrs => exact spells_truth value
  | text value attrs => exact spells_text value
  | binary op left right attrs ihl ihr =>
    obtain ⟨hhere, hleft, hright⟩ := Expr.everywhere_binary.mp hwritable
    have hl := spells_grouped (ihl hleft fun v hv => hnames v (List.mem_append_left _ hv))
    have hr := spells_grouped (ihr hright fun v hv => hnames v (List.mem_append_right _ hv))
    exact spells_binary ⟨Nat.zero_le _, Nat.zero_le _⟩ (spells_leftOperand hleft.here hhere.checks hl)
      (hr.mono (right_le_operandLevel hhere.checks))
  | unary op operand attrs ih =>
    obtain ⟨hhere, hoperand⟩ := Expr.everywhere_unary.mp hwritable
    exact spells_applied hhere.checks (spells_grouped (ih hoperand hnames))
  | list element items attrs ih =>
    obtain ⟨-, hitems⟩ := Expr.everywhere_list.mp hwritable
    apply spells_list
    apply forall₂_exprs
    intro e he
    exact ih e he (hitems e he) fun v hv => hnames v (Expr.mem_varsIn.mpr ⟨e, he, hv⟩)
  | length operand attrs ih =>
    obtain ⟨-, hoperand⟩ := Expr.everywhere_length.mp hwritable
    exact spells_call (names_name (by decide)) (by decide) ((ih hoperand hnames).mono (Nat.zero_le _))
  | join items attrs ih =>
    obtain ⟨-, hitems⟩ := Expr.everywhere_join.mp hwritable
    apply spells_sum
    apply forall₂_joinedItems
    intro e he
    exact ih e he (hitems e he) fun v hv => hnames v (Expr.mem_varsIn.mpr ⟨e, he, hv⟩)

/-! ## Variables and their names -/

def renamedAtom (f : String → String) : Atom → Atom
  | .name s => .name (f s)
  | a => a

mutual

def renamed (f : String → String) : ExprTree → ExprTree
  | .leaf a => .leaf (renamedAtom f a)
  | .unary op t => .unary op (renamed f t)
  | .binary op left right => .binary op (renamed f left) (renamed f right)
  | .call function args => .call function (renamedAll f args)
  | .list items => .list (renamedAll f items)
  | .member whole name => .member whole name
  | .build type items => .build type (renamedAll f items)

def renamedAll (f : String → String) : List ExprTree → List ExprTree
  | [] => []
  | t :: rest => renamed f t :: renamedAll f rest

end

attribute [local simp] renamed renamedAll

theorem renamedAll_eq_map (f : String → String) (ts : List ExprTree) : renamedAll f ts = ts.map (renamed f) := by
  induction ts with
  | nil => rw [renamedAll, List.map_nil]
  | cons t rest ih => rw [renamedAll, ih, List.map_cons]

theorem renamed_applied (f : String → String) (op : UnaryOp) (t : ExprTree) :
    renamed f (applied op t) = applied op (renamed f t) := by
  cases op <;> simp [applied, renamedAtom]

theorem renamed_converted (f : String → String) (e : Expr) (t : ExprTree) :
    renamed f (converted e t) = converted e (renamed f t) := by
  cases e <;> simp [converted]

theorem renamed_sumTree (f : String → String) (ts : List ExprTree) :
    renamed f (sumTree ts) = sumTree (ts.map (renamed f)) := by
  cases ts with
  | nil => simp [sumTree, renamedAtom]
  | cons t ts =>
    rw [sumTree, List.map_cons, sumTree, List.foldl_map]
    exact (List.foldl_hom (renamed f) fun left right => by rw [renamed]).symm

theorem renamed_tree (f : String → String) {spell spell' : String → String} (minus : String → Binary64 → Bool)
    (e : Expr) (h : ∀ v ∈ e.vars, f (spell v.name) = spell' v.name) :
    renamed f (tree spell minus e) = tree spell' minus e := by
  induction e with
  | var v => simp [renamedAtom, h v List.mem_cons_self]
  | number literal value attrs =>
    simp only [tree]
    cases minus literal value <;> simp [withMinus, renamedAtom]
  | boolean value attrs => simp [renamedAtom]
  | text value attrs => simp [renamedAtom]
  | binary op left right attrs ihl ihr =>
    rw [tree, tree, renamed, ihl fun v hv => h v (List.mem_append_left _ hv),
      ihr fun v hv => h v (List.mem_append_right _ hv)]
  | unary op operand attrs ih => rw [tree, tree, renamed_applied, ih h]
  | list element items attrs ih =>
    rw [tree, tree, renamed, renamedAll_eq_map, trees_eq_map, trees_eq_map, List.map_map]
    apply congrArg Tree.list
    apply List.map_congr_left
    intro e he
    exact ih e he fun v hv => h v (Expr.mem_varsIn.mpr ⟨e, he, hv⟩)
  | length operand attrs ih => simp [ih h]
  | join items attrs ih =>
    rw [tree, tree, renamed_sumTree, convertedTrees_eq_map, convertedTrees_eq_map, List.map_map]
    apply congrArg sumTree
    apply List.map_congr_left
    intro e he
    exact (renamed_converted f e _).trans
      (congrArg (converted e) (ih e he fun v hv => h v (Expr.mem_varsIn.mpr ⟨e, he, hv⟩)))

def owner (names : Source.Names) (vars : List Var) (ident : String) : String :=
  ((vars.find? fun v => names.get v.name = ident).map Var.name).getD ident

/-- Variables have names, and no two of them the same. -/
structure Distinguishes (names : Source.Names) (vars : List Var) : Prop where
  isName : ∀ v ∈ vars, isName (names.get v.name) = true
  distinct : ∀ v ∈ vars, ∀ w ∈ vars, names.get v.name = names.get w.name → v.name = w.name

theorem owner_get {vars : List Var}
    (h : ∀ v ∈ vars, ∀ w ∈ vars, names.get v.name = names.get w.name → v.name = w.name) {v : Var} (hv : v ∈ vars) :
    owner names vars (names.get v.name) = v.name := by
  unfold owner
  cases hfind : vars.find? fun w => names.get w.name = names.get v.name with
  | none =>
    have hnone := List.find?_eq_none.mp hfind v hv
    simp at hnone
  | some w =>
    have hw := List.mem_of_find?_eq_some hfind
    have hsame := List.find?_some hfind
    exact h w hw v hv (of_decide_eq_true hsame)

/-! ## Where a minus is lost -/

theorem applied_injective (op : UnaryOp) : Function.Injective (applied op) := by
  intro t t' h
  cases op <;> simpa [applied] using h

theorem converted_injective (e : Expr) : Function.Injective (converted e) := by
  intro t t' h
  cases e <;> simpa [converted] using h

theorem sumTree_injective {ts ts' : List ExprTree} (hlength : ts.length = ts'.length) (h : sumTree ts = sumTree ts') :
    ts = ts' := by
  cases ts with
  | nil =>
    cases ts' with
    | nil => rfl
    | cons t' ts' => cases hlength
  | cons t ts =>
    cases ts' with
    | nil => cases hlength
    | cons t' ts' =>
      obtain ⟨hfirst, hrest⟩ := Tree.foldl_binary_inj (Nat.succ.inj hlength) h
      rw [hfirst, hrest]

def SameMinus (minus minus' : String → Binary64 → Bool) : Expr → Prop
  | .number literal value _ => minus literal value = minus' literal value
  | _ => True

theorem tree_eq_iff {minus minus' : String → Binary64 → Bool} (spell : String → String) (e : Expr) :
    tree spell minus e = tree spell minus' e ↔ e.Everywhere (SameMinus minus minus') := by
  induction e with
  | var v => simp [SameMinus]
  | number literal value attrs =>
    rw [tree, tree, Expr.everywhere_number, SameMinus]
    cases minus literal value <;> cases minus' literal value <;> simp [withMinus]
  | boolean value attrs => simp [SameMinus]
  | text value attrs => simp [SameMinus]
  | binary op left right attrs ihl ihr =>
    rw [tree, tree, Expr.everywhere_binary, ← ihl, ← ihr]
    simp [SameMinus]
  | unary op operand attrs ih =>
    rw [tree, tree, Expr.everywhere_unary, ← ih, (applied_injective op).eq_iff]
    simp [SameMinus]
  | list element items attrs ih =>
    rw [tree, tree, Expr.everywhere_list, trees_eq_map, trees_eq_map, Tree.list.injEq, List.map_inj_left]
    simp only [SameMinus, true_and]
    exact forall₂_congr ih
  | length operand attrs ih =>
    rw [tree, tree, Expr.everywhere_length, ← ih]
    simp [SameMinus]
  | join items attrs ih =>
    have hsum : sumTree (convertedTrees spell minus items) = sumTree (convertedTrees spell minus' items) ↔
        convertedTrees spell minus items = convertedTrees spell minus' items := by
      constructor
      · apply sumTree_injective
        simp [convertedTrees_eq_map]
      · exact congrArg sumTree
    rw [tree, tree, Expr.everywhere_join, hsum, convertedTrees_eq_map, convertedTrees_eq_map, List.map_inj_left]
    simp only [SameMinus, true_and, (converted_injective _).eq_iff]
    exact forall₂_congr ih

/-- The tree of an expression: a negative number is a minus before its absolute value. -/
def operatorTree (e : Expr) : ExprTree :=
  tree id (fun _ value => value.isNegative) e

def writtenTree (e : Expr) : ExprTree :=
  tree id writesMinus e

/-- A negative zero that is written anew, and so without its minus. -/
def losesMinus : Expr → Bool
  | .number literal value _ => value.isNegative && value.isZero && Source.hasLeadingZero (Source.bareLiteral literal)
  | _ => false

theorem sameMinus_iff (e : Expr) :
    SameMinus writesMinus (fun _ value => value.isNegative) e ↔ losesMinus e = false := by
  cases e with
  | number literal value attrs =>
    simp only [SameMinus, losesMinus, writesMinus]
    cases value.isNegative <;> cases value.isZero <;> simp
  | _ => simp [SameMinus, losesMinus]

theorem writtenTree_eq_iff (e : Expr) :
    writtenTree e = operatorTree e ↔ e.Everywhere fun part => losesMinus part = false := by
  rw [writtenTree, operatorTree, tree_eq_iff]
  exact forall₂_congr fun part _ => sameMinus_iff part

/-- The tree of a text, with the variables that have its identifiers. -/
def read? (names : Source.Names) (vars : List Var) (text : String) : Option ExprTree :=
  (parse? text).map (renamed (owner names vars))

theorem read?_expr {e : Expr} (hwritable : e.Everywhere Writable) (hnames : Distinguishes names e.vars) :
    read? names e.vars (expr names e) = some (writtenTree e) := by
  have hparse := parse?_of_spells (spells_expr e hwritable hnames.isName)
  rw [read?, hparse, Option.map_some]
  exact congrArg some (renamed_tree _ writesMinus e fun v hv => owner_get hnames.distinct hv)

end Blockwork.Python

namespace Blockwork

open Python

namespace Program

variable {blocks : List Block} {allowFloating : Bool} {p : Program} {e : Expr}

theorem writable_of_ofBlocks (h : ofBlocks blocks allowFloating = .ok p)
    (he : e ∈ p.roots.flatMap Root.exprs) : e.Everywhere Writable := by
  obtain ⟨roots, env, settled, haccepted⟩ := exists_accepted h
  obtain ⟨root, hroot, he⟩ := List.mem_flatMap.mp he
  obtain ⟨b, -, hfrom, hwell, -⟩ := exists_of_mem_left haccepted.resolved hroot
  refine Root.everywhere_of_exprs ?_ he
  intro part hpart
  refine ⟨hwell.checks part hpart, ?_⟩
  rintro literal value attrs rfl
  obtain ⟨c, hc⟩ := hfrom.exprs hpart
  cases hc with
  | number _ _ denotes => exact denotes

/-- The text of an expression of an accepted program is read as the tree of its operators, whatever names its
variables have. Only a minus before a zero with more zeros in front is not read, as it is not written. -/
theorem read?_python (h : ofBlocks blocks allowFloating = .ok p) (he : e ∈ p.roots.flatMap Root.exprs)
    {names : Source.Names} (hnames : Distinguishes names e.vars) :
    read? names e.vars (expr names e) = some (writtenTree e) ∧
    (read? names e.vars (expr names e) = some (operatorTree e) ↔ ∀ part ∈ e.parts, losesMinus part = false) := by
  have hread := read?_expr (writable_of_ofBlocks h he) hnames
  refine ⟨hread, ?_⟩
  rw [hread, Option.some.injEq]
  exact writtenTree_eq_iff e

def numberBlock (id literal : String) : Block :=
  { tag := Tag.number.name, attrs := { id }, fields := [("NUM", literal)] }

/-- A negative number to the power of a negated variable. -/
def powerBlock : Block :=
  { tag := Tag.arithmetic.name, attrs := { id := "a" }, fields := [("OP", "POWER")],
    values := [("A", numberBlock "b" "-2"),
      ("B", { tag := Tag.function.name, attrs := { id := "c" }, fields := [("OP", "NEG")],
              values := [("NUM", readingBlock "d" "x")] })] }

def oneName : Source.Names :=
  { reserved := [], assigned := [("x", "v")] }

theorem name_eq_of_singleton {vars : List Var} {name : String} (h : vars.map Var.name = [name]) {v : Var}
    (hv : v ∈ vars) : v.name = name :=
  List.mem_singleton.mp (h ▸ List.mem_map_of_mem hv)

theorem numeral_minusZero : Source.numeral "-00" (.zero true) = "0" ∧ Source.numberLiteral "-00" (.zero true) = "0" := by
  decide +kernel

theorem read?_python_power :
    ∃ p e, ofBlocks [powerBlock] true = .ok p ∧ e ∈ p.roots.flatMap Root.exprs ∧
      expr oneName e = "(-2) ** (-v)" ∧ read? oneName e.vars "(-2) ** (-v)" = some (operatorTree e) := by
  have hfirst := exists_of_any [powerBlock] true (fun p => ((p.roots.flatMap Root.exprs).head?.any fun e =>
      expr oneName e = "(-2) ** (-v)" ∧ e.vars.map Var.name = ["x"] ∧
        (e.parts.all fun part => !losesMinus part) = true) = true) (by decide +kernel)
  obtain ⟨p, hp, hany⟩ := hfirst
  obtain ⟨e, hhead, hproperties⟩ := (Option.any_eq_true _ _).mp hany
  obtain ⟨htext, hvars, hkeeps⟩ := of_decide_eq_true hproperties
  have hmem : e ∈ p.roots.flatMap Root.exprs := List.mem_of_head? hhead
  have hnames : Distinguishes oneName e.vars := by
    refine ⟨?_, ?_⟩
    · intro v hv
      rw [name_eq_of_singleton hvars hv]
      decide
    · intro v hv w hw _
      rw [name_eq_of_singleton hvars hv, name_eq_of_singleton hvars hw]
  refine ⟨p, e, hp, hmem, htext, ?_⟩
  rw [← htext]
  apply (read?_python hp hmem hnames).2.mpr
  simpa using hkeeps

/-- A zero with a minus and another zero in front is written without the minus. -/
theorem read?_python_minusZero :
    ∃ p e, ofBlocks [numberBlock "a" "-00"] true = .ok p ∧ e ∈ p.roots.flatMap Root.exprs ∧
      expr .none e = "0" ∧ operatorTree e = .unary .neg (.leaf (.number "0")) ∧
      read? .none e.vars "0" = some (.leaf (.number "0")) := by
  have htree : operatorTree (.number "-00" (.zero true) { id := "a" }) = .unary .neg (.leaf (.number "0")) := by
    rw [operatorTree, tree, numeral_minusZero.1]
    rfl
  refine ⟨⟨[.value (.number "-00" (.zero true) { id := "a" })]⟩, .number "-00" (.zero true) { id := "a" }, ?_⟩
  exact ⟨by cbv, List.mem_singleton_self _, numeral_minusZero.2, htree, by cbv⟩

end Program

end Blockwork
