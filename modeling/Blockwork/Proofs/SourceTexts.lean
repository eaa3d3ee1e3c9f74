import Blockwork.Proofs.Identifiers
import Blockwork.Proofs.PythonExpressions

/-! # What texts of sources are put together from

Whatever a user writes gets into a source as an identifier, as a number or between quotes. All other characters are
signs of the language.
-/

namespace Blockwork

set_option autoImplicit false

open List (mem_cons mem_cons_self)
open Blockwork.Except (bind_ok_iff)
open String (toList_append append_assoc)

namespace Source

/-! ## Identifiers -/

/-- A text of letters, digits and underscores, at least one. -/
structure IsIdentifier (s : String) : Prop where
  ne_nil : s.toList ≠ []
  chars : ∀ c ∈ s.toList, isIdentChar c = true

variable {cs : List Char} {c : Char} {s : String}

theorem isIdentChar_of_mem_squash {inRun : Bool} (h : c ∈ squash inRun cs) : isIdentChar c = true := by
  induction cs generalizing inRun with
  | nil => cases h
  | cons d ds ih =>
    rw [squash] at h
    by_cases hd : isIdentChar d = true
    · rw [if_pos hd] at h
      rcases mem_cons.mp h with rfl | h
      · exact hd
      · exact ih h
    · rw [if_neg hd] at h
      cases inRun with
      | true => exact ih h
      | false =>
        rcases mem_cons.mp h with rfl | h
        · decide
        · exact ih h

theorem isIdentifier_withStart (h : ∀ c ∈ cs, isIdentChar c = true) : IsIdentifier (String.ofList (withStart cs)) := by
  cases cs with
  | nil => exact ⟨by simp [withStart], by simp [withStart, isIdentChar]⟩
  | cons c cs =>
    by_cases hc : Text.isDigit c = true
    · have hstart : withStart (c :: cs) = '_' :: c :: cs := by simp [withStart, hc]
      rw [hstart]
      refine ⟨by simp, ?_⟩
      intro d hd
      rw [String.toList_ofList] at hd
      rcases mem_cons.mp hd with rfl | hd
      · decide
      · exact h d hd
    · have hstart : withStart (c :: cs) = c :: cs := by simp [withStart, hc]
      rw [hstart]
      exact ⟨by simp, by simpa using h⟩

theorem IsIdentifier.append {t : String} (hs : IsIdentifier s) (ht : ∀ c ∈ t.toList, isIdentChar c = true) :
    IsIdentifier (s ++ t) := by
  refine ⟨by simp [hs.ne_nil], ?_⟩
  intro c hc
  rw [toList_append] at hc
  rcases List.mem_append.mp hc with hc | hc
  · exact hs.chars c hc
  · exact ht c hc

theorem isIdentifier_identifier (reserved : List String) (name : String) :
    IsIdentifier (identifier reserved name) := by
  have hbare := isIdentifier_withStart fun c (hc : c ∈ squash false (Text.strip name.toList)) =>
    isIdentChar_of_mem_squash hc
  unfold identifier
  simp only
  split
  · exact hbare.append (by simp [isIdentChar])
  · exact hbare

theorem isIdentChar_of_isDigit (h : Text.isDigit c = true) : isIdentChar c = true := by
  simp [isIdentChar, h]

namespace Names

theorem isIdentifier_numbered {base : String} (h : IsIdentifier base) (k : Nat) : IsIdentifier (numbered base k) := by
  refine (h.append (by simp [isIdentChar])).append ?_
  intro c hc
  rw [Text.natText, String.toList_ofList] at hc
  exact isIdentChar_of_isDigit (Text.isDigit_of_mem hc)

theorem isIdentifier_free {base : String} (h : IsIdentifier base) (taken : List String) :
    IsIdentifier (free taken base) := by
  by_cases hbase : base ∈ taken
  · obtain ⟨k, heq, -⟩ := free_of_mem hbase
    rw [heq]
    exact isIdentifier_numbered h _
  · rw [free_of_notMem hbase]
    exact h

theorem isIdentifier_of_assignFrom {reserved names : List String} {done : List (String × String)}
    (hdone : ∀ pair ∈ done, IsIdentifier pair.2) : ∀ pair ∈ assignFrom reserved done names, IsIdentifier pair.2 := by
  induction names generalizing done with
  | nil =>
    intro pair hpair
    rw [assignFrom] at hpair
    exact hdone pair (List.mem_reverse.mp hpair)
  | cons name rest ih =>
    rw [assignFrom]
    apply ih
    intro pair hpair
    rcases mem_cons.mp hpair with rfl | hpair
    · exact isIdentifier_free (isIdentifier_identifier _ _) _
    · exact hdone pair hpair

theorem get_assign (reserved : List String) (vars : List Var) (name : String) :
    (∃ pair ∈ assignFrom reserved [] (vars.map Var.name), (assign reserved vars).get name = pair.2) ∨
      (assign reserved vars).get name = identifier reserved name := by
  unfold get
  split
  · next ident hident => exact .inl ⟨_, Dict.mem_of_get? hident, rfl⟩
  · exact .inr rfl

theorem isIdentifier_get (reserved : List String) (vars : List Var) (name : String) :
    IsIdentifier ((assign reserved vars).get name) := by
  rcases get_assign reserved vars name with ⟨pair, hpair, heq⟩ | heq
  · rw [heq]
    exact isIdentifier_of_assignFrom (List.forall_mem_nil _) pair hpair
  · rw [heq]
    exact isIdentifier_identifier _ _

end Names

/-! ## First characters -/

/-- The text begins with a character that is no blank. -/
def Opens (text : String) : Prop :=
  text.toList.head?.any (· ≠ ' ') = true

theorem Opens.append (h : Opens s) (t : String) : Opens (s ++ t) := by
  unfold Opens at h ⊢
  rw [toList_append]
  cases hs : s.toList with
  | nil =>
    rw [hs] at h
    cases h
  | cons c cs =>
    rw [hs] at h
    exact h

theorem opens_iff {text : String} : Opens text ↔ ∃ c cs, text.toList = c :: cs ∧ c ≠ ' ' := by
  unfold Opens
  cases htext : text.toList with
  | nil => simp
  | cons c cs => simp

theorem opens_of_isIdentifier (h : IsIdentifier s) : Opens s := by
  obtain ⟨c, cs, hcs⟩ := List.exists_cons_of_ne_nil h.ne_nil
  have hc := h.chars c (hcs ▸ mem_cons_self)
  refine opens_iff.mpr ⟨c, cs, hcs, ?_⟩
  rintro rfl
  exact absurd hc (by decide)

theorem opens_of_isNumeral (h : Python.IsNumeral s.toList) : Opens s := by
  obtain ⟨c, cs, hcs, -, hc, -⟩ := Python.exists_of_isNumeral h []
  exact opens_iff.mpr ⟨c, cs, hcs, hc.1⟩

/-! ## Quoted texts -/

theorem unbroken_of_mem_quoteChar {d : Char} (h : d ∈ quoteChar c) : d ≠ '\n' ∧ d ≠ '\r' := by
  rcases Python.quoteChar_eq c with ⟨heq, hvisible⟩ | ⟨e, es, heq, he, hes⟩
  · rw [heq] at h
    rw [List.mem_singleton.mp h]
    exact ⟨hvisible _ (by simp), hvisible _ (by simp)⟩
  · rw [heq] at h
    rcases mem_cons.mp h with rfl | h
    · decide
    · rcases mem_cons.mp h with rfl | h
      · exact he
      · exact ⟨hes d h _ (by simp), hes d h _ (by simp)⟩

theorem toList_quote (value : String) :
    (quote value).toList = '\x22' :: (value.toList.flatMap quoteChar ++ ['\x22']) := by
  simp [quote]

theorem unbroken_of_mem_quote {value : String} (h : c ∈ (quote value).toList) : c ≠ '\n' ∧ c ≠ '\r' := by
  rw [toList_quote] at h
  rcases mem_cons.mp h with rfl | h
  · decide
  rcases List.mem_append.mp h with h | h
  · obtain ⟨d, -, hd⟩ := List.mem_flatMap.mp h
    exact unbroken_of_mem_quoteChar hd
  · rw [List.mem_singleton.mp h]
    decide

/-! ## Assembled texts -/

/-- The characters that mean the same everywhere outside quotes. -/
structure Alphabet where
  plain : Char → Bool
  words : ∀ c, isIdentChar c = true → plain c = true
  signs : ∀ c ∈ ['.', '+', '-', ' '], plain c = true
  others : ∀ c ∈ ['\n', '\r', '\x22', '\'', '\\'], plain c = false

/-- A text of plain characters, slashes before a blank, and quoted texts, of which none follows another at once. -/
inductive Assembled (A : Alphabet) : List Char → Prop
  | nil : Assembled A []
  | plain {c : Char} {rest : List Char} (h : A.plain c = true) (hrest : Assembled A rest) : Assembled A (c :: rest)
  | slash {rest : List Char} (hrest : Assembled A (' ' :: rest)) : Assembled A ('/' :: ' ' :: rest)
  | quoted (value : String) {rest : List Char} (hrest : Assembled A rest) (hends : rest.head? ≠ some '\x22') :
    Assembled A ((quote value).toList ++ rest)

variable {A : Alphabet}

theorem assembled_of_plain {rest : List Char} (h : ∀ c ∈ cs, A.plain c = true) (hrest : Assembled A rest) :
    Assembled A (cs ++ rest) := by
  induction cs with
  | nil => exact hrest
  | cons c cs ih =>
    exact .plain (h c mem_cons_self) (ih fun d hd => h d (List.mem_cons_of_mem _ hd))

theorem Assembled.append {ds : List Char} (hcs : Assembled A cs) (hds : Assembled A ds)
    (hends : ds.head? ≠ some '\x22') : Assembled A (cs ++ ds) := by
  induction hcs with
  | nil => exact hds
  | plain h _ ih => exact .plain h ih
  | slash _ ih => exact .slash ih
  | @quoted value rest _ hquote ih =>
    rw [List.append_assoc]
    refine .quoted value ih ?_
    cases rest with
    | nil => exact hends
    | cons c rest => exact hquote

theorem Assembled.unbroken (h : Assembled A cs) : ∀ c ∈ cs, c ≠ '\n' ∧ c ≠ '\r' := by
  induction h with
  | nil => exact List.forall_mem_nil _
  | @plain c rest h _ ih =>
    refine List.forall_mem_cons.mpr ⟨⟨?_, ?_⟩, ih⟩
    · rintro rfl
      exact absurd h (by simp [A.others])
    · rintro rfl
      exact absurd h (by simp [A.others])
  | slash _ ih => exact List.forall_mem_cons.mpr ⟨by decide, ih⟩
  | quoted value _ _ ih =>
    intro c hc
    rcases List.mem_append.mp hc with hc | hc
    · exact unbroken_of_mem_quote hc
    · exact ih c hc

theorem Assembled.getLast? (h : Assembled A cs) (hc : cs.getLast? = some c) : A.plain c = true ∨ c = '\x22' := by
  induction h with
  | nil => cases hc
  | @plain d rest h _ ih =>
    cases rest with
    | nil => exact .inl (Option.some.inj hc ▸ h)
    | cons e rest => exact ih (by simpa using hc)
  | slash _ ih => exact ih (by simpa using hc)
  | @quoted value rest _ _ ih =>
    cases rest with
    | nil =>
      rw [List.append_nil, toList_quote, ← List.cons_append, List.getLast?_concat] at hc
      exact .inr (Option.some.inj hc).symm
    | cons e rest =>
      rw [List.getLast?_append_of_ne_nil _ (List.cons_ne_nil e rest)] at hc
      exact ih hc

namespace Alphabet

def Writes (A : Alphabet) (text : String) : Prop :=
  Assembled A text.toList

def IsSign (A : Alphabet) (text : String) : Prop :=
  text.toList ≠ [] ∧ ∀ c ∈ text.toList, A.plain c = true

variable {s t : String}

theorem IsSign.of (h : (!s.toList.isEmpty && s.toList.all A.plain) = true) : A.IsSign s := by
  simpa [IsSign] using h

theorem IsSign.writes (h : A.IsSign s) : A.Writes s := by
  have hplain := assembled_of_plain h.2 Assembled.nil
  rwa [List.append_nil] at hplain

theorem IsSign.append_writes (hs : A.IsSign s) (ht : A.Writes t) : A.Writes (s ++ t) := by
  unfold Writes
  rw [toList_append]
  exact assembled_of_plain hs.2 ht

theorem IsSign.append (hs : A.IsSign s) (ht : A.IsSign t) : A.IsSign (s ++ t) := by
  refine ⟨by simp [hs.1], ?_⟩
  intro c hc
  rw [toList_append] at hc
  rcases List.mem_append.mp hc with hc | hc
  · exact hs.2 c hc
  · exact ht.2 c hc

theorem IsSign.head?_ne (h : A.IsSign s) : s.toList.head? ≠ some '\x22' := by
  intro hhead
  have hplain := h.2 _ (List.mem_of_head? hhead)
  exact absurd hplain (by simp [A.others])

theorem Writes.append_sign (hs : A.Writes s) (ht : A.IsSign t) : A.Writes (s ++ t) := by
  unfold Writes
  rw [toList_append]
  exact hs.append ht.writes ht.head?_ne

theorem Writes.separated (hs : A.Writes s) {sign : String} (hsign : A.IsSign sign) (ht : A.Writes t) :
    A.Writes (s ++ sign ++ t) := by
  have hrest := hsign.append_writes ht
  unfold Writes at hrest ⊢
  rw [toList_append] at hrest
  rw [append_assoc, toList_append, toList_append]
  refine hs.append hrest ?_
  rw [List.head?_append_of_ne_nil _ hsign.1]
  exact hsign.head?_ne

theorem Writes.enclosed (hs : A.Writes s) {opening closing : String} (hopening : A.IsSign opening)
    (hclosing : A.IsSign closing) : A.Writes (opening ++ s ++ closing) :=
  (hopening.append_writes hs).append_sign hclosing

theorem Writes.divided (hs : A.Writes s) (ht : A.Writes t) : A.Writes (s ++ " / " ++ t) := by
  have hblank : A.plain ' ' = true := A.signs _ (by simp)
  have hslash : Assembled A (' ' :: '/' :: ' ' :: t.toList) := .plain hblank (.slash (.plain hblank ht))
  have hchars : (s ++ " / " ++ t).toList = s.toList ++ ' ' :: '/' :: ' ' :: t.toList := by simp
  unfold Writes
  rw [hchars]
  exact hs.append hslash (by simp)

theorem writes_intercalate {sign : String} (hsign : A.IsSign sign) {texts : List String}
    (h : ∀ text ∈ texts, A.Writes text) : A.Writes (sign.intercalate texts) := by
  induction texts with
  | nil => exact .nil
  | cons text texts ih =>
    have hrest := ih fun t ht => h t (List.mem_cons_of_mem _ ht)
    cases texts with
    | nil =>
      rw [String.intercalate_singleton]
      exact h text mem_cons_self
    | cons other texts =>
      rw [String.intercalate_cons_cons]
      exact (h text mem_cons_self).separated hsign hrest

theorem isSign_of_isIdentifier (h : IsIdentifier s) : A.IsSign s :=
  ⟨h.ne_nil, fun c hc => A.words c (h.chars c hc)⟩

theorem writes_quote (value : String) : A.Writes (quote value) := by
  have hquoted := Assembled.quoted (A := A) value .nil (by simp)
  rwa [List.append_nil] at hquoted

end Alphabet

/-! ## Numbers -/

def isNumberChar (c : Char) : Bool :=
  isIdentChar c || c = '.' || c = '+' || c = '-'

theorem isNumberChar_of_isDigit (h : Text.isDigit c = true) : isNumberChar c = true := by
  simp [isNumberChar, isIdentChar_of_isDigit h]

theorem isNumberChar_of_isNumeral (h : Python.IsNumeral cs) : ∀ c ∈ cs, isNumberChar c = true := by
  have hmark : ∀ c ∈ ['.', 'e', 'E', '+', '-'], isNumberChar c = true := by
    simp [isNumberChar, isIdentChar, Text.isLetter]
  exact h.forall_mem (fun _ hd => isNumberChar_of_isDigit hd) hmark

theorem Alphabet.plain_of_isNumberChar (h : isNumberChar c = true) : A.plain c = true := by
  simp only [isNumberChar, Bool.or_eq_true, decide_eq_true_eq] at h
  rcases h with ((h | rfl) | rfl) | rfl
  · exact A.words c h
  · exact A.signs _ (by simp)
  · exact A.signs _ (by simp)
  · exact A.signs _ (by simp)

theorem Alphabet.isSign_of_isNumeral (h : Python.IsNumeral s.toList) : A.IsSign s := by
  refine ⟨?_, fun c hc => plain_of_isNumberChar (isNumberChar_of_isNumeral h c hc)⟩
  intro hnil
  have hstarts := h.starts
  rw [hnil] at hstarts
  cases hstarts

theorem Alphabet.isSign_minus : A.IsSign "-" :=
  ⟨by decide, fun c hc => A.signs c (by simp_all)⟩

theorem Alphabet.writes_numberLiteral {literal : String} {value : Binary64} (h : Numeral.value literal = .ok value) :
    A.Writes (numberLiteral literal value) := by
  have hnumeral : A.IsSign (numeral literal value) := isSign_of_isNumeral (isNumeral_numeral h)
  rw [numberLiteral_eq h]
  split
  · exact isSign_minus.append_writes hnumeral.writes
  · exact hnumeral.writes

theorem Alphabet.writes_intText (n : Int) : A.Writes (Text.intText n) := by
  have hdigits : A.IsSign (Text.natText n.natAbs) := isSign_of_isNumeral (isBare_natText _).toIsNumeral
  unfold Text.intText
  split
  · exact isSign_minus.append_writes hdigits.writes
  · exact hdigits.writes

end Source

/-! ## Expressions -/

namespace Python

open Source (Alphabet Names isIdentChar quote)

def alphabet : Alphabet where
  plain c := isIdentChar c || [' ', '.', ',', '+', '-', '*', '(', ')', '[', ']', '<', '>', '=', '!'].contains c
  words := by simp +contextual
  signs := by simp
  others := by simp [isIdentChar, Text.isLetter, Text.isDigit]

variable {names : Names} {s t : String}

theorem writes_parens (h : alphabet.Writes s) : alphabet.Writes (parens s) :=
  h.enclosed (.of rfl) (.of rfl)

theorem writes_grouped (e : Expr) (h : alphabet.Writes s) : alphabet.Writes (grouped e s) := by
  unfold grouped
  split
  · exact writes_parens h
  · exact writes_parens h
  · exact h

theorem writes_leftOperand (op : BinaryOp) (h : alphabet.Writes s) : alphabet.Writes (leftOperand op s) := by
  unfold leftOperand
  split
  · exact writes_parens h
  · exact h

theorem writes_binary (op : BinaryOp) (hs : alphabet.Writes s) (ht : alphabet.Writes t) :
    alphabet.Writes (s ++ " " ++ sign op ++ " " ++ t) := by
  have hsign : s ++ " " ++ sign op ++ " " ++ t = s ++ (" " ++ sign op ++ " ") ++ t := by
    simp only [append_assoc]
  rw [hsign]
  cases op with
  | divide => exact hs.divided ht
  | _ => exact hs.separated (.of rfl) ht

theorem writes_unary (op : UnaryOp) (h : alphabet.Writes s) : alphabet.Writes (unary op s) := by
  cases op with
  | not => exact Alphabet.IsSign.append_writes (.of rfl) h
  | neg => exact Alphabet.IsSign.append_writes (.of rfl) h
  | pow10 => exact Alphabet.IsSign.append_writes (.of rfl) h
  | _ => exact h.enclosed (.of rfl) (.of rfl)

theorem writes_joined (e : Expr) (h : alphabet.Writes s) : alphabet.Writes (joined e s) := by
  unfold joined
  split
  · exact h
  · exact h.enclosed (.of rfl) (.of rfl)

theorem exprs_eq_map (items : List Expr) : exprs names items = items.map (expr names) := by
  induction items with
  | nil => rfl
  | cons e rest ih => rw [exprs, ih, List.map_cons]

theorem joinedItems_eq_map (items : List Expr) :
    joinedItems names items = items.map fun e => joined e (expr names e) := by
  induction items with
  | nil => rfl
  | cons e rest ih => rw [joinedItems, ih, List.map_cons]

theorem writes_expr (hnames : ∀ name, Source.IsIdentifier (names.get name)) (e : Expr) (h : e.Everywhere Writable) :
    alphabet.Writes (expr names e) := by
  induction e with
  | var v =>
    rw [expr]
    exact (Alphabet.isSign_of_isIdentifier (hnames v.name)).writes
  | number literal value attrs =>
    rw [expr]
    exact Alphabet.writes_numberLiteral (h.here.denotes rfl)
  | boolean value attrs =>
    rw [expr]
    cases value with
    | true => exact (Alphabet.IsSign.of rfl).writes
    | false => exact (Alphabet.IsSign.of rfl).writes
  | text value attrs =>
    rw [expr]
    exact Alphabet.writes_quote value
  | binary op left right attrs ihl ihr =>
    obtain ⟨-, hleft, hright⟩ := Expr.everywhere_binary.mp h
    rw [expr]
    exact writes_binary op (writes_leftOperand op (writes_grouped left (ihl hleft))) (writes_grouped right (ihr hright))
  | unary op operand attrs ih =>
    rw [expr]
    exact writes_unary op (writes_grouped operand (ih (Expr.everywhere_unary.mp h).2))
  | list element items attrs ih =>
    rw [expr, exprs_eq_map]
    refine (Alphabet.writes_intercalate (.of rfl) ?_).enclosed (.of rfl) (.of rfl)
    intro text htext
    obtain ⟨e, he, rfl⟩ := List.mem_map.mp htext
    exact ih e he ((Expr.everywhere_list.mp h).2 e he)
  | length operand attrs ih =>
    rw [expr]
    exact (ih (Expr.everywhere_length.mp h).2).enclosed (.of rfl) (.of rfl)
  | join items attrs ih =>
    rw [expr, joinedItems_eq_map]
    unfold sum
    split
    · exact Alphabet.writes_quote ""
    · apply Alphabet.writes_intercalate (.of rfl)
      intro text htext
      obtain ⟨e, he, rfl⟩ := List.mem_map.mp htext
      exact writes_joined e (ih e he ((Expr.everywhere_join.mp h).2 e he))

end Python

namespace Arduino

open Source (Alphabet Names isIdentChar quote)
open Python (Writable)

def alphabet : Alphabet where
  plain c := isIdentChar c ||
    [' ', '.', ',', ';', ':', '+', '-', '*', '(', ')', '\x7b', '\x7d', '<', '>', '=', '!', '&', '|', '#'].contains c
  words := by simp +contextual
  signs := by simp
  others := by simp [isIdentChar, Text.isLetter, Text.isDigit]

variable {names : Names} {s t : String}

theorem isSign_typeName {id name : String} {type : Ty} (h : typeName id type = .ok name) : alphabet.IsSign name := by
  fun_induction typeName id type generalizing name with
  | case1 => exact Except.ok.inj h ▸ .of rfl
  | case2 => exact Except.ok.inj h ▸ .of rfl
  | case3 => exact Except.ok.inj h ▸ .of rfl
  | case4 => cases h
  | case5 element _ ih =>
    obtain ⟨inner, hinner, hname⟩ := bind_ok_iff.mp h
    rw [← Except.ok.inj hname]
    exact (Alphabet.IsSign.append (.of rfl) (ih hinner)).append (.of rfl)
  | case6 => cases h

theorem writes_parens (h : alphabet.Writes s) : alphabet.Writes (parens s) :=
  h.enclosed (.of rfl) (.of rfl)

theorem writes_grouped (e : Expr) (h : alphabet.Writes s) : alphabet.Writes (grouped e s) := by
  unfold grouped
  split
  · split
    · exact h
    · exact writes_parens h
  · exact h

theorem writes_dividend (e : Expr) (h : alphabet.Writes s) : alphabet.Writes (dividend e s) := by
  unfold dividend
  split
  · split
    · exact h.append_sign (.of rfl)
    · exact h
  · exact Alphabet.IsSign.append_writes (.of rfl) (writes_grouped _ h)
  · exact writes_grouped e h

theorem writes_signed (e : Expr) (h : alphabet.Writes s) : alphabet.Writes (signed e s) := by
  unfold signed
  split
  · exact writes_parens h
  · simp only
    split
    · exact writes_parens (writes_grouped e h)
    · exact writes_grouped e h

theorem writes_binary (op : BinaryOp) (left right : Expr) (hs : alphabet.Writes s) (ht : alphabet.Writes t) :
    alphabet.Writes (binary op left right s t) := by
  have hsign : ∀ s t op, s ++ " " ++ sign op ++ " " ++ t = s ++ (" " ++ sign op ++ " ") ++ t := by
    simp only [append_assoc, implies_true]
  cases op with
  | power =>
    have hfirst := Alphabet.IsSign.append_writes (A := alphabet) (s := "pow(") (.of rfl) hs
    exact (hfirst.separated (.of rfl) ht).append_sign (.of rfl)
  | divide => exact (writes_dividend left hs).divided (writes_dividend right ht)
  | _ =>
    simp only [binary, hsign]
    exact (writes_grouped left hs).separated (.of rfl) (writes_grouped right ht)

theorem writes_unary (op : UnaryOp) (operand : Expr) (h : alphabet.Writes s) : alphabet.Writes (unary op operand s) := by
  cases op with
  | not => exact Alphabet.IsSign.append_writes (.of rfl) (writes_signed operand h)
  | neg => exact Alphabet.IsSign.append_writes (.of rfl) (writes_signed operand h)
  | _ => exact h.enclosed (.of rfl) (.of rfl)

theorem writes_joined (e : Expr) (h : alphabet.Writes s) : alphabet.Writes (joined e s) := by
  unfold joined
  split
  · exact h
  · exact h.enclosed (.of rfl) (.of rfl)

variable {text : String}

theorem forall₂_of_exprs {items : List Expr} {texts : List String} (h : exprs names items = .ok texts) :
    List.Forall₂ (fun e text => expr names e = .ok text) items texts := by
  induction items generalizing texts with
  | nil =>
    cases h
    exact .nil
  | cons e rest ih =>
    rw [exprs] at h
    obtain ⟨first, hfirst, h⟩ := bind_ok_iff.mp h
    obtain ⟨others, hothers, h⟩ := bind_ok_iff.mp h
    cases h
    exact .cons hfirst (ih hothers)

theorem forall₂_of_joinedItems {items : List Expr} {texts : List String} (h : joinedItems names items = .ok texts) :
    List.Forall₂ (fun e text => ∃ inner, expr names e = .ok inner ∧ text = joined e inner) items texts := by
  induction items generalizing texts with
  | nil =>
    cases h
    exact .nil
  | cons e rest ih =>
    rw [joinedItems] at h
    obtain ⟨first, hfirst, h⟩ := bind_ok_iff.mp h
    obtain ⟨others, hothers, h⟩ := bind_ok_iff.mp h
    cases h
    exact .cons ⟨first, hfirst, rfl⟩ (ih hothers)

theorem writes_var (hnames : ∀ name, Source.IsIdentifier (names.get name)) {v : Var}
    (h : var names v = .ok text) : alphabet.IsSign text := by
  obtain ⟨_, -, h⟩ := bind_ok_iff.mp h
  cases h
  exact Alphabet.isSign_of_isIdentifier (hnames v.name)

theorem writes_expr (hnames : ∀ name, Source.IsIdentifier (names.get name)) (e : Expr) (h : e.Everywhere Writable)
    (he : expr names e = .ok text) : alphabet.Writes text := by
  induction e generalizing text with
  | var v =>
    rw [expr] at he
    exact (writes_var hnames he).writes
  | number literal value attrs =>
    rw [expr] at he
    cases he
    exact Alphabet.writes_numberLiteral (h.here.denotes rfl)
  | boolean value attrs =>
    rw [expr] at he
    cases he
    cases value with
    | true => exact (Alphabet.IsSign.of rfl).writes
    | false => exact (Alphabet.IsSign.of rfl).writes
  | text value attrs =>
    rw [expr] at he
    cases he
    exact (Alphabet.writes_quote value).enclosed (.of rfl) (.of rfl)
  | binary op left right attrs ihl ihr =>
    obtain ⟨-, hleft, hright⟩ := Expr.everywhere_binary.mp h
    rw [expr] at he
    obtain ⟨leftText, hl, he⟩ := bind_ok_iff.mp he
    obtain ⟨rightText, hr, he⟩ := bind_ok_iff.mp he
    cases he
    exact writes_binary op left right (ihl hleft hl) (ihr hright hr)
  | unary op operand attrs ih =>
    rw [expr] at he
    obtain ⟨inner, hinner, he⟩ := bind_ok_iff.mp he
    cases he
    exact writes_unary op operand (ih (Expr.everywhere_unary.mp h).2 hinner)
  | list element items attrs ih =>
    rw [expr] at he
    obtain ⟨name, hname, he⟩ := bind_ok_iff.mp he
    obtain ⟨texts, htexts, he⟩ := bind_ok_iff.mp he
    cases he
    have hitems : alphabet.Writes (", ".intercalate texts ++ "\x7d") := by
      refine (Alphabet.writes_intercalate (.of rfl) ?_).append_sign (.of rfl)
      intro text htext
      obtain ⟨e, he, hmem⟩ := exists_of_mem_right (forall₂_of_exprs htexts) htext
      exact ih e he ((Expr.everywhere_list.mp h).2 e he) hmem
    have hsign : alphabet.IsSign ("std::vector<" ++ name ++ ">\x7b") :=
      (Alphabet.IsSign.append (.of rfl) (isSign_typeName hname)).append (.of rfl)
    rw [append_assoc]
    exact hsign.append_writes hitems
  | length operand attrs ih =>
    rw [expr] at he
    obtain ⟨inner, hinner, he⟩ := bind_ok_iff.mp he
    cases he
    exact (ih (Expr.everywhere_length.mp h).2 hinner).append_sign (.of rfl)
  | join items attrs ih =>
    rw [expr] at he
    obtain ⟨texts, htexts, he⟩ := bind_ok_iff.mp he
    cases he
    unfold sum
    split
    · have hempty : "String(\"\")" = "String(" ++ quote "" ++ ")" := by decide
      rw [hempty]
      exact (Alphabet.writes_quote "").enclosed (.of rfl) (.of rfl)
    · apply Alphabet.writes_intercalate (.of rfl)
      intro text htext
      obtain ⟨e, he, inner, hinner, rfl⟩ := exists_of_mem_right (forall₂_of_joinedItems htexts) htext
      exact writes_joined e (ih e he ((Expr.everywhere_join.mp h).2 e he) hinner)

end Arduino

/-! ## Programs -/

theorem Expr.mem_parts_self (e : Expr) : e ∈ e.parts :=
  Everywhere.here (P := (· ∈ e.parts)) fun _ h => h

/-- What is known of the statements of an accepted program. -/
structure Stmt.Writable (s : Stmt) : Prop where
  exprs : ∀ e ∈ s.exprs, e.Everywhere Python.Writable
  branched : ∀ otherwise attrs, s ≠ .choose [] otherwise attrs

structure Root.Writable (root : Root) : Prop where
  ne_nil : root ≠ .statements []
  stmts : ∀ s ∈ root.stmts, s.Writable
  exprs : ∀ e ∈ root.exprs, e.Everywhere Python.Writable

theorem Root.Writable.everywhere {body : List Stmt} (h : Root.Writable (.statements body)) {s : Stmt} (hs : s ∈ body) :
    s.Everywhere Stmt.Writable :=
  fun part hpart => h.stmts part (Stmt.mem_allIn.mpr ⟨s, hs, hpart⟩)

theorem Program.writableRoot_of_ofBlocks {blocks : List Block} {allowFloating : Bool} {p : Program}
    (h : ofBlocks blocks allowFloating = .ok p) {root : Root} (hroot : root ∈ p.roots) :
    root.Writable := by
  have hexprs : ∀ e ∈ root.exprs, e.Everywhere Python.Writable := fun e he =>
    writable_of_ofBlocks h (List.mem_flatMap.mpr ⟨root, hroot, he⟩)
  obtain ⟨roots, env, settled, haccepted⟩ := exists_accepted h
  obtain ⟨b, -, hfrom, -, -⟩ := exists_of_mem_left haccepted.resolved hroot
  refine ⟨?_, ?_, hexprs⟩
  · rintro rfl
    have hchain : List.Forall₂ Stmt.ComesFrom [] b.chain := hfrom
    rw [Block.chain_eq] at hchain
    cases hchain
  · intro s hs
    refine ⟨?_, ?_⟩
    · intro e he
      refine hexprs e ?_
      cases root with
      | statements body => exact List.mem_flatMap.mpr ⟨s, hs, List.mem_flatMap.mpr ⟨e, he, e.mem_parts_self⟩⟩
      | value e => cases hs
    · rintro otherwise attrs rfl
      obtain ⟨c, hc⟩ := hfrom.stmts hs
      cases hc with
      | choose _ has =>
        obtain ⟨n, -, hcount⟩ := has.further
        simp at hcount

end Blockwork
