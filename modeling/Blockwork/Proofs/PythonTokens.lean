import Mathlib.Data.List.TakeWhile
import Blockwork.Proofs.Precedence
import Blockwork.Proofs.Texts
import Blockwork.Source.Python

/-! # How Python reads expressions

Texts are cut into words, numbers, strings and signs, and these are read by the precedence of the operators: `or`,
`and`, `not`, comparisons, sums, products, the unary minus, powers. The part of the language that is read here has
no other operators, and comparisons are not chained.
-/

namespace Blockwork

set_option autoImplicit false

open Text (isDigit isLetter)
open Source (hexDigit quoteChar isControl)

namespace Decimal

/-! ## Exponents -/

/-- An exponent, or nothing. -/
inductive IsPower : List Char → Prop where
  | none : IsPower []
  | some {e : Char} {sign ds : List Char} (he : e = 'e' ∨ e = 'E') (hsign : sign = [] ∨ sign = ['+'] ∨ sign = ['-'])
      (hne : ds ≠ []) (hds : ∀ d ∈ ds, isDigit d = true) : IsPower (e :: (sign ++ ds))

theorem isPower_of_exponent? {cs : List Char} (h : (exponent? isDigit cs).isSome = true) : IsPower cs := by
  cases cs with
  | nil => exact .none
  | cons c cs =>
    simp only [exponent?] at h
    by_cases hc : (c = 'e' || c = 'E') = true
    · rw [if_pos hc] at h
      have hdigits : (takeSign cs).2 ≠ [] ∧ ∀ d ∈ (takeSign cs).2, isDigit d = true := by
        by_contra hne
        rw [not_and_or] at hne
        rcases hne with hne | hne <;> simp_all
      have he : c = 'e' ∨ c = 'E' := by simpa using hc
      unfold takeSign at hdigits
      split at hdigits
      · exact .some he (.inr (.inr rfl)) hdigits.1 hdigits.2
      · exact .some he (.inr (.inl rfl)) hdigits.1 hdigits.2
      · exact .some he (.inl rfl) hdigits.1 hdigits.2
    · rw [if_neg hc] at h
      cases h

end Decimal

namespace Python

open Precedence (Bracket Token Tree Table)

/-! ## Tokens -/

/-- Operands without parts. A number is kept as it is written. -/
inductive Atom where
  | name (s : String)
  | number (numeral : String)
  | text (s : String)
  | truth (b : Bool)
deriving DecidableEq

def keywords : List String :=
  ["False", "None", "True", "and", "as", "assert", "async", "await", "break", "class", "continue", "def", "del",
   "elif", "else", "except", "finally", "for", "from", "global", "if", "import", "in", "is", "lambda", "nonlocal",
   "not", "or", "pass", "raise", "return", "try", "while", "with", "yield"]

def isWordStart (c : Char) : Bool :=
  isLetter c || c = '_' || 0x80 ≤ c.toNat

def isWordChar (c : Char) : Bool :=
  isWordStart c || isDigit c

def wordToken (word : String) : Token Atom :=
  if word = "True" then .atom (.truth true)
  else if word = "False" then .atom (.truth false)
  else if word ∈ keywords then .sign word
  else .atom (.name word)

def startsWithDigit (cs : List Char) : Bool :=
  cs.head?.any isDigit

def afterExponent : List Char → List Char
  | [] => []
  | c :: cs =>
    if (c = 'e' || c = 'E') && startsWithDigit (Decimal.takeSign cs).2 then
      (Decimal.takeSign cs).2.dropWhile isDigit
    else c :: cs

def afterNumber (cs : List Char) : List Char :=
  afterExponent (Decimal.takeFraction isDigit (cs.dropWhile isDigit)).2

def hasSpareZero (numeral : List Char) : Bool :=
  numeral.head? = some '0' && numeral.all isDigit && numeral.any (· ≠ '0')

def lexNumber (cs : List Char) : Option (Token Atom × List Char) :=
  let rest := afterNumber cs
  let numeral := cs.take (cs.length - rest.length)
  if hasSpareZero numeral then none else some (.atom (.number (String.ofList numeral)), rest)

def hexValue? (c : Char) : Option Nat :=
  if isDigit c then some (Text.digitValue c)
  else if 'a' ≤ c ∧ c ≤ 'f' then some (c.toNat - 87)
  else if 'A' ≤ c ∧ c ≤ 'F' then some (c.toNat - 55)
  else none

/-- Where in a string a character stands: by itself, after a backslash, or as a digit of a character's number. -/
inductive Place where
  | plain
  | escape
  | high
  | low (value : Nat)
deriving DecidableEq

def stringChar? (place : Place) (c : Char) : Option (Place × List Char) :=
  match place with
  | .plain =>
    if c = '\\' then some (.escape, [])
    else if c = '\n' || c = '\r' then none
    else some (.plain, [c])
  | .escape =>
    if c = '\\' || c = '\x22' then some (.plain, [c])
    else if c = 'n' then some (.plain, ['\n'])
    else if c = 'r' then some (.plain, ['\r'])
    else if c = 't' then some (.plain, ['\t'])
    else if c = 'x' then some (.high, [])
    else none
  | .high => (hexValue? c).map fun value => (.low value, [])
  | .low value => (hexValue? c).map fun value' => (.plain, [Char.ofNat (16 * value + value')])

def stringBody? (place : Place) : List Char → Option (List Char × List Char)
  | [] => none
  | c :: cs =>
    if place = .plain ∧ c = '\x22' then some ([], cs)
    else (stringChar? place c).bind fun next =>
      (stringBody? next.1 cs).map fun result => (next.2 ++ result.1, result.2)

def signs : List (List Char × Token Atom) :=
  [(['*', '*'], .sign "**"), (['=', '='], .sign "=="), (['!', '='], .sign "!="), (['<', '='], .sign "<="),
   (['>', '='], .sign ">="), (['+'], .sign "+"), (['-'], .sign "-"), (['*'], .sign "*"), (['/'], .sign "/"),
   (['<'], .sign "<"), (['>'], .sign ">"), (['('], .opens .round), ([')'], .closes .round),
   (['['], .opens .square), ([']'], .closes .square), ([','], .comma), (['.'], .dot)]

def lexSign (cs : List Char) : Option (Token Atom × List Char) :=
  signs.findSome? fun sign => if sign.1.isPrefixOf cs then some (sign.2, cs.drop sign.1.length) else none

def lex (c : Char) (cs : List Char) : Option (Token Atom × List Char) :=
  if isWordStart c then
    some (wordToken (String.ofList (c :: cs.takeWhile isWordChar)), cs.dropWhile isWordChar)
  else if isDigit c || (c = '.' && startsWithDigit cs) then lexNumber (c :: cs)
  else if c = '\x22' then (stringBody? .plain cs).map fun result => (.atom (.text (String.ofList result.1)), result.2)
  else lexSign (c :: cs)

def scan : List Char → Option (List (Token Atom))
  | [] => some []
  | c :: cs =>
    if c = ' ' || c = '\t' then scan cs
    else (lex c cs).bind fun result =>
      if result.2.length < cs.length + 1 then (scan result.2).map (result.1 :: ·) else none
termination_by cs => cs.length

/-! ## Trees -/

/-- The operators: a larger level binds more tightly. A power takes a minus before its right operand, and binds
more tightly than one before its left operand. -/
def operators : Table BinaryOp UnaryOp where
  binary? s :=
    ([("+", .add), ("-", .minus), ("*", .multiply), ("/", .divide), ("**", .power), ("==", .eq), ("!=", .neq),
      ("<", .lt), ("<=", .lte), (">", .gt), (">=", .gte), ("and", .and), ("or", .or)] :
      List (String × BinaryOp)).lookup s
  unary? s := ([("-", .neg), ("not", .not)] : List (String × UnaryOp)).lookup s
  binding
    | .or => { level := 1, left := 1, right := 2 }
    | .and => { level := 2, left := 2, right := 3 }
    | .eq | .neq | .lt | .lte | .gt | .gte => { level := 4, left := 5, right := 5 }
    | .add | .minus => { level := 5, left := 5, right := 6 }
    | .multiply | .divide => { level := 6, left := 6, right := 7 }
    | .power => { level := 8, left := 9, right := 7 }
  level
    | .not => 3
    | _ => 7

abbrev ExprTree := Tree Atom BinaryOp UnaryOp

def parse? (text : String) : Option ExprTree :=
  (scan text.toList).bind operators.parse?

theorem lawful_operators : operators.Lawful where
  left op := by cases op <;> decide
  binary op op' := by cases op <;> cases op' <;> decide
  unary op op' := by cases op <;> cases op' <;> decide

/-! ## Cutting off one token -/

theorem scan_nil : scan [] = some [] := by
  rw [scan]

theorem scan_space (cs : List Char) : scan (' ' :: cs) = scan cs := by
  rw [scan]
  rfl

variable {c : Char} {cs rest : List Char} {s : String} {n : Nat}

theorem scan_lex {t : Token Atom} (hlex : lex c cs = some (t, rest))
    (hc : c ≠ ' ' ∧ c ≠ '\t') (hlength : rest.length ≤ cs.length) : scan (c :: cs) = (scan rest).map (t :: ·) := by
  have hblank : (c = ' ' || c = '\t') = false := by simp [hc]
  have hlt : rest.length < cs.length + 1 := by omega
  rw [scan, hblank, hlex, if_neg Bool.false_ne_true, Option.bind_some]
  exact if_pos hlt

def Ends (rest : List Char) : Prop :=
  ∀ c, rest.head? = some c → isWordChar c = false ∧ c ≠ '.'

theorem ends_nil : Ends [] := by
  intro c hc
  cases hc

theorem ends_cons (h : isWordChar c = false ∧ c ≠ '.') (rest : List Char) : Ends (c :: rest) := by
  intro d hd
  rw [List.head?_cons, Option.some.injEq] at hd
  exact hd ▸ h

theorem Ends.not_digit (h : Ends rest) (hc : rest.head? = some c) : isDigit c = false := by
  have hword := (h c hc).1
  simp only [isWordChar, Bool.or_eq_false_iff] at hword
  exact hword.2

theorem dropWhile_append_ends {p : Char → Bool} (h : ∀ c, rest.head? = some c → p c = false)
    (cs : List Char) : (cs ++ rest).dropWhile p = cs.dropWhile p ++ rest := by
  induction cs with
  | nil =>
    cases rest with
    | nil => rfl
    | cons c rest => simp [h c rfl]
  | cons c cs ih =>
    by_cases hc : p c = true
    · simp [hc, ih]
    · simp [hc]

theorem not_isWordChar : ∀ c ∈ [' ', ',', '(', ')'], isWordChar c = false := by
  simp [isWordChar, isWordStart, isLetter, isDigit]

/-! ### Words -/

def isWord (s : String) : Bool :=
  s.toList.head?.any isWordStart && s.toList.all isWordChar

def isName (s : String) : Bool :=
  isWord s && s ∉ keywords

theorem exists_of_isWord (hs : isWord s = true) (hrest : ∀ c, rest.head? = some c → isWordChar c = false) :
    ∃ c cs, s.toList = c :: cs ∧ isWordStart c = true ∧ (c ≠ ' ' ∧ c ≠ '\t') ∧
      (cs ++ rest).takeWhile isWordChar = cs ∧ (cs ++ rest).dropWhile isWordChar = rest := by
  rw [isWord, Bool.and_eq_true] at hs
  obtain ⟨hstart, hchars⟩ := hs
  cases hcs : s.toList with
  | nil =>
    rw [hcs] at hstart
    cases hstart
  | cons c cs =>
    rw [hcs] at hstart hchars
    have hc : isWordStart c = true := hstart
    have hall : ∀ d ∈ cs, isWordChar d = true := by
      intro d hd
      exact List.all_eq_true.mp hchars d (List.mem_cons_of_mem c hd)
    have hdrop : (cs ++ rest).dropWhile isWordChar = rest := by
      rw [dropWhile_append_ends hrest, List.dropWhile_eq_nil_iff.mpr hall, List.nil_append]
    have htake : (cs ++ rest).takeWhile isWordChar = cs := by
      have hsplit := List.takeWhile_append_dropWhile (p := isWordChar) (l := cs ++ rest)
      rw [hdrop] at hsplit
      exact List.append_cancel_right hsplit
    refine ⟨c, cs, rfl, hc, ⟨?_, ?_⟩, htake, hdrop⟩
    · rintro rfl
      cases hc
    · rintro rfl
      cases hc

theorem scan_word (hs : isWord s = true) (hrest : ∀ c, rest.head? = some c → isWordChar c = false) :
    scan (s.toList ++ rest) = (scan rest).map (wordToken s :: ·) := by
  obtain ⟨c, cs, hcs, hc, hblank, htake, hdrop⟩ := exists_of_isWord hs hrest
  have hlex : lex c (cs ++ rest) = some (wordToken s, rest) := by
    rw [lex, if_pos hc, htake, hdrop, ← hcs, String.ofList_toList]
  rw [hcs, List.cons_append]
  apply scan_lex hlex hblank
  simp

theorem wordToken_of_isName (h : isName s = true) : isWord s = true ∧ wordToken s = .atom (.name s) := by
  simp only [isName, Bool.and_eq_true, decide_eq_true_eq] at h
  obtain ⟨hword, hkeyword⟩ := h
  have htrue : s ≠ "True" := by
    rintro rfl
    exact hkeyword (by decide)
  have hfalse : s ≠ "False" := by
    rintro rfl
    exact hkeyword (by decide)
  exact ⟨hword, by simp [wordToken, htrue, hfalse, hkeyword]⟩

/-! ### Numbers -/

theorem isWordStart_of_isDigit (h : isDigit c = true) : isWordStart c = false ∧ c ≠ ' ' ∧ c ≠ '\t' := by
  have hc := Text.toNat_of_isDigit h
  refine ⟨?_, ?_, ?_⟩
  · by_contra hstart
    simp only [isWordStart, isLetter, Bool.not_eq_false, Bool.or_eq_true, Bool.and_eq_true, decide_eq_true_eq,
      Char.le_def, UInt32.le_iff_toNat_le, Char.reduceVal, UInt32.reduceToNat] at hstart
    have hval : c.val.toNat = c.toNat := rfl
    rcases hstart with (hletter | rfl) | hforeign
    · omega
    · exact absurd hc (by decide)
    · omega
  · rintro rfl
    exact absurd hc (by decide)
  · rintro rfl
    exact absurd hc (by decide)

def startsNumber : List Char → Bool
  | [] => false
  | c :: cs => isDigit c || (c = '.' && startsWithDigit cs)

/-- A number without a sign, as it may be written. -/
structure IsNumeral (cs : List Char) : Prop where
  starts : startsNumber cs = true
  ends : (Decimal.exponent? isDigit
    (Decimal.takeFraction isDigit (cs.dropWhile isDigit)).2).isSome = true
  spare : hasSpareZero cs = false

/-- A number without a sign is made of digits, perhaps a point with digits, and perhaps an exponent. -/
theorem IsNumeral.exists_parts (h : IsNumeral cs) : ∃ whole fraction power, cs = whole ++ (fraction ++ power) ∧
    (∀ d ∈ whole, isDigit d = true) ∧ Decimal.IsPower power ∧ (whole ≠ [] ∧ fraction = [] ∨
      ∃ ds, fraction = '.' :: ds ∧ (∀ d ∈ ds, isDigit d = true) ∧ (whole ≠ [] ∨ ds ≠ [])) := by
  have hstarts := h.starts
  have hends := h.ends
  refine ⟨cs.takeWhile isDigit, ?_⟩
  have hwhole : ∀ d ∈ cs.takeWhile isDigit, isDigit d = true := fun d hd => List.mem_takeWhile_imp hd
  have hcs := List.takeWhile_append_dropWhile (p := isDigit) (l := cs)
  unfold Decimal.takeFraction at hends
  split at hends
  · next rest heq =>
    refine ⟨'.' :: rest.takeWhile isDigit, rest.dropWhile isDigit, ?_, hwhole, Decimal.isPower_of_exponent? hends,
      .inr ⟨_, rfl, fun d hd => List.mem_takeWhile_imp hd, ?_⟩⟩
    · rw [List.cons_append, List.takeWhile_append_dropWhile, ← heq, hcs]
    · by_contra hne
      simp only [ne_eq, not_or, not_not] at hne
      rw [hne.1, heq, List.nil_append] at hcs
      subst hcs
      cases rest with
      | nil => cases hstarts
      | cons d rest =>
        have hd : isDigit d = true := hstarts
        simp [hd] at hne
  · next hdot =>
    refine ⟨[], cs.dropWhile isDigit, hcs.symm, hwhole, Decimal.isPower_of_exponent? hends, .inl ⟨fun hnil => ?_, rfl⟩⟩
    cases cs with
    | nil => cases hstarts
    | cons c cs =>
      have hc : isDigit c = false := by
        by_contra hc
        simp [hc] at hnil
      rw [List.dropWhile_cons_of_neg (by simp [hc])] at hdot
      simp only [startsNumber, hc, Bool.false_or, Bool.and_eq_true, decide_eq_true_eq] at hstarts
      exact hdot cs (by rw [hstarts.1])

theorem IsNumeral.forall_mem {P : Char → Prop} (h : IsNumeral cs) (hdigit : ∀ d, isDigit d = true → P d)
    (hmark : ∀ c ∈ ['.', 'e', 'E', '+', '-'], P c) : ∀ c ∈ cs, P c := by
  obtain ⟨whole, fraction, power, rfl, hwhole, hpower, hfraction⟩ := h.exists_parts
  refine List.forall_mem_append.mpr ⟨fun d hd => hdigit d (hwhole d hd), List.forall_mem_append.mpr ⟨?_, ?_⟩⟩
  · obtain ⟨-, rfl⟩ | ⟨ds, rfl, hds, -⟩ := hfraction
    · exact List.forall_mem_nil P
    · exact List.forall_mem_cons.mpr ⟨hmark '.' (by decide), fun d hd => hdigit d (hds d hd)⟩
  · cases hpower with
    | none => exact List.forall_mem_nil P
    | some he hsign _ hds =>
      refine List.forall_mem_cons.mpr ⟨?_, List.forall_mem_append.mpr ⟨?_, fun d hd => hdigit d (hds d hd)⟩⟩
      · rcases he with rfl | rfl <;> exact hmark _ (by decide)
      · rcases hsign with rfl | rfl | rfl
        · exact List.forall_mem_nil P
        · exact List.forall_mem_singleton.mpr (hmark '+' (by decide))
        · exact List.forall_mem_singleton.mpr (hmark '-' (by decide))

theorem takeFraction_append (hrest : Ends rest) (cs : List Char) :
    (Decimal.takeFraction isDigit (cs ++ rest)).2 = (Decimal.takeFraction isDigit cs).2 ++ rest := by
  cases cs with
  | nil =>
    cases rest with
    | nil => rfl
    | cons c rest =>
      have hdot := (hrest c rfl).2
      simp [Decimal.takeFraction, hdot]
  | cons c cs =>
    by_cases hc : c = '.'
    · subst hc
      exact dropWhile_append_ends (fun d hd => hrest.not_digit hd) cs
    · simp [Decimal.takeFraction, hc]

theorem afterExponent_append (hrest : Ends rest) (h : Decimal.IsPower cs) : afterExponent (cs ++ rest) = rest := by
  cases h with
  | none =>
    cases rest with
    | nil => rfl
    | cons c rest =>
      have hword := (hrest c rfl).1
      have hletter : (c = 'e' || c = 'E') = false := by
        by_contra he
        simp only [Bool.not_eq_false, Bool.or_eq_true, decide_eq_true_eq] at he
        rcases he with rfl | rfl <;> cases hword
      simp [afterExponent, hletter]
  | @some e sign ds he hsign hne hds =>
    obtain ⟨d, ds, rfl⟩ := List.exists_cons_of_ne_nil hne
    have hd : isDigit d = true := hds d List.mem_cons_self
    have hafter : (Decimal.takeSign (sign ++ (d :: ds ++ rest))).2 = d :: ds ++ rest := by
      rcases hsign with rfl | rfl | rfl
      · have hminus : d ≠ '-' := by
          rintro rfl
          cases hd
        have hplus : d ≠ '+' := by
          rintro rfl
          cases hd
        simp [Decimal.takeSign, hminus, hplus]
      · rfl
      · rfl
    have hletter : (e = 'e' || e = 'E') = true := by simpa using he
    have hstarts : startsWithDigit (d :: ds ++ rest) = true := hd
    rw [List.cons_append, List.append_assoc, afterExponent, hafter, hletter, hstarts, Bool.and_true, if_pos rfl,
      dropWhile_append_ends fun d hd => hrest.not_digit hd, List.dropWhile_eq_nil_iff.mpr hds, List.nil_append]

theorem afterNumber_append (h : IsNumeral cs) (hrest : Ends rest) : afterNumber (cs ++ rest) = rest := by
  unfold afterNumber
  rw [dropWhile_append_ends fun d hd => hrest.not_digit hd, takeFraction_append hrest]
  exact afterExponent_append hrest (Decimal.isPower_of_exponent? h.ends)

theorem exists_of_isNumeral (h : IsNumeral cs) (rest : List Char) :
    ∃ c ds, cs = c :: ds ∧ isWordStart c = false ∧ (c ≠ ' ' ∧ c ≠ '\t') ∧
      (isDigit c || (c = '.' && startsWithDigit (ds ++ rest))) = true := by
  cases cs with
  | nil => cases h.starts
  | cons c cs =>
    have hstarts := h.starts
    simp only [startsNumber, Bool.or_eq_true, Bool.and_eq_true, decide_eq_true_eq] at hstarts
    have hword : isWordStart c = false ∧ c ≠ ' ' ∧ c ≠ '\t' := by
      rcases hstarts with hc | ⟨rfl, -⟩
      · exact isWordStart_of_isDigit hc
      · decide
    refine ⟨c, cs, rfl, hword.1, hword.2, ?_⟩
    rcases hstarts with hc | ⟨hc, hcs⟩
    · simp [hc]
    · cases cs with
      | nil => cases hcs
      | cons d cs =>
        have hd : isDigit d = true := hcs
        simp [hc, startsWithDigit, hd]

theorem scan_number (h : IsNumeral cs) (hrest : Ends rest) :
    scan (cs ++ rest) = (scan rest).map (.atom (.number (String.ofList cs)) :: ·) := by
  have hafter := afterNumber_append h hrest
  have hnumber : lexNumber (cs ++ rest) = some (.atom (.number (String.ofList cs)), rest) := by
    simp [lexNumber, hafter, h.spare]
  obtain ⟨c, ds, rfl, hword, hblank, hfirst⟩ := exists_of_isNumeral h rest
  have hlex : lex c (ds ++ rest) = some (.atom (.number (String.ofList (c :: ds))), rest) := by
    rw [lex, hword, if_neg Bool.false_ne_true, if_pos hfirst]
    exact hnumber
  rw [List.cons_append]
  apply scan_lex hlex hblank
  simp

/-! ### Strings -/

theorem hexValue?_hexDigit (h : n < 16) : hexValue? (hexDigit n) = some n := by
  revert n
  decide

theorem hexDigit_visible (h : n < 16) : ∀ c ∈ ['\n', '\r', '\x22', '\\'], hexDigit n ≠ c := by
  have hdigits : ∀ m < 16, hexDigit m ≠ '\n' ∧ hexDigit m ≠ '\r' ∧ hexDigit m ≠ '\x22' ∧
      hexDigit m ≠ '\\' := by decide
  simpa using hdigits n h

/-- The characters behind a backslash, with what they stand for. -/
def escapes : List (Char × Char) :=
  [('\x22', '\x22'), ('\\', '\\'), ('n', '\n'), ('r', '\r'), ('t', '\t')]

theorem quoteChar_cases (c : Char) :
    (quoteChar c = [c] ∧ isControl c = false ∧ ∀ d ∈ ['\n', '\r', '\x22', '\\'], c ≠ d) ∨
    (∃ d, (d, c) ∈ escapes ∧ quoteChar c = ['\\', d]) ∨
    isControl c = true ∧ c ∉ ['\n', '\r', '\t'] ∧
      quoteChar c = ['\\', 'x', hexDigit (c.toNat / 16), hexDigit (c.toNat % 16)] := by
  unfold quoteChar
  by_cases hquote : c = '\x22'
  · exact .inr (.inl ⟨'\x22', by simp [escapes, hquote]⟩)
  by_cases hslash : c = '\\'
  · exact .inr (.inl ⟨'\\', by simp [escapes, hslash]⟩)
  by_cases hfeed : c = '\n'
  · exact .inr (.inl ⟨'n', by simp [escapes, hfeed]⟩)
  by_cases hreturn : c = '\r'
  · exact .inr (.inl ⟨'r', by simp [escapes, hreturn]⟩)
  by_cases htab : c = '\t'
  · exact .inr (.inl ⟨'t', by simp [escapes, htab]⟩)
  rw [if_neg hquote, if_neg hslash, if_neg hfeed, if_neg hreturn, if_neg htab]
  by_cases hcontrol : isControl c = true
  · exact .inr (.inr ⟨hcontrol, by simp [hfeed, hreturn, htab], if_pos hcontrol⟩)
  · exact .inl ⟨if_neg hcontrol, Bool.not_eq_true _ ▸ hcontrol, by simp [hquote, hslash, hfeed, hreturn]⟩

theorem toNat_lt_of_isControl (h : isControl c = true) : c.toNat < 256 := by
  simp only [isControl, Bool.or_eq_true, Bool.and_eq_true, decide_eq_true_eq] at h
  omega

theorem quoteChar_eq (c : Char) :
    (quoteChar c = [c] ∧ ∀ d ∈ ['\n', '\r', '\x22', '\\'], c ≠ d) ∨
    ∃ d ds, quoteChar c = '\\' :: d :: ds ∧ (d ≠ '\n' ∧ d ≠ '\r') ∧
      ∀ e ∈ ds, ∀ f ∈ ['\n', '\r', '\x22', '\\'], e ≠ f := by
  rcases quoteChar_cases c with ⟨heq, -, hplain⟩ | ⟨d, hd, heq⟩ | ⟨hcontrol, -, heq⟩
  · exact .inl ⟨heq, hplain⟩
  · have hescapes : ∀ escape ∈ escapes, escape.1 ≠ '\n' ∧ escape.1 ≠ '\r' := by decide
    exact .inr ⟨d, [], heq, hescapes _ hd, by simp⟩
  · have hlt := toNat_lt_of_isControl hcontrol
    refine .inr ⟨'x', _, heq, by decide, List.forall_mem_cons.mpr ⟨hexDigit_visible (by omega), ?_⟩⟩
    exact List.forall_mem_singleton.mpr (hexDigit_visible (by omega))

theorem stringBody?_plain (hquote : c ≠ '\x22') (hslash : c ≠ '\\') (hline : c ≠ '\n' ∧ c ≠ '\r') (cs : List Char) :
    stringBody? .plain (c :: cs) = (stringBody? .plain cs).map fun result => (c :: result.1, result.2) := by
  simp [stringBody?, stringChar?, hquote, hslash, hline]

theorem stringBody?_escape {d : Char} (h : stringChar? .escape c = some (.plain, [d])) (cs : List Char) :
    stringBody? .plain ('\\' :: c :: cs) =
      (stringBody? .plain cs).map fun result => (d :: result.1, result.2) := by
  have hplain : stringChar? .plain '\\' = some (.escape, []) := rfl
  simp [stringBody?, hplain, h, Function.comp_def]

theorem stringBody?_hex (h : n < 256) (cs : List Char) :
    stringBody? .plain ('\\' :: 'x' :: hexDigit (n / 16) :: hexDigit (n % 16) :: cs) =
      (stringBody? .plain cs).map fun result => (Char.ofNat n :: result.1, result.2) := by
  have hhigh : hexValue? (hexDigit (n / 16)) = some (n / 16) := hexValue?_hexDigit (by omega)
  have hlow : hexValue? (hexDigit (n % 16)) = some (n % 16) := hexValue?_hexDigit (by omega)
  have hn : 16 * (n / 16) + n % 16 = n := by omega
  simp [stringBody?, stringChar?, hhigh, hlow, hn, Function.comp_def]

theorem stringBody?_quoteChar (c : Char) (cs : List Char) :
    stringBody? .plain (quoteChar c ++ cs) =
      (stringBody? .plain cs).map fun result => (c :: result.1, result.2) := by
  rcases quoteChar_cases c with ⟨heq, -, hplain⟩ | ⟨d, hd, heq⟩ | ⟨hcontrol, -, heq⟩
  · rw [heq]
    exact stringBody?_plain (hplain _ (by simp)) (hplain _ (by simp)) ⟨hplain _ (by simp), hplain _ (by simp)⟩ cs
  · have hescapes : ∀ escape ∈ escapes, stringChar? .escape escape.1 = some (.plain, [escape.2]) := by decide
    rw [heq]
    exact stringBody?_escape (hescapes _ hd) cs
  · have hbody := stringBody?_hex (toNat_lt_of_isControl hcontrol) cs
    rw [Char.ofNat_toNat] at hbody
    rw [heq]
    exact hbody

theorem stringBody?_quoted (cs rest : List Char) :
    stringBody? .plain (cs.flatMap quoteChar ++ '\x22' :: rest) = some (cs, rest) := by
  induction cs with
  | nil => simp [stringBody?]
  | cons c cs ih =>
    rw [List.flatMap_cons, List.append_assoc, stringBody?_quoteChar, ih]
    rfl

theorem scan_quote (s : String) (rest : List Char) :
    scan ((Source.quote s).toList ++ rest) = (scan rest).map (.atom (.text s) :: ·) := by
  have hchars : (Source.quote s).toList ++ rest = '\x22' :: (s.toList.flatMap quoteChar ++ '\x22' :: rest) := by
    simp [Source.quote]
  have hlex : lex '\x22' (s.toList.flatMap quoteChar ++ '\x22' :: rest) = some (.atom (.text s), rest) := by
    have hstart : isWordStart '\x22' = false := by decide
    have hdigit : (isDigit '\x22' || ('\x22' = '.' &&
        startsWithDigit (s.toList.flatMap quoteChar ++ '\x22' :: rest))) = false := by
      simp [isDigit]
    rw [lex, hstart, hdigit, stringBody?_quoted]
    simp
  rw [hchars]
  apply scan_lex hlex
  · decide
  · simp only [List.length_append, List.length_cons]
    omega

/-! ### Signs -/

theorem scan_sign {t : Token Atom} (hc : isWordStart c = false)
    (hdigit : (isDigit c || c = '.') = false) (hquote : (c = ' ' || c = '\t' || c = '\x22') = false)
    (hsign : lexSign (c :: cs) = some (t, rest)) (hlength : rest.length ≤ cs.length) :
    scan (c :: cs) = (scan rest).map (t :: ·) := by
  simp only [Bool.or_eq_false_iff, decide_eq_false_iff_not] at hdigit hquote
  obtain ⟨⟨hspace, htab⟩, hquote⟩ := hquote
  have hlex : lex c cs = some (t, rest) := by
    simp [lex, hc, hdigit.1, hdigit.2, hquote, hsign]
  exact scan_lex hlex ⟨hspace, htab⟩ hlength

theorem scan_open (cs : List Char) : scan ('(' :: cs) = (scan cs).map (.opens .round :: ·) :=
  scan_sign (by decide) (by decide) (by decide) rfl (Nat.le_refl _)

theorem scan_close (cs : List Char) : scan (')' :: cs) = (scan cs).map (.closes .round :: ·) :=
  scan_sign (by decide) (by decide) (by decide) rfl (Nat.le_refl _)

theorem scan_openList (cs : List Char) : scan ('[' :: cs) = (scan cs).map (.opens .square :: ·) :=
  scan_sign (by decide) (by decide) (by decide) rfl (Nat.le_refl _)

theorem scan_closeList (cs : List Char) : scan (']' :: cs) = (scan cs).map (.closes .square :: ·) :=
  scan_sign (by decide) (by decide) (by decide) rfl (Nat.le_refl _)

theorem scan_comma (cs : List Char) : scan (',' :: cs) = (scan cs).map (.comma :: ·) :=
  scan_sign (by decide) (by decide) (by decide) rfl (Nat.le_refl _)

theorem scan_minus (cs : List Char) : scan ('-' :: cs) = (scan cs).map (.sign "-" :: ·) :=
  scan_sign (by decide) (by decide) (by decide) rfl (Nat.le_refl _)

theorem scan_dot (hc : isDigit c = false) (cs : List Char) :
    scan ('.' :: c :: cs) = (scan (c :: cs)).map (.dot :: ·) := by
  have hstart : isWordStart '.' = false := by decide
  have hnumber : (isDigit '.' || ('.' = '.' && startsWithDigit (c :: cs))) = false := by
    simp only [startsWithDigit, List.head?_cons, Option.any_some, hc]
    decide
  have hlex : lex '.' (c :: cs) = some (.dot, c :: cs) := by
    rw [lex, hstart, hnumber]
    rfl
  exact scan_lex hlex (by decide) (Nat.le_refl _)

theorem scan_operator (op : BinaryOp) (cs : List Char) :
    scan ((sign op).toList ++ ' ' :: cs) = (scan (' ' :: cs)).map (.sign (sign op) :: ·) := by
  have hword : ∀ s, isWord s = true → wordToken s = .sign s →
      scan (s.toList ++ ' ' :: cs) = (scan (' ' :: cs)).map (.sign s :: ·) := by
    intro s hs htoken
    rw [scan_word hs (by simp [isWordChar, isWordStart, isLetter, isDigit]), htoken]
  cases op with
  | and => exact hword "and" (by decide) rfl
  | or => exact hword "or" (by decide) rfl
  | add | minus | multiply | divide | lt | gt =>
    exact scan_sign (by decide) (by decide) (by decide) rfl (Nat.le_refl _)
  | power | eq | neq | lte | gte =>
    exact scan_sign (by decide) (by decide) (by decide) rfl (Nat.le_succ _)

end Python

end Blockwork
