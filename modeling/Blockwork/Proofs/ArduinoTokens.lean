import Blockwork.Proofs.NumberTexts
import Blockwork.Proofs.Spelling
import Blockwork.Source.Arduino

/-! # How sketches are read

Texts are cut into the longest tokens that there are: words, numbers, strings and signs. The names of list types and
of casts are made of several tokens, which are joined. Tokens are read by the precedence of the operators: `||`, `&&`,
equality, comparisons, sums, products, prefixes. The part of the language that is read here has no other operators.
-/

namespace Blockwork.Arduino

set_option autoImplicit false

open Precedence (Bracket Language Token Tree Table)
open Python (isWordStart isWordChar startsWithDigit IsNumeral)
open List (cons_append mem_cons not_mem_nil)
open Text (isDigit)
open Python (isWord)

/-! ## Tokens -/

/-- Operands without parts, and types. A number and a string are kept as they are written. -/
inductive Atom where
  | name (s : String)
  | number (numeral : String)
  | text (literal : String)
  | truth (b : Bool)
  | type (t : Ty)
deriving DecidableEq

def keywords : List String :=
  ["alignas", "alignof", "and", "and_eq", "asm", "auto", "bitand", "bitor", "bool", "break", "case", "catch", "char",
   "char16_t", "char32_t", "class", "compl", "const", "const_cast", "constexpr", "continue", "decltype", "default",
   "delete", "do", "double", "dynamic_cast", "else", "enum", "explicit", "export", "extern", "false", "float", "for",
   "friend", "goto", "if", "inline", "int", "long", "mutable", "namespace", "new", "noexcept", "not", "not_eq",
   "nullptr", "operator", "or", "or_eq", "private", "protected", "public", "register", "reinterpret_cast", "return",
   "short", "signed", "sizeof", "static", "static_assert", "static_cast", "struct", "switch", "template", "this",
   "thread_local", "throw", "true", "try", "typedef", "typeid", "typename", "union", "unsigned", "using", "virtual",
   "void", "volatile", "wchar_t", "while", "xor", "xor_eq"]

def wordToken (word : String) : Token Atom :=
  if word = "true" then .atom (.truth true)
  else if word = "false" then .atom (.truth false)
  else if word ∈ keywords then .sign word
  else .atom (.name word)

/-- The longest run of characters that may be in a number, and the rest. A sign belongs to it after the mark of an
exponent, which the flag tells. -/
def takeNumber (marked : Bool) : List Char → List Char × List Char
  | [] => ([], [])
  | c :: cs =>
    if isWordChar c || c = '.' || (marked && (c = '+' || c = '-')) then
      let result := takeNumber (c ∈ ['e', 'E', 'p', 'P']) cs
      (c :: result.1, result.2)
    else ([], c :: cs)

def lexNumber (cs : List Char) : Option (Token Atom × List Char) :=
  let run := takeNumber false cs
  if Python.afterNumber run.1 = [] ∧ Python.hasSpareZero run.1 = false then
    some (.atom (.number (String.ofList run.1)), run.2)
  else none

def takeString (escaped : Bool) : List Char → Option (List Char × List Char)
  | [] => none
  | c :: cs =>
    if c = '\n' || c = '\r' then none
    else if c = '\x22' && !escaped then some ([c], cs)
    else (takeString (c = '\\' && !escaped) cs).map fun result => (c :: result.1, result.2)

def signs : List (List Char × Token Atom) :=
  [(['<', '<', '='], .sign "<<="), (['>', '>', '='], .sign ">>="), (['-', '>', '*'], .sign "->*"),
   (['.', '.', '.'], .sign "..."), ([':', ':'], .sign "::"), (['+', '+'], .sign "++"), (['-', '-'], .sign "--"),
   (['-', '>'], .sign "->"), (['.', '*'], .sign ".*"), (['+', '='], .sign "+="), (['-', '='], .sign "-="),
   (['*', '='], .sign "*="), (['/', '='], .sign "/="), (['%', '='], .sign "%="), (['^', '='], .sign "^="),
   (['&', '='], .sign "&="), (['|', '='], .sign "|="), (['=', '='], .sign "=="), (['!', '='], .sign "!="),
   (['<', '='], .sign "<="), (['>', '='], .sign ">="), (['&', '&'], .sign "&&"), (['|', '|'], .sign "||"),
   (['<', '<'], .sign "<<"), (['>', '>'], .sign ">>"), (['#', '#'], .sign "##"), (['/', '/'], .sign "//"),
   (['/', '*'], .sign "/*"), (['<', ':'], .sign "<:"), ([':', '>'], .sign ":>"), (['<', '%'], .sign "<%"),
   (['%', '>'], .sign "%>"), (['%', ':'], .sign "%:"), (['('], .opens .round), ([')'], .closes .round),
   (['['], .opens .square), ([']'], .closes .square), (['\x7b'], .opens .curly), (['\x7d'], .closes .curly),
   ([','], .comma), (['.'], .dot), ([';'], .sign ";"), ([':'], .sign ":"), (['?'], .sign "?"), (['+'], .sign "+"),
   (['-'], .sign "-"), (['*'], .sign "*"), (['/'], .sign "/"), (['%'], .sign "%"), (['^'], .sign "^"),
   (['&'], .sign "&"), (['|'], .sign "|"), (['~'], .sign "~"), (['!'], .sign "!"), (['='], .sign "="),
   (['<'], .sign "<"), (['>'], .sign ">"), (['#'], .sign "#")]

def lexSign (cs : List Char) : Option (Token Atom × List Char) :=
  signs.findSome? fun sign => if sign.1.isPrefixOf cs then some (sign.2, cs.drop sign.1.length) else none

def lex (c : Char) (cs : List Char) : Option (Token Atom × List Char) :=
  if isWordStart c then
    some (wordToken (String.ofList (c :: cs.takeWhile isWordChar)), cs.dropWhile isWordChar)
  else if isDigit c || (c = '.' && startsWithDigit cs) then lexNumber (c :: cs)
  else if c = '\x22' then
    (takeString false cs).map fun result => (.atom (.text (String.ofList (c :: result.1))), result.2)
  else lexSign (c :: cs)

def scan : List Char → Option (List (Token Atom))
  | [] => some []
  | c :: cs =>
    if c = ' ' || c = '\t' then scan cs
    else (lex c cs).bind fun result =>
      if result.2.length < cs.length + 1 then (scan result.2).map (result.1 :: ·) else none
termination_by cs => cs.length

/-! ## Names of types -/

def typeWords : List (String × Ty) :=
  [("double", .number), ("bool", .boolean)]

def typeOf? : Token Atom → Option Ty
  | .sign s => typeWords.lookup s
  | .atom (.name s) => if s = "String" then some .text else none
  | .atom (.type t) => some t
  | _ => none

def joinCast : List (Token Atom) → List (Token Atom)
  | .sign s :: .closes .round :: rest =>
    if (typeWords.lookup s).isSome then .sign ("(" ++ s ++ ")") :: rest
    else .opens .round :: .sign s :: .closes .round :: rest
  | rest => .opens .round :: rest

def endVector (element : Ty) (sign : Token Atom) (rest : List (Token Atom)) : Option (List (Token Atom)) :=
  if sign = .sign ">" then some (.atom (.type (.list element)) :: rest)
  else if sign = .sign ">>" then some (.atom (.type (.list element)) :: .sign ">" :: rest)
  else none

def joinVector : List (Token Atom) → List (Token Atom)
  | colons :: vector :: less :: element :: sign :: rest =>
    if colons = .sign "::" ∧ vector = .atom (.name "vector") ∧ less = .sign "<" then
      ((typeOf? element).bind fun t => endVector t sign rest).getD
        (.atom (.name "std") :: colons :: vector :: less :: element :: sign :: rest)
    else .atom (.name "std") :: colons :: vector :: less :: element :: sign :: rest
  | rest => .atom (.name "std") :: rest

def join (token : Token Atom) (rest : List (Token Atom)) : List (Token Atom) :=
  if token = .opens .round then joinCast rest
  else if token = .atom (.name "std") then joinVector rest
  else token :: rest

def tokens? (cs : List Char) : Option (List (Token Atom)) :=
  (scan cs).map fun tokens => tokens.foldr join []

/-! ## Trees -/

/-- The operators before one operand. -/
inductive Prefix where
  | not
  | neg
  | cast (t : Ty)
deriving DecidableEq

/-- The operators: a larger level binds more tightly. Operators of one level are taken from the left. A power is a
call, and has no sign. -/
def operators : Table BinaryOp Prefix where
  binary? s :=
    ([("+", .add), ("-", .minus), ("*", .multiply), ("/", .divide), ("==", .eq), ("!=", .neq), ("<", .lt),
      ("<=", .lte), (">", .gt), (">=", .gte), ("&&", .and), ("||", .or)] : List (String × BinaryOp)).lookup s
  unary? s :=
    ([("-", .neg), ("!", .not), ("(double)", .cast .number), ("(bool)", .cast .boolean)] :
      List (String × Prefix)).lookup s
  binding
    | .or => { level := 1, left := 1, right := 2 }
    | .and => { level := 2, left := 2, right := 3 }
    | .eq | .neq => { level := 3, left := 3, right := 4 }
    | .lt | .lte | .gt | .gte => { level := 4, left := 4, right := 5 }
    | .add | .minus => { level := 5, left := 5, right := 6 }
    | .multiply | .divide | .power => { level := 6, left := 6, right := 7 }
  level _ := 7

abbrev ExprTree := Tree Atom BinaryOp Prefix

def parse? (text : String) : Option ExprTree :=
  (tokens? text.toList).bind operators.parse?

theorem lawful_operators : operators.Lawful where
  left op := by cases op <;> decide
  binary op op' := by cases op <;> cases op' <;> decide
  unary op op' := by
    have hlevel : operators.level op = 7 := rfl
    rw [hlevel]
    cases op' <;> decide

example : parse? "x - -y * (double) xs.size() < std::vector<std::vector<bool>>\x7b\x7d.size()" =
    some (.binary .lt
      (.binary .minus (.leaf (.name "x"))
        (.binary .multiply (.unary .neg (.leaf (.name "y")))
          (.unary (.cast .number) (.call (.member (.leaf (.name "xs")) (.name "size")) []))))
      (.call (.member (.build (.leaf (.type (.list (.list .boolean)))) []) (.name "size")) [])) := by
  cbv

/-! ## Cutting off one token -/

theorem scan_nil : scan [] = some [] := by
  rw [scan]

theorem scan_space (cs : List Char) : scan (' ' :: cs) = scan cs := by
  rw [scan]
  rfl

variable {c d : Char} {cs rest : List Char} {t x : Token Atom} {s id name : String}

theorem scan_lex (hlex : lex c cs = some (t, rest)) (hc : c ≠ ' ' ∧ c ≠ '\t') (hlength : rest.length ≤ cs.length) :
    scan (c :: cs) = (scan rest).map (t :: ·) := by
  have hblank : (c = ' ' || c = '\t') = false := by simp [hc]
  have hlt : rest.length < cs.length + 1 := by omega
  rw [scan, hblank, hlex, if_neg Bool.false_ne_true, Option.bind_some]
  exact if_pos hlt

/-! ### Words -/

theorem scan_word (hs : isWord s = true) (hrest : ∀ c, rest.head? = some c → isWordChar c = false) :
    scan (s.toList ++ rest) = (scan rest).map (wordToken s :: ·) := by
  obtain ⟨c, cs, hcs, hc, hblank, htake, hdrop⟩ := Python.exists_of_isWord hs hrest
  have hlex : lex c (cs ++ rest) = some (wordToken s, rest) := by
    rw [lex, if_pos hc, htake, hdrop, ← hcs, String.ofList_toList]
  rw [hcs, cons_append]
  apply scan_lex hlex hblank
  simp

def isName (s : String) : Bool :=
  isWord s && s ∉ keywords && s ≠ "std"

theorem wordToken_of_isName (h : isName s = true) : isWord s = true ∧ wordToken s = .atom (.name s) ∧ s ≠ "std" := by
  simp only [isName, Bool.and_eq_true, decide_eq_true_eq] at h
  obtain ⟨⟨hword, hkeyword⟩, hstd⟩ := h
  have htrue : s ≠ "true" := by
    rintro rfl
    exact hkeyword (by decide)
  have hfalse : s ≠ "false" := by
    rintro rfl
    exact hkeyword (by decide)
  exact ⟨hword, by simp [wordToken, htrue, hfalse, hkeyword], hstd⟩

/-! ### Numbers -/

def isRun (marked : Bool) : List Char → Bool
  | [] => !marked
  | c :: cs => (isWordChar c || c = '.' || (marked && (c = '+' || c = '-'))) && isRun (c ∈ ['e', 'E', 'p', 'P']) cs

theorem takeNumber_append {marked : Bool} (hcs : isRun marked cs = true)
    (hrest : Python.Ends rest) : takeNumber marked (cs ++ rest) = (cs, rest) := by
  induction cs generalizing marked with
  | nil =>
    have hmarked : marked = false := by simpa [isRun] using hcs
    cases rest with
    | nil => rfl
    | cons c rest =>
      obtain ⟨hword, hdot⟩ := hrest c rfl
      simp [takeNumber, hmarked, hword, hdot]
  | cons c cs ih =>
    rw [isRun, Bool.and_eq_true] at hcs
    rw [cons_append, takeNumber, if_pos hcs.1, ih hcs.2]

theorem isRun_digit (hd : isDigit d = true) (marked : Bool) (cs : List Char) :
    isRun marked (d :: cs) = isRun false cs := by
  have hmark : (d ∈ ['e', 'E', 'p', 'P']) = False := by
    rw [eq_iff_iff, iff_false]
    intro hmem
    simp only [mem_cons, not_mem_nil, or_false] at hmem
    rcases hmem with rfl | rfl | rfl | rfl <;> cases hd
  simp [isRun, isWordChar, hd, hmark]

theorem isRun_digits {ds : List Char} (hds : ∀ d ∈ ds, isDigit d = true) (cs : List Char) :
    isRun false (ds ++ cs) = isRun false cs := by
  induction ds with
  | nil => rfl
  | cons d ds ih =>
    obtain ⟨hd, hds⟩ := List.forall_mem_cons.mp hds
    rw [cons_append, isRun_digit hd, ih hds]

theorem isRun_of_digits {ds : List Char} (hne : ds ≠ []) (hds : ∀ d ∈ ds, isDigit d = true) (marked : Bool) :
    isRun marked ds = true := by
  obtain ⟨d, ds, rfl⟩ := List.exists_cons_of_ne_nil hne
  obtain ⟨hd, hds⟩ := List.forall_mem_cons.mp hds
  rw [isRun_digit hd, ← List.append_nil ds, isRun_digits hds]
  rfl

theorem isRun_of_isPower (h : Decimal.IsPower cs) : isRun false cs = true := by
  cases h with
  | none => rfl
  | @some e sign ds he hsign hne hds =>
    have hmarked : isRun true (sign ++ ds) = true := by
      rcases hsign with rfl | rfl | rfl
      · exact isRun_of_digits hne hds true
      · exact isRun_of_digits hne hds false
      · exact isRun_of_digits hne hds false
    have hletter : e ∈ ['e', 'E', 'p', 'P'] ∧ isWordChar e = true := by
      rcases he with rfl | rfl <;> decide
    simp [isRun, hletter, hmarked]

theorem isRun_of_isNumeral (h : IsNumeral cs) : isRun false cs = true := by
  obtain ⟨whole, fraction, power, rfl, hwhole, hpower, hfraction⟩ := h.exists_parts
  rw [isRun_digits hwhole]
  obtain ⟨-, rfl⟩ | ⟨ds, rfl, hds, -⟩ := hfraction
  · exact isRun_of_isPower hpower
  · have hrun := isRun_digits hds power
    rw [isRun_of_isPower hpower] at hrun
    simpa [isRun] using hrun

theorem scan_number (h : IsNumeral cs) (hrest : Python.Ends rest) :
    scan (cs ++ rest) = (scan rest).map (.atom (.number (String.ofList cs)) :: ·) := by
  have hafter : Python.afterNumber cs = [] := by
    have hwhole := Python.afterNumber_append h Python.ends_nil
    rwa [List.append_nil] at hwhole
  have hnumber : lexNumber (cs ++ rest) = some (.atom (.number (String.ofList cs)), rest) := by
    simp [lexNumber, takeNumber_append (isRun_of_isNumeral h) hrest, hafter, h.spare]
  obtain ⟨c, ds, rfl, hword, hblank, hfirst⟩ := Python.exists_of_isNumeral h rest
  have hlex : lex c (ds ++ rest) = some (.atom (.number (String.ofList (c :: ds))), rest) := by
    rw [lex, hword, if_neg Bool.false_ne_true, if_pos hfirst]
    exact hnumber
  rw [cons_append]
  apply scan_lex hlex hblank
  simp

/-! ### Strings -/

theorem takeString_cons (hline : c ≠ '\n' ∧ c ≠ '\r') {escaped : Bool} (hquote : c ≠ '\x22' ∨ escaped = true)
    (cs : List Char) : takeString escaped (c :: cs) =
      (takeString (c = '\\' && !escaped) cs).map fun result => (c :: result.1, result.2) := by
  rw [takeString]
  rcases hquote with hquote | rfl
  · simp [hline, hquote]
  · simp [hline]

theorem takeString_escape (hline : c ≠ '\n' ∧ c ≠ '\r') (cs : List Char) : takeString false ('\\' :: c :: cs) =
      (takeString false cs).map fun result => ('\\' :: c :: result.1, result.2) := by
  rw [takeString_cons (by decide) (.inl (by decide)), Bool.not_false, Bool.and_true, decide_eq_true rfl,
    takeString_cons hline (.inr rfl), Bool.not_true, Bool.and_false]
  simp [Function.comp_def]

theorem takeString_plain (h : ∀ c ∈ cs, ∀ d ∈ ['\n', '\r', '\x22', '\\'], c ≠ d) (rest : List Char) :
    takeString false (cs ++ rest) = (takeString false rest).map fun result => (cs ++ result.1, result.2) := by
  induction cs with
  | nil => simp
  | cons c cs ih =>
    obtain ⟨hc, hcs⟩ := List.forall_mem_cons.mp h
    rw [cons_append, takeString_cons ⟨hc _ (by simp), hc _ (by simp)⟩ (.inl (hc _ (by simp))),
      decide_eq_false (hc _ (by simp)), Bool.false_and, ih hcs]
    simp [Function.comp_def]

theorem takeString_quoteChar (c : Char) (cs : List Char) :
    takeString false (Source.quoteChar c ++ cs) =
      (takeString false cs).map fun result => (Source.quoteChar c ++ result.1, result.2) := by
  rcases Python.quoteChar_eq c with ⟨heq, hplain⟩ | ⟨d, ds, heq, hd, hds⟩
  · rw [heq]
    exact takeString_plain (List.forall_mem_singleton.mpr hplain) cs
  · rw [heq, cons_append, cons_append, takeString_escape hd, takeString_plain hds]
    simp [Function.comp_def]

theorem takeString_quoted (cs rest : List Char) :
    takeString false (cs.flatMap Source.quoteChar ++ '\x22' :: rest) =
      some (cs.flatMap Source.quoteChar ++ ['\x22'], rest) := by
  induction cs with
  | nil => simp [takeString]
  | cons c cs ih =>
    rw [List.flatMap_cons, List.append_assoc, takeString_quoteChar, ih]
    simp

theorem scan_quote (s : String) (rest : List Char) :
    scan ((Source.quote s).toList ++ rest) = (scan rest).map (.atom (.text (Source.quote s)) :: ·) := by
  have hchars : (Source.quote s).toList ++ rest
      = '\x22' :: (s.toList.flatMap Source.quoteChar ++ '\x22' :: rest) := by
    simp [Source.quote]
  have hlex : lex '\x22' (s.toList.flatMap Source.quoteChar ++ '\x22' :: rest) =
      some (.atom (.text (Source.quote s)), rest) := by
    have hstart : isWordStart '\x22' = false := by decide
    have hdigit : (isDigit '\x22' || ('\x22' = '.' &&
        startsWithDigit (s.toList.flatMap Source.quoteChar ++ '\x22' :: rest))) = false := by
      simp [isDigit]
    rw [lex, hstart, hdigit, takeString_quoted]
    simp [Source.quote]
  rw [hchars]
  apply scan_lex hlex
  · decide
  · simp only [List.length_append, List.length_cons]
    omega

/-! ### Signs -/

theorem scan_sign (hc : isWordStart c = false)
    (hdigit : (isDigit c || c = '.') = false) (hquote : (c = ' ' || c = '\t' || c = '\x22') = false)
    (hsign : lexSign (c :: cs) = some (t, rest)) (hlength : rest.length ≤ cs.length) :
    scan (c :: cs) = (scan rest).map (t :: ·) := by
  simp only [Bool.or_eq_false_iff, decide_eq_false_iff_not] at hdigit hquote
  obtain ⟨⟨hspace, htab⟩, hquote⟩ := hquote
  have hlex : lex c cs = some (t, rest) := by
    simp [lex, hc, hdigit.1, hdigit.2, hquote, hsign]
  exact scan_lex hlex ⟨hspace, htab⟩ hlength

theorem scan_mark
    (h : (c, t) ∈ [('(', .opens .round), (')', .closes .round), ('\x7b', .opens .curly), ('\x7d', .closes .curly),
      (',', (.comma : Token Atom))]) (cs : List Char) : scan (c :: cs) = (scan cs).map (t :: ·) := by
  simp only [mem_cons, Prod.mk.injEq, not_mem_nil, or_false] at h
  rcases h with ⟨rfl, rfl⟩ | ⟨rfl, rfl⟩ | ⟨rfl, rfl⟩ | ⟨rfl, rfl⟩ | ⟨rfl, rfl⟩ <;>
    exact scan_sign (by decide) (by decide) (by decide) rfl (Nat.le_refl _)

theorem scan_operator {op : BinaryOp} (hop : op ≠ .power) (cs : List Char) :
    scan ((sign op).toList ++ ' ' :: cs) = (scan (' ' :: cs)).map (.sign (sign op) :: ·) := by
  cases op with
  | power => exact absurd rfl hop
  | add | minus | multiply | divide | lt | gt =>
    exact scan_sign (by decide) (by decide) (by decide) rfl (Nat.le_refl _)
  | eq | neq | lte | gte | and | or =>
    exact scan_sign (by decide) (by decide) (by decide) rfl (Nat.le_succ _)

def seconds (c : Char) (signs : List (List Char × Token Atom)) : List Char :=
  signs.filterMap fun sign => if sign.1.head? = some c then sign.1.tail.head? else none

theorem findSome?_signs {among : List (List Char × Token Atom)} (hne : ∀ sign ∈ among, sign.1 ≠ [])
    (hd : d ∉ seconds c among) (cs : List Char) : (among.findSome? fun sign =>
      if sign.1.isPrefixOf (c :: d :: cs) then some (sign.2, (c :: d :: cs).drop sign.1.length) else none) =
    (among.findSome? fun sign => if sign.1 = [c] then some sign.2 else none).map fun t => (t, d :: cs) := by
  induction among with
  | nil => rfl
  | cons sign rest ih =>
    obtain ⟨hsign, hrest⟩ := List.forall_mem_cons.mp hne
    obtain ⟨chars, token⟩ := sign
    have hd' : d ∉ seconds c rest := by
      intro hmem
      obtain ⟨other, hother, hsecond⟩ := List.mem_filterMap.mp hmem
      exact hd (List.mem_filterMap.mpr ⟨other, List.mem_cons_of_mem _ hother, hsecond⟩)
    have hrest' := ih hrest hd'
    cases chars with
    | nil => exact absurd rfl hsign
    | cons x chars =>
      cases chars with
      | nil =>
        by_cases hx : x = c
        · simp [hx]
        · simpa [hx] using hrest'
      | cons y chars =>
        have hfirst : ¬(x = c ∧ y = d) := by
          rintro ⟨rfl, rfl⟩
          exact hd (List.mem_filterMap.mpr ⟨(x :: y :: chars, token), List.mem_cons_self, by simp⟩)
        have hlonger : (x :: y :: chars).isPrefixOf (c :: d :: cs) = false := by
          rw [List.isPrefixOf, List.isPrefixOf]
          by_cases hx : x = c
          · have hy : y ≠ d := fun hy => hfirst ⟨hx, hy⟩
            simp [hy]
          · simp [hx]
        rw [List.findSome?_cons, List.findSome?_cons]
        simp only [hlonger]
        simpa using hrest'

theorem lexSign_single (hd : d ∉ seconds c signs)
    (ht : (signs.findSome? fun sign => if sign.1 = [c] then some sign.2 else none) = some t) (cs : List Char) :
    lexSign (c :: d :: cs) = some (t, d :: cs) := by
  rw [lexSign, findSome?_signs (by decide) hd, ht, Option.map_some]

theorem scan_minus (hd : d ∉ ['>', '-', '=']) (cs : List Char) :
    scan ('-' :: d :: cs) = (scan (d :: cs)).map (.sign "-" :: ·) := by
  have hsecond : d ∉ seconds '-' signs := by
    have hseconds : seconds '-' signs = ['>', '-', '>', '='] := by decide
    rw [hseconds]
    simp_all
  exact scan_sign (by decide) (by decide) (by decide) (lexSign_single hsecond (by decide) cs) (Nat.le_refl _)

theorem scan_not (hd : d ≠ '=') (cs : List Char) : scan ('!' :: d :: cs) = (scan (d :: cs)).map (.sign "!" :: ·) := by
  have hsecond : d ∉ seconds '!' signs := by
    have hseconds : seconds '!' signs = ['='] := by decide
    simpa [hseconds] using hd
  exact scan_sign (by decide) (by decide) (by decide) (lexSign_single hsecond (by decide) cs) (Nat.le_refl _)

theorem scan_dot (hd : isWordStart d = true) (cs : List Char) :
    scan ('.' :: d :: cs) = (scan (d :: cs)).map (.dot :: ·) := by
  have hsecond : d ∉ seconds '.' signs := by
    have hseconds : seconds '.' signs = ['.', '*'] := by decide
    rw [hseconds]
    intro hmem
    simp only [mem_cons, not_mem_nil, or_false] at hmem
    rcases hmem with rfl | rfl <;> cases hd
  have hdigit : isDigit d = false := by
    rw [← Bool.not_eq_true]
    intro hdigit
    rw [(Python.isWordStart_of_isDigit hdigit).1] at hd
    cases hd
  have hlex : lex '.' (d :: cs) = some (.dot, d :: cs) := by
    have hstart : isWordStart '.' = false := by decide
    have hnumber : (isDigit '.' || ('.' = '.' && startsWithDigit (d :: cs))) = false := by
      simp only [startsWithDigit, List.head?_cons, Option.any_some, hdigit]
      decide
    rw [lex, hstart, hnumber]
    exact lexSign_single hsecond (by decide) cs
  exact scan_lex hlex (by decide) (Nat.le_refl _)

/-! ## Joining tokens -/

theorem tokens?_of_scan (h : scan cs = (scan rest).map (t :: ·)) : tokens? cs = (tokens? rest).map (join t) := by
  rw [tokens?, tokens?, h, Option.map_map, Option.map_map]
  rfl

theorem join_of_ne (hround : t ≠ .opens .round) (hstd : t ≠ .atom (.name "std")) : join t = (t :: ·) := by
  funext rest
  simp [join, hround, hstd]

theorem tokens?_cons (h : scan cs = (scan rest).map (t :: ·))
    (hround : t ≠ .opens .round := by simp) (hstd : t ≠ .atom (.name "std") := by simp) :
    tokens? cs = (tokens? rest).map (t :: ·) := by
  rw [tokens?_of_scan h, join_of_ne hround hstd]

theorem tokens?_space (cs : List Char) : tokens? (' ' :: cs) = tokens? cs := by
  rw [tokens?, tokens?, scan_space]

theorem tokens?_open (cs : List Char) : tokens? ('(' :: cs) = (tokens? cs).map joinCast := by
  have hjoin : join (.opens .round) = joinCast := by
    funext rest
    exact if_pos rfl
  rw [tokens?_of_scan (scan_mark (t := .opens .round) (by simp) cs), hjoin]

theorem joinCast_cons {token : Token Atom} {rest : List (Token Atom)}
    (h : ∀ s, token = .sign s → typeWords.lookup s = none) :
    joinCast (token :: rest) = .opens .round :: token :: rest := by
  unfold joinCast
  split
  · next s _ heq =>
    cases heq
    simp [h s rfl]
  · rfl

def language : Language Atom BinaryOp Prefix where
  isWordChar := isWordChar
  scan := tokens?
  opened := joinCast
  table := operators

theorem typeWords_of_unary? (h : (operators.unary? s).isSome = true) : typeWords.lookup s = none := by
  have hsigns : s ∈ ["-", "!", "(double)", "(bool)"] := by
    by_contra hne
    simp only [mem_cons, not_mem_nil, or_false, not_or, ← beq_eq_false_iff_ne] at hne
    simp [operators, List.lookup_cons, hne] at h
  simp only [mem_cons, not_mem_nil, or_false] at hsigns
  rcases hsigns with rfl | rfl | rfl | rfl <;> decide

theorem lawful_language : language.Lawful where
  table := lawful_operators
  divides := Python.not_isWordChar
  scan_nil := by
    show tokens? [] = some []
    rw [tokens?, scan_nil]
    rfl
  scan_space := tokens?_space
  scan_comma cs := tokens?_cons (scan_mark (by simp) cs)
  scan_open := tokens?_open
  scan_close cs := tokens?_cons (scan_mark (by simp) cs)
  opened_cons _ _ h := joinCast_cons fun s hs => typeWords_of_unary? (h s hs)

/-! ### Names of list types -/

theorem join_type {t : Ty} (hx : typeOf? x = some t) : join x = (x :: ·) := by
  apply join_of_ne
  · rintro rfl
    cases hx
  · rintro rfl
    cases hx

theorem joinVector_greater {t : Ty} (hx : typeOf? x = some t) (rest : List (Token Atom)) :
    joinVector (.sign "::" :: .atom (.name "vector") :: .sign "<" :: x :: .sign ">" :: rest) =
      .atom (.type (.list t)) :: rest := by
  simp [joinVector, hx, endVector]

theorem joinVector_twoGreater {t : Ty} (hx : typeOf? x = some t) (rest : List (Token Atom)) :
    joinVector (.sign "::" :: .atom (.name "vector") :: .sign "<" :: x :: .sign ">>" :: rest) =
      .atom (.type (.list t)) :: .sign ">" :: rest := by
  simp [joinVector, hx, endVector]

theorem divided (h : isWordChar c = false) (rest : List Char) :
    ∀ d, (c :: rest).head? = some d → isWordChar d = false :=
  Language.divides_cons (L := language) h rest

theorem tokens?_vector (hd : isWordStart d = true) (cs : List Char) :
    tokens? ("std::vector<".toList ++ d :: cs) = (tokens? (d :: cs)).map fun rest =>
      joinVector (.sign "::" :: .atom (.name "vector") :: .sign "<" :: rest) := by
  have hchars : "std::vector<".toList ++ d :: cs =
      "std".toList ++ ':' :: ':' :: ("vector".toList ++ '<' :: d :: cs) := by
    simp
  have hstd : tokens? ("std".toList ++ ':' :: ':' :: ("vector".toList ++ '<' :: d :: cs)) =
      (tokens? (':' :: ':' :: ("vector".toList ++ '<' :: d :: cs))).map (join (.atom (.name "std"))) :=
    tokens?_of_scan (scan_word (by decide) (divided (by decide) _))
  have hcolons : tokens? (':' :: ':' :: ("vector".toList ++ '<' :: d :: cs)) =
      (tokens? ("vector".toList ++ '<' :: d :: cs)).map (.sign "::" :: ·) :=
    tokens?_cons (scan_sign (by decide) (by decide) (by decide) rfl (Nat.le_succ _))
  have hvector : tokens? ("vector".toList ++ '<' :: d :: cs) =
      (tokens? ('<' :: d :: cs)).map (.atom (.name "vector") :: ·) :=
    tokens?_cons (scan_word (by decide) (divided (by decide) _))
  have hless : tokens? ('<' :: d :: cs) = (tokens? (d :: cs)).map (.sign "<" :: ·) := by
    have hseconds : seconds '<' signs = ['<', '=', '<', ':', '%'] := by decide
    have hsecond : d ∉ seconds '<' signs := by
      rw [hseconds]
      intro hmem
      simp only [mem_cons, not_mem_nil, or_false] at hmem
      rcases hmem with rfl | rfl | rfl | rfl | rfl <;> cases hd
    exact tokens?_cons
      (scan_sign (by decide) (by decide) (by decide) (lexSign_single hsecond (by decide) cs) (Nat.le_refl _))
  rw [hchars, hstd, hcolons, hvector, hless]
  simp [Function.comp_def, join]

theorem typeName_cases {t : Ty} (h : typeName id t = .ok name) :
    (isWord name = true ∧ typeOf? (wordToken name) = some t) ∨
    ∃ element word, t = .list element ∧ name = "std::vector<" ++ word ++ ">" ∧
      isWord word = true ∧ typeOf? (wordToken word) = some element := by
  have hword : ∀ {word : String} {element : Ty},
      (word, element) ∈ [("double", Ty.number), ("bool", .boolean), ("String", .text)] →
      isWord word = true ∧ typeOf? (wordToken word) = some element := by
    intro word element hmem
    simp only [mem_cons, Prod.mk.injEq, not_mem_nil, or_false] at hmem
    rcases hmem with ⟨rfl, rfl⟩ | ⟨rfl, rfl⟩ | ⟨rfl, rfl⟩ <;> decide
  cases t with
  | number =>
    cases h
    exact .inl (hword (by simp))
  | boolean =>
    cases h
    exact .inl (hword (by simp))
  | text =>
    cases h
    exact .inl (hword (by simp))
  | captured => cases h
  | list element =>
    refine .inr ⟨element, ?_⟩
    cases element with
    | number =>
      cases h
      exact ⟨"double", rfl, rfl, hword (by simp)⟩
    | boolean =>
      cases h
      exact ⟨"bool", rfl, rfl, hword (by simp)⟩
    | text =>
      cases h
      exact ⟨"String", rfl, rfl, hword (by simp)⟩
    | captured => cases h
    | list inner => cases h

theorem tokens?_vectorOf {word : String} {t : Ty} (hword : isWord word = true)
    (ht : typeOf? (wordToken word) = some t) (hc : isWordChar c = false) (cs : List Char) :
    tokens? ("std::vector<".toList ++ (word.toList ++ c :: cs)) = (tokens? (c :: cs)).map fun rest =>
      joinVector (.sign "::" :: .atom (.name "vector") :: .sign "<" :: wordToken word :: rest) := by
  have htype : tokens? (word.toList ++ c :: cs) = (tokens? (c :: cs)).map (wordToken word :: ·) := by
    rw [tokens?_of_scan (scan_word hword (divided hc _)), join_type ht]
  obtain ⟨d, ds, hds, hd, -⟩ := Python.exists_of_isWord hword (divided hc cs)
  rw [hds, cons_append] at htype ⊢
  rw [tokens?_vector hd, htype, Option.map_map]
  rfl

theorem tokens?_listType {element : Ty} (h : typeName id element = .ok name) (cs : List Char) :
    tokens? (("std::vector<" ++ name ++ ">").toList ++ '\x7b' :: cs) =
      (tokens? ('\x7b' :: cs)).map (.atom (.type (.list element)) :: ·) := by
  rcases typeName_cases h with ⟨hword, htype⟩ | ⟨inner, word, rfl, rfl, hword, htype⟩
  · have hchars : ("std::vector<" ++ name ++ ">").toList ++ '\x7b' :: cs =
        "std::vector<".toList ++ (name.toList ++ '>' :: '\x7b' :: cs) := by
      simp
    have hgreater : tokens? ('>' :: '\x7b' :: cs) = (tokens? ('\x7b' :: cs)).map (.sign ">" :: ·) :=
      tokens?_cons (scan_sign (by decide) (by decide) (by decide) rfl (Nat.le_refl _))
    rw [hchars, tokens?_vectorOf hword htype (by decide), hgreater]
    simp [Function.comp_def, joinVector_greater htype]
  · -- The two signs at the end are one token, which is divided between the two names.
    have hchars : ("std::vector<" ++ ("std::vector<" ++ word ++ ">") ++ ">").toList ++ '\x7b' :: cs =
        "std::vector<".toList ++ ("std::vector<".toList ++ (word.toList ++ '>' :: '>' :: '\x7b' :: cs)) := by
      simp
    have hgreater : tokens? ('>' :: '>' :: '\x7b' :: cs) = (tokens? ('\x7b' :: cs)).map (.sign ">>" :: ·) :=
      tokens?_cons (scan_sign (by decide) (by decide) (by decide) rfl (Nat.le_succ _))
    have hinner := tokens?_vectorOf hword htype (c := '>') (by decide) ('>' :: '\x7b' :: cs)
    have houter : ∀ more, tokens? ("std::vector<".toList ++ ("std::vector<".toList ++ more)) =
        (tokens? ("std::vector<".toList ++ more)).map fun rest =>
          joinVector (.sign "::" :: .atom (.name "vector") :: .sign "<" :: rest) := by
      intro more
      have hfirst : "std::vector<".toList ++ more = 's' :: ("td::vector<".toList ++ more) := by
        simp
      rw [hfirst]
      exact tokens?_vector (by decide) _
    have hlist : typeOf? (.atom (.type (.list inner))) = some (.list inner) := rfl
    rw [hchars, houter, hinner, hgreater]
    simp [Function.comp_def, joinVector_twoGreater htype, joinVector_greater hlist]

/-! ### Texts of trees -/

theorem names_name (hs : isName s = true) : language.Names s (.leaf (.name s)) := by
  obtain ⟨hword, htoken, hstd⟩ := wordToken_of_isName hs
  refine ⟨[.atom (.name s)], Table.completes_atom _, ?_⟩
  intro rest hrest
  exact tokens?_cons (htoken ▸ scan_word hword hrest) (by simp) (by simpa using hstd)

theorem names_truth (b : Bool) : language.Names (Json.boolText b) (.leaf (.truth b)) := by
  have hword : isWord (Json.boolText b) = true := by
    cases b <;> decide
  have htoken : wordToken (Json.boolText b) = .atom (.truth b) := by
    cases b <;> decide
  refine ⟨[.atom (.truth b)], Table.completes_atom _, ?_⟩
  intro rest hrest
  exact tokens?_cons (htoken ▸ scan_word hword hrest)

theorem names_quote (s : String) : language.Names (Source.quote s) (.leaf (.text (Source.quote s))) := by
  refine ⟨[.atom (.text (Source.quote s))], Table.completes_atom _, ?_⟩
  intro rest _
  exact tokens?_cons (scan_quote s rest)

theorem spells_numeral {n : Nat} (hs : IsNumeral s.toList) : language.Spells n s (.leaf (.number s)) := by
  refine ⟨[.atom (.number s)], (Table.completes_atom _).reads, ?_⟩
  intro rest hrest
  have hscan := scan_number hs hrest
  rw [String.ofList_toList] at hscan
  exact tokens?_cons hscan

def Begins (text : String) : Prop :=
  (text.toList.head?.any fun c => isWordStart c || isDigit c || c = '.' || c = '(') = true

instance (text : String) : Decidable (Begins text) :=
  inferInstanceAs (Decidable (_ = true))

variable {n : Nat} {text : String} {t : ExprTree}

theorem Begins.exists_cons (h : Begins text) :
    ∃ c cs, text.toList = c :: cs ∧ (isWordStart c || isDigit c || c = '.' || c = '(') = true := by
  unfold Begins at h
  cases hcs : text.toList with
  | nil =>
    rw [hcs] at h
    cases h
  | cons c cs =>
    rw [hcs] at h
    exact ⟨c, cs, rfl, h⟩

theorem Begins.append (h : Begins text) (after : String) : Begins (text ++ after) := by
  obtain ⟨c, cs, hcs, hc⟩ := h.exists_cons
  simpa [Begins, hcs] using hc

theorem spells_minus (hbegins : Begins text) (h : language.Spells 7 text t) :
    language.Spells 7 ("-" ++ text) (.unary .neg t) := by
  obtain ⟨c, cs, hcs, hc⟩ := hbegins.exists_cons
  refine Language.spells_unary (L := language) "-" rfl ?_ h
  intro rest
  have hnot : c ∉ ['>', '-', '='] := by
    intro hmem
    simp only [mem_cons, not_mem_nil, or_false] at hmem
    rcases hmem with rfl | rfl | rfl <;> cases hc
  rw [hcs]
  exact tokens?_cons (scan_minus hnot _)

theorem spells_not (hbegins : Begins text) (h : language.Spells 7 text t) :
    language.Spells 7 ("!" ++ text) (.unary .not t) := by
  obtain ⟨c, cs, hcs, hc⟩ := hbegins.exists_cons
  refine Language.spells_unary (L := language) "!" rfl ?_ h
  intro rest
  have hnot : c ≠ '=' := by
    rintro rfl
    cases hc
  rw [hcs]
  exact tokens?_cons (scan_not hnot _)

theorem spells_cast (h : language.Spells 7 text t) :
    language.Spells 7 ("(double) " ++ text) (.unary (.cast .number) t) := by
  refine Language.spells_unary (L := language) "(double)" rfl ?_ h
  intro rest
  have hchars : "(double) ".toList ++ (text.toList ++ rest) =
      '(' :: ("double".toList ++ ')' :: ' ' :: (text.toList ++ rest)) := by
    simp
  have hword : tokens? ("double".toList ++ ')' :: ' ' :: (text.toList ++ rest)) =
      (tokens? (')' :: ' ' :: (text.toList ++ rest))).map (.sign "double" :: ·) :=
    tokens?_cons (scan_word (by decide) (divided (by decide) _))
  have hclose : tokens? (')' :: ' ' :: (text.toList ++ rest)) =
      (tokens? (' ' :: (text.toList ++ rest))).map (.closes .round :: ·) :=
    tokens?_cons (scan_mark (by simp) _)
  show tokens? _ = (tokens? _).map _
  rw [hchars, tokens?_open, hword, hclose, tokens?_space]
  simp [Function.comp_def, joinCast, typeWords]

theorem spells_binary {text' : String} {t' : ExprTree} {op : BinaryOp} (hop : op ≠ .power)
    (h : language.Spells (operators.binding op).left text t)
    (h' : language.Spells (operators.binding op).right text' t') :
    language.Spells 0 (text ++ " " ++ sign op ++ " " ++ text') (.binary op t t') := by
  have hsign : operators.binary? (sign op) = some op := by
    cases op <;> first | decide | exact absurd rfl hop
  exact Language.spells_binary lawful_language hsign (fun cs => tokens?_cons (scan_operator hop cs))
    ⟨Nat.zero_le _, Nat.zero_le _⟩ h h'

theorem names_size (h : language.Names text t) :
    language.Names (text ++ ".size()") (.call (.member t (.name "size")) []) := by
  have hmember : language.Names (text ++ ".size") (.member t (.name "size")) := by
    obtain ⟨tokens, hcompletes, hscan⟩ := h
    refine ⟨tokens ++ [.dot, .atom (.name "size")], Table.completes_member hcompletes _, ?_⟩
    intro rest hrest
    have hchars : (text ++ ".size").toList ++ rest = text.toList ++ '.' :: ("size".toList ++ rest) := by
      simp
    have hdot : tokens? ('.' :: ("size".toList ++ rest)) = (tokens? ("size".toList ++ rest)).map (.dot :: ·) :=
      tokens?_cons (scan_dot (by decide) _)
    have hsize : tokens? ("size".toList ++ rest) = (tokens? rest).map (.atom (.name "size") :: ·) :=
      tokens?_cons (scan_word (by decide) hrest)
    have hbefore : tokens? (text.toList ++ '.' :: ("size".toList ++ rest)) =
        (tokens? ('.' :: ("size".toList ++ rest))).map (tokens ++ ·) :=
      hscan _ (Language.divides_cons (show isWordChar '.' = false by decide) _)
    show tokens? _ = (tokens? rest).map _
    rw [hchars, hbefore, hdot, hsize]
    simp [Function.comp_def]
  have hcall := Language.names_call lawful_language hmember .nil
  have htext : text ++ ".size" ++ "(" ++ ", ".intercalate [] ++ ")" = text ++ ".size()" := by
    apply String.toList_inj.mp
    simp
  rwa [htext] at hcall

theorem names_listLiteral {element : Ty} (hname : typeName id element = .ok name)
    {texts : List String} {items : List ExprTree} (h : List.Forall₂ (language.Spells 0) texts items) :
    language.Names ("std::vector<" ++ name ++ ">\x7b" ++ ", ".intercalate texts ++ "\x7d")
      (.build (.leaf (.type (.list element))) items) := by
  obtain ⟨tokens, hreads, hcuts⟩ := Language.exists_tokens_items lawful_language h
  refine ⟨[.atom (.type (.list element))] ++ .opens .curly :: Table.separated tokens ++ [.closes .curly],
    Table.completes_build (Table.completes_atom _) hreads, ?_⟩
  intro rest _
  have hchars : ("std::vector<" ++ name ++ ">\x7b" ++ ", ".intercalate texts ++ "\x7d").toList ++ rest =
      ("std::vector<" ++ name ++ ">").toList ++ '\x7b' :: ((", ".intercalate texts).toList ++ '\x7d' :: rest) := by
    simp
  have hopen : ∀ cs, tokens? ('\x7b' :: cs) = (tokens? cs).map (.opens .curly :: ·) :=
    fun cs => tokens?_cons (scan_mark (by simp) cs)
  have hclose : tokens? ('\x7d' :: rest) = (tokens? rest).map (.closes .curly :: ·) :=
    tokens?_cons (scan_mark (by simp) rest)
  have hitems : tokens? ((", ".intercalate texts).toList ++ '\x7d' :: rest) =
      (tokens? ('\x7d' :: rest)).map (Table.separated tokens ++ ·) :=
    hcuts _ (Language.ends_cons (show isWordChar '\x7d' = false by decide) (by decide) rest)
  show tokens? _ = (tokens? rest).map _
  rw [hchars, tokens?_listType hname, hopen, hitems, hclose]
  simp [Function.comp_def]

end Blockwork.Arduino
