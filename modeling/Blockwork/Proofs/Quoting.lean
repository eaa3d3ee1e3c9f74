import Blockwork.Proofs.SourceTexts

/-! # Quoted texts in sources

A quoted text is one string of Python, and stands for the text it was made from. It is one string of C++ as well, where
the number of a character takes all digits behind it and is that of one byte.

* `Source.quote_is_python_literal` says that Python reads the text.
* `Arduino.quote_is_cpp_literal_iff` says which texts C++ reads.
-/

namespace Blockwork

set_option autoImplicit false

/-- The characters that no backslash escapes. There are none to tell where a text ends behind a backslash. -/
def Source.unescaped? (escaped : Bool) : List Char → Option (List Char)
  | [] => if escaped then none else some []
  | c :: cs =>
    if escaped then unescaped? false cs
    else if c = '\\' then unescaped? true cs
    else (unescaped? false cs).map (c :: ·)

/-- The text that a string of Python stands for, where there is nothing else. -/
def Python.literal? : List Char → Option String
  | [] => none
  | c :: cs =>
    if c = '\x22' then
      match stringBody? .plain cs with
      | some (value, []) => some (String.ofList value)
      | _ => none
    else none

namespace Source

theorem unescaped?_plain {cs : List Char} (h : '\\' ∉ cs) (rest : List Char) :
    unescaped? false (cs ++ rest) = (unescaped? false rest).map (cs ++ ·) := by
  induction cs with
  | nil => simp
  | cons c cs ih =>
    obtain ⟨hc, hcs⟩ := not_or.mp (mt List.mem_cons.mpr h)
    simp [unescaped?, Ne.symm hc, ih hcs, Function.comp_def]

theorem unescaped?_quoteChar (c : Char) (rest : List Char) :
    ∃ plain, '\x22' ∉ plain ∧ unescaped? false (quoteChar c ++ rest) = (unescaped? false rest).map (plain ++ ·) := by
  rcases Python.quoteChar_eq c with ⟨heq, hvisible⟩ | ⟨d, ds, heq, -, hds⟩
  · rw [heq]
    refine ⟨[c], ?_, unescaped?_plain ?_ rest⟩
    · exact fun hmem => hvisible _ (by simp) (List.mem_singleton.mp hmem).symm
    · exact fun hmem => hvisible _ (by simp) (List.mem_singleton.mp hmem).symm
  · have hbody : unescaped? false ('\\' :: d :: (ds ++ rest)) = unescaped? false (ds ++ rest) := rfl
    rw [heq, List.cons_append, List.cons_append, hbody]
    exact ⟨ds, fun hmem => hds _ hmem _ (by simp) rfl, unescaped?_plain (fun hmem => hds _ hmem _ (by simp) rfl) rest⟩

theorem unescaped?_quoted (cs : List Char) :
    ∃ plain, unescaped? false (cs.flatMap quoteChar) = some plain ∧ '\x22' ∉ plain := by
  induction cs with
  | nil => exact ⟨[], rfl, List.not_mem_nil⟩
  | cons c cs ih =>
    obtain ⟨rest, hrest, hquote⟩ := ih
    obtain ⟨plain, hplain, heq⟩ := unescaped?_quoteChar c (cs.flatMap quoteChar)
    rw [List.flatMap_cons, heq, hrest]
    exact ⟨_, rfl, List.not_mem_append hplain hquote⟩

/-- A quoted text begins and ends with a quote that is not escaped. Between them is no other such quote and no end of a
line, and the escapes stand for the text. -/
theorem quote_is_python_literal (s : String) :
    (∃ body plain, (quote s).toList = '\x22' :: (body ++ ['\x22']) ∧
      unescaped? false body = some plain ∧ '\x22' ∉ plain ∧ ∀ c ∈ body, c ≠ '\n' ∧ c ≠ '\r') ∧
    Python.literal? (quote s).toList = some s := by
  obtain ⟨plain, hplain, hquote⟩ := unescaped?_quoted s.toList
  refine ⟨⟨_, plain, toList_quote s, hplain, hquote, ?_⟩, ?_⟩
  · intro c hc
    obtain ⟨d, -, hd⟩ := List.mem_flatMap.mp hc
    exact unbroken_of_mem_quoteChar hd
  · rw [toList_quote, Python.literal?, if_pos rfl, Python.stringBody?_quoted]
    exact congrArg some String.ofList_toList

example : quote "a\"\x01f" = "\"a\\\"\\x01f\"" := by decide +kernel

end Source

/-! ## Strings of C++ -/

namespace Arduino

open Python (hexValue?)

open Source (hexDigit isControl quote quoteChar toList_quote)

/-- Where in a string of C++ a character stands: by itself, after a backslash, or behind digits of a byte's number. -/
inductive Place where
  | plain
  | escape
  | octal (value left : Nat)
  | hex (value? : Option Nat)
deriving DecidableEq

def escapes : List (Char × UInt8) :=
  [('\x27', 39), ('\x22', 34), ('?', 63), ('\\', 92), ('a', 7), ('b', 8), ('f', 12), ('n', 10), ('r', 13), ('t', 9),
   ('v', 11)]

def octalValue? (c : Char) : Option Nat :=
  (hexValue? c).filter (· < 8)

/-- The place behind one more digit of a byte's number. Three digits follow a backslash at most, and any number of them
the letter `x`. -/
def Place.digit? (place : Place) (c : Char) : Option Place :=
  match place with
  | .plain => none
  | .escape => (octalValue? c).map (.octal · 2)
  | .octal value left => if left = 0 then none else (octalValue? c).map fun n => .octal (8 * value + n) (left - 1)
  | .hex value? => (hexValue? c).map fun n => .hex (some (16 * value?.getD 0 + n))

/-- The byte whose number ends at a place, if one does. There is no reading where the number is missing or is not that
of a byte. -/
def Place.bytes? : Place → Option (List UInt8)
  | .plain => some []
  | .escape => none
  | .octal value _ => if value < 256 then some [UInt8.ofNat value] else none
  | .hex value? => (value?.filter (· < 256)).map fun n => [UInt8.ofNat n]

def Place.next? (place : Place) (c : Char) : Option (Place × List UInt8) :=
  match place.digit? c with
  | some next => some (next, [])
  | none =>
    if place = .escape then
      if c = 'x' then some (.hex none, []) else (escapes.lookup c).map fun b => (.plain, [b])
    else
      place.bytes?.bind fun bytes =>
        if c = '\\' then some (.escape, bytes)
        else if c = '\n' || c = '\r' then none
        else some (.plain, bytes ++ String.utf8EncodeChar c)

def bytes? (place : Place) : List Char → Option (List UInt8)
  | [] => none
  | c :: cs =>
    if place ≠ .escape ∧ c = '\x22' then if cs = [] then place.bytes? else none
    else (place.next? c).bind fun next => (bytes? next.1 cs).map (next.2 ++ ·)

/-- The bytes that a string of C++ stands for, where there is nothing else. -/
def literal? : List Char → Option (List UInt8)
  | [] => none
  | c :: cs => if c = '\x22' then bytes? .plain cs else none

variable {c d : Char} {cs : List Char} {place : Place} {n : Nat}

/-- A number that ends stands for its byte, and what follows is read by itself. -/
theorem bytes?_of_digit? (hplace : place ≠ .escape) (h : ∀ c, cs.head? = some c → place.digit? c = none) :
    bytes? place cs = place.bytes?.bind fun front => (bytes? .plain cs).map (front ++ ·) := by
  cases cs with
  | nil => simp [bytes?]
  | cons c cs =>
    have hdigit : place.digit? c = none := h c rfl
    have hplain : Place.plain.digit? c = none := rfl
    have hempty : Place.plain.bytes? = some [] := rfl
    cases hbytes : place.bytes? with
    | none => simp [bytes?, hplace, hbytes, Place.next?, hdigit]
    | some front =>
      simp only [bytes?, Place.next?, hdigit, hplain, hempty, hplace, hbytes, ne_eq, not_false_eq_true, true_and,
        reduceCtorEq, if_false, Option.bind_some]
      by_cases hquote : c = '\x22'
      · by_cases hend : cs = [] <;> simp [hquote, hend]
      by_cases hslash : c = '\\'
      · simp [hslash]
      by_cases hline : c = '\n' ∨ c = '\r'
      · simp [hquote, hslash, hline]
      · simp [hquote, hslash, hline, Function.comp_def]

theorem bytes?_hex (h : hexValue? c = some n) (hquote : c ≠ '\x22') (value? : Option Nat) (cs : List Char) :
    bytes? (.hex value?) (c :: cs) = bytes? (.hex (some (16 * value?.getD 0 + n))) cs := by
  have hdigit : (Place.hex value?).digit? c = some (.hex (some (16 * value?.getD 0 + n))) := by
    simp [Place.digit?, h]
  simp [bytes?, hquote, Place.next?, hdigit]

theorem bytes?_number (h : n < 256) (cs : List Char) :
    bytes? .plain ('\\' :: 'x' :: hexDigit (n / 16) :: hexDigit (n % 16) :: cs) = bytes? (.hex (some n)) cs := by
  have hstart : ∀ rest, bytes? .plain ('\\' :: 'x' :: rest) = bytes? (.hex none) rest := by
    intro rest
    have hslash : Place.plain.next? '\\' = some (.escape, []) := rfl
    have hx : Place.escape.next? 'x' = some (.hex none, []) := by decide
    simp [bytes?, hslash, hx, Function.comp_def]
  have hhigh := bytes?_hex (Python.hexValue?_hexDigit (by omega : n / 16 < 16))
    (Python.hexDigit_visible (by omega) _ (by simp)) none (hexDigit (n % 16) :: cs)
  have hlow := bytes?_hex (Python.hexValue?_hexDigit (by omega : n % 16 < 16))
    (Python.hexDigit_visible (by omega) _ (by simp)) (some (n / 16)) cs
  have hn : 16 * (n / 16) + n % 16 = n := by omega
  rw [hstart, hhigh, Option.getD_none, Nat.mul_zero, Nat.zero_add, hlow, Option.getD_some, hn]

theorem bytes?_visible (h : ∀ d ∈ ['\n', '\r', '\x22', '\\'], c ≠ d) (cs : List Char) :
    bytes? .plain (c :: cs) = (bytes? .plain cs).map (String.utf8EncodeChar c ++ ·) := by
  simp only [List.forall_mem_cons] at h
  simp [bytes?, Place.next?, Place.digit?, Place.bytes?, h]

theorem bytes?_escape (h : (d, c) ∈ Python.escapes) (cs : List Char) :
    bytes? .plain ('\\' :: d :: cs) = (bytes? .plain cs).map (String.utf8EncodeChar c ++ ·) := by
  have hslash : Place.plain.next? '\\' = some (.escape, []) := rfl
  have hescapes : ∀ escape ∈ Python.escapes,
      Place.escape.next? escape.1 = some (.plain, String.utf8EncodeChar escape.2) := by decide
  simp [bytes?, hslash, hescapes _ h, Function.comp_def]

/-! ### Quoted texts -/

/-- No digit stands first, so that none can be added to a number before it. -/
def Digitless (cs : List Char) : Prop :=
  ∀ c, cs.head? = some c → hexValue? c = none

/-- Every character that is written by its number is one byte, and is not followed by a digit. -/
def ByteSafe (cs : List Char) : Prop :=
  ∀ front c rest, cs = front ++ c :: rest → isControl c = true → c ∉ ['\n', '\r', '\t'] →
    c.toNat < 0x80 ∧ Digitless rest

theorem byteSafe_cons : ByteSafe (c :: cs) ↔
    (isControl c = true → c ∉ ['\n', '\r', '\t'] → c.toNat < 0x80 ∧ Digitless cs) ∧ ByteSafe cs := by
  constructor
  · intro h
    refine ⟨h [] c cs rfl, ?_⟩
    rintro front d rest rfl
    exact h (c :: front) d rest rfl
  · rintro ⟨hfirst, hrest⟩ front d rest heq
    cases front with
    | nil =>
      cases heq
      exact hfirst
    | cons _ front =>
      cases heq
      exact hrest front d rest rfl

def body (cs : List Char) : List Char :=
  cs.flatMap quoteChar ++ ['\x22']

theorem body_cons (c : Char) (cs : List Char) : body (c :: cs) = quoteChar c ++ body cs := by
  simp [body]

theorem hexValue?_of_isControl (h : isControl c = true) : hexValue? c = none := by
  simp only [isControl, Bool.or_eq_true, Bool.and_eq_true, decide_eq_true_eq] at h
  have hval : c.val.toNat = c.toNat := rfl
  simp only [hexValue?, Text.isDigit, Char.le_def, UInt32.le_iff_toNat_le, Bool.and_eq_true, decide_eq_true_eq,
    Char.reduceVal, UInt32.reduceToNat, hval]
  rw [if_neg (by omega), if_neg (by omega), if_neg (by omega)]

theorem quoteChar_of_hexValue? (h : hexValue? c = some n) : quoteChar c = [c] ∧ c ≠ '\x22' := by
  rcases Python.quoteChar_cases c with ⟨heq, -, hvisible⟩ | ⟨d, hd, -⟩ | ⟨hcontrol, -⟩
  · exact ⟨heq, hvisible _ (by simp)⟩
  · have hescapes : ∀ escape ∈ Python.escapes, hexValue? escape.2 = none := by decide
    cases (hescapes _ hd).symm.trans h
  · cases (hexValue?_of_isControl hcontrol).symm.trans h

theorem Digitless.body (h : Digitless cs) : Digitless (body cs) := by
  intro c hc
  cases cs with
  | nil =>
    cases hc
    decide
  | cons d cs =>
    rw [body_cons] at hc
    rcases Python.quoteChar_eq d with ⟨heq, -⟩ | ⟨e, es, heq, -⟩
    · rw [heq] at hc
      cases hc
      exact h c rfl
    · rw [heq] at hc
      cases hc
      decide

theorem bytes?_hex_body (h : Digitless cs) (value? : Option Nat) : bytes? (.hex value?) (body cs) =
    (Place.hex value?).bytes?.bind fun front => (bytes? .plain (body cs)).map (front ++ ·) := by
  refine bytes?_of_digit? (by simp) fun c hc => ?_
  simp [Place.digit?, h.body c hc]

theorem bytes?_body_cons (c : Char) (cs : List Char) :
    isControl c = true ∧ c ∉ ['\n', '\r', '\t'] ∧ bytes? .plain (body (c :: cs)) = bytes? (.hex (some c.toNat)) (body cs) ∨
    ¬(isControl c = true ∧ c ∉ ['\n', '\r', '\t']) ∧
      bytes? .plain (body (c :: cs)) = (bytes? .plain (body cs)).map (String.utf8EncodeChar c ++ ·) := by
  rw [body_cons]
  rcases Python.quoteChar_cases c with ⟨heq, hcontrol, hvisible⟩ | ⟨d, hd, heq⟩ | ⟨hcontrol, hline, heq⟩
  · rw [heq]
    exact .inr ⟨by simp [hcontrol], bytes?_visible hvisible _⟩
  · have hescapes : ∀ escape ∈ Python.escapes, ¬(isControl escape.2 = true ∧ escape.2 ∉ ['\n', '\r', '\t']) := by
      decide
    rw [heq]
    exact .inr ⟨hescapes _ hd, bytes?_escape hd _⟩
  · rw [heq]
    exact .inl ⟨hcontrol, hline, bytes?_number (Python.toNat_lt_of_isControl hcontrol) _⟩

theorem bytes?_body_of_byteSafe (h : ByteSafe cs) :
    bytes? .plain (body cs) = some (cs.flatMap String.utf8EncodeChar) := by
  induction cs with
  | nil => decide
  | cons c cs ih =>
    obtain ⟨hfirst, hrest⟩ := byteSafe_cons.mp h
    rcases bytes?_body_cons c cs with ⟨hcontrol, hline, heq⟩ | ⟨-, heq⟩
    · obtain ⟨hlt, hdigit⟩ := hfirst hcontrol hline
      have hbyte : (Place.hex (some c.toNat)).bytes? = some (String.utf8EncodeChar c) := by
        rw [String.utf8EncodeChar_eq_singleton (Text.utf8Size_eq_one_iff.mpr hlt)]
        simp [Place.bytes?, Option.filter, Python.toNat_lt_of_isControl hcontrol]
        rfl
      rw [heq, bytes?_hex_body hdigit, hbyte, ih hrest]
      rfl
    · rw [heq, ih hrest]
      rfl

theorem length_hex_body {bytes : List UInt8} (hcs : Digitless cs) (h : bytes? (.hex (some n)) (body cs) = some bytes) :
    ∃ rest, bytes? .plain (body cs) = some rest ∧ bytes.length = rest.length + 1 := by
  rw [bytes?_hex_body hcs] at h
  obtain ⟨front, hfront, h⟩ := Option.bind_eq_some_iff.mp h
  obtain ⟨rest, hrest, rfl⟩ := Option.map_eq_some_iff.mp h
  obtain ⟨value, -, rfl⟩ := Option.map_eq_some_iff.mp hfront
  exact ⟨rest, hrest, rfl⟩

def size (cs : List Char) : Nat :=
  (cs.flatMap String.utf8EncodeChar).length

theorem size_cons (c : Char) (cs : List Char) : size (c :: cs) = c.utf8Size + size cs := by
  rw [size, List.flatMap_cons, List.length_append, String.length_utf8EncodeChar, size]

/-- Numbers that take digits behind them stand for fewer bytes than there are in the text. The induction follows the
text at two places, since a number may take one digit after another. -/
theorem byteSafe_of_length (cs : List Char) :
    (∀ bytes, bytes? .plain (body cs) = some bytes →
      bytes.length ≤ size cs ∧ (bytes.length = size cs → ByteSafe cs)) ∧
    ∀ n bytes, bytes? (.hex (some n)) (body cs) = some bytes →
      bytes.length ≤ size cs + 1 ∧ (bytes.length = size cs + 1 → Digitless cs ∧ ByteSafe cs) := by
  induction cs with
  | nil =>
    have hplain : bytes? .plain (body []) = some [] := by decide
    have hdigit : Digitless [] := fun _ hc => by cases hc
    have hsafe : ByteSafe [] := fun front _ _ heq => by cases front <;> cases heq
    refine ⟨fun bytes h => ?_, fun n bytes h => ?_⟩
    · cases hplain.symm.trans h
      exact ⟨Nat.le_refl 0, fun _ => hsafe⟩
    · obtain ⟨rest, hrest, hlength⟩ := length_hex_body hdigit h
      cases hplain.symm.trans hrest
      exact ⟨hlength.le, fun _ => ⟨hdigit, hsafe⟩⟩
  | cons c cs ih =>
    obtain ⟨ihplain, ihhex⟩ := ih
    have hpos := c.utf8Size_pos
    have hplain : ∀ bytes, bytes? .plain (body (c :: cs)) = some bytes →
        bytes.length ≤ size (c :: cs) ∧ (bytes.length = size (c :: cs) → ByteSafe (c :: cs)) := by
      intro bytes h
      rw [size_cons, byteSafe_cons]
      rcases bytes?_body_cons c cs with ⟨-, -, heq⟩ | ⟨hnot, heq⟩
      · obtain ⟨hle, hsafe⟩ := ihhex _ _ (heq ▸ h)
        refine ⟨by omega, fun hlength => ?_⟩
        have hone : c.utf8Size = 1 := by omega
        obtain ⟨hdigit, hrest⟩ := hsafe (by omega)
        exact ⟨fun _ _ => ⟨Text.utf8Size_eq_one_iff.mp hone, hdigit⟩, hrest⟩
      · obtain ⟨rest, hrest, rfl⟩ := Option.map_eq_some_iff.mp (heq ▸ h)
        obtain ⟨hle, hsafe⟩ := ihplain _ hrest
        rw [List.length_append, String.length_utf8EncodeChar]
        refine ⟨by omega, fun hlength => ⟨fun hcontrol hline => ?_, hsafe (by omega)⟩⟩
        exact absurd ⟨hcontrol, hline⟩ hnot
    refine ⟨hplain, fun n bytes h => ?_⟩
    cases hdigit : hexValue? c with
    | some m =>
      obtain ⟨heq, hquote⟩ := quoteChar_of_hexValue? hdigit
      rw [body_cons, heq, List.singleton_append, bytes?_hex hdigit hquote] at h
      obtain ⟨hle, -⟩ := ihhex _ _ h
      rw [size_cons]
      exact ⟨by omega, fun hlength => by omega⟩
    | none =>
      have hdigitless : Digitless (c :: cs) := by
        rintro d ⟨⟩
        exact hdigit
      obtain ⟨rest, hrest, hlength⟩ := length_hex_body hdigitless h
      obtain ⟨hle, hsafe⟩ := hplain rest hrest
      exact ⟨by omega, fun heq => ⟨hdigitless, hsafe (by omega)⟩⟩

/-- A quoted text stands for the text in C++ exactly if every character that is written by its number is one byte and
is not followed by a digit. -/
theorem quote_is_cpp_literal_iff (s : String) :
    literal? (quote s).toList = some s.toUTF8.data.toList ↔ ByteSafe s.toList := by
  have hbytes : s.toUTF8.data.toList = s.toList.flatMap String.utf8EncodeChar := by
    rw [String.toUTF8, ← String.utf8Encode_toList, List.utf8Encode, List.toList_data_toByteArray]
  have hliteral : literal? (quote s).toList = bytes? .plain (body s.toList) := by
    rw [toList_quote, literal?, if_pos rfl]
    rfl
  rw [hbytes, hliteral]
  exact ⟨fun h => ((byteSafe_of_length _).1 _ h).2 rfl, bytes?_body_of_byteSafe⟩

theorem quote_joins_digit : literal? (quote "\x01f").toList = some [0x1f] ∧
    literal? (quote "\x01f").toList ≠ some "\x01f".toUTF8.data.toList := by
  decide

example : literal? "\"\\001f\"".toList = some "\x01f".toUTF8.data.toList := by decide

end Arduino

end Blockwork
