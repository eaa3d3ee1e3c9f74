import Blockwork.Json.Printer
import Blockwork.Proofs.KeyOrder
import Blockwork.Proofs.Texts

/-! # JSON values as texts

A value is written over several lines, and its text is cut into the tokens of the value again. The machine
takes them if no more containers are open at once than it can hold.
-/

namespace Blockwork.Json

set_option autoImplicit false

open List (append_assoc mem_cons_self cons_append)
open Text (isDigit digitValue digitsOf intText)
open Option (map_map)

variable {cs rest : List Char} {c : Char}

/-! ## Strings -/

namespace Token

theorem hexValue?_hexDigit {n : Nat} (h : n < 16) : hexValue? (hexDigit n) = some n := by
  revert n
  decide

theorem unicode?_hexDigit {n : Nat} (h : n < 0x20) (rest : List Char) :
    unicode? ('0' :: '0' :: hexDigit (n / 16) :: hexDigit (n % 16) :: rest) = some (Char.ofNat n, rest) := by
  have hzero : hexValue? '0' = some 0 := by decide
  have hhigh : hexValue? (hexDigit (n / 16)) = some (n / 16) := hexValue?_hexDigit (by omega)
  have hlow : hexValue? (hexDigit (n % 16)) = some (n % 16) := hexValue?_hexDigit (by omega)
  have hfour : hexFour? ('0' :: '0' :: hexDigit (n / 16) :: hexDigit (n % 16) :: rest) = some (n, rest) := by
    simp only [hexFour?, hzero, hhigh, hlow, Option.bind_eq_bind, Option.bind_some, Option.pure_def, Option.some.injEq,
      Prod.mk.injEq, and_true]
    omega
  have hplain : ¬(0xd800 ≤ n ∧ n < 0xdc00) := by omega
  have hplain' : ¬(0xdc00 ≤ n ∧ n < 0xe000) := by omega
  simp only [unicode?, hfour, Option.bind_eq_bind, Option.bind_some, hplain, hplain', if_false, Option.pure_def]

theorem stringChar?_escapeChar (c : Char) (rest : List Char) :
    stringChar? (escapeChar c ++ rest) = some (some c, rest) := by
  unfold escapeChar
  by_cases h₁ : c = '"'
  · simp [h₁, stringChar?, escape?]
  by_cases h₂ : c = '\\'
  · simp [h₂, stringChar?, escape?]
  by_cases h₃ : c = '\x08'
  · simp [h₃, stringChar?, escape?]
  by_cases h₄ : c = '\x0c'
  · simp [h₄, stringChar?, escape?]
  by_cases h₅ : c = '\n'
  · simp [h₅, stringChar?, escape?]
  by_cases h₆ : c = '\r'
  · simp [h₆, stringChar?, escape?]
  by_cases h₇ : c = '\t'
  · simp [h₇, stringChar?, escape?]
  rw [if_neg h₁, if_neg h₂, if_neg h₃, if_neg h₄, if_neg h₅, if_neg h₆, if_neg h₇]
  by_cases hcontrol : c.toNat < 0x20
  · rw [if_pos hcontrol]
    simp [stringChar?, escape?, unicode?_hexDigit hcontrol]
  · rw [if_neg hcontrol]
    simp [stringChar?, h₁, h₂, hcontrol]

theorem stringBody?_cons (h : stringChar? cs = some (some c, rest)) :
    stringBody? cs = (stringBody? rest).map fun (body, rest) => (c :: body, rest) := by
  rw [stringBody?]
  split
  · next h' => rw [h] at h'; cases h'
  · next h' => rw [h] at h'; cases h'
  · next h' =>
    rw [h] at h'
    cases h'
    split <;> simp_all

theorem stringBody?_end (h : stringChar? cs = some (none, rest)) : stringBody? cs = some ([], rest) := by
  rw [stringBody?]
  split
  · next h' => rw [h] at h'; cases h'
  · next h' => rw [h] at h'; cases h'; rfl
  · next h' => rw [h] at h'; cases h'

theorem stringBody?_escaped (cs rest : List Char) :
    stringBody? (cs.flatMap escapeChar ++ '"' :: rest) = some (cs, rest) := by
  induction cs with
  | nil => exact stringBody?_end (by simp [stringChar?])
  | cons c cs ih =>
    rw [List.flatMap_cons, append_assoc, stringBody?_cons (stringChar?_escapeChar c _), ih]
    rfl

theorem lex_quoted (s : String) (rest : List Char) : lex ((quoted s).toList ++ rest) = some (.text s, rest) := by
  have hchars : (quoted s).toList ++ rest = '"' :: (s.toList.flatMap escapeChar ++ '"' :: rest) := by
    simp [quoted]
  rw [hchars, lex, stringBody?_escaped]
  simp

end Token

/-! ## Numbers -/

namespace Number

def Ends (rest : List Char) : Prop :=
  ∀ c, rest.head? = some c → isDigit c = false ∧ c ≠ '.' ∧ c ≠ 'e' ∧ c ≠ 'E'

theorem ends_nil : Ends [] := nofun

theorem ends_cons (h : isDigit c = false ∧ c ≠ '.' ∧ c ≠ 'e' ∧ c ≠ 'E') (rest : List Char) : Ends (c :: rest) := by
  rintro d ⟨⟩
  exact h

theorem le_gathered (n : Nat) (cs : List Char) : n ≤ cs.foldl (fun n c => 10 * n + digitValue c) n := by
  induction cs generalizing n with
  | nil => exact Nat.le_refl n
  | cons c cs ih =>
    have hrest := ih (10 * n + digitValue c)
    rw [List.foldl_cons]
    omega

theorem gather_of_lt {n : Nat} (h : cs.foldl (fun n c => 10 * n + digitValue c) n < UInt64.size) :
    gather n cs = (cs.foldl (fun n c => 10 * n + digitValue c) n, []) := by
  induction cs generalizing n with
  | nil => rfl
  | cons c cs ih =>
    rw [List.foldl_cons] at h ⊢
    have hsize : UInt64.size = 18446744073709551616 := rfl
    have hle := le_gathered (10 * n + digitValue c) cs
    have hlt : 10 * n + digitValue c < 2 ^ 64 := by omega
    have hstep : gather n (c :: cs) = gather (10 * n + digitValue c) cs := if_pos hlt
    rw [hstep, ih h]

theorem lexWhole_digitsOf (n : Nat) (h : Ends rest) : lexWhole (digitsOf n ++ rest) = some (digitsOf n, rest) := by
  have hdigits : ∀ c ∈ digitsOf n, isDigit c = true := fun c hc => Text.isDigit_of_mem hc
  have htake : rest.takeWhile isDigit = [] ∧ rest.dropWhile isDigit = rest := by
    cases rest with
    | nil => exact ⟨rfl, rfl⟩
    | cons c rest => simp [(h c rfl).1]
  unfold lexWhole
  simp only [List.takeWhile_append_of_pos hdigits, List.dropWhile_append_of_pos hdigits, htake, List.append_nil]
  split
  · next hnil => exact absurd hnil (Text.digitsOf_ne_nil n)
  · next d ds hzero =>
    have hn : n = 0 := by
      by_contra hne
      exact Text.head?_digitsOf hne (by rw [hzero]; rfl)
    subst hn
    simp [digitsOf, Text.digitChar] at hzero
  · rfl

theorem lex_intText (n : Int) (h : Ends rest) :
    lex ((intText n).toList ++ rest) =
      some ({ negative := decide (n < 0), whole := digitsOf n.natAbs, fraction := none, exponent := none },
        rest) := by
  have hsign : lexSign ((intText n).toList ++ rest) = (decide (n < 0), digitsOf n.natAbs ++ rest) := by
    rw [Text.toList_intText]
    by_cases hn : n < 0
    · rw [if_pos hn, decide_eq_true hn]
      rfl
    · rw [if_neg hn, decide_eq_false hn]
      unfold lexSign
      split
      · next cs hcs =>
        obtain ⟨d, ds, hds⟩ := List.exists_cons_of_ne_nil (Text.digitsOf_ne_nil n.natAbs)
        rw [hds] at hcs
        have hmem : d ∈ digitsOf n.natAbs := hds ▸ mem_cons_self
        rw [cons_append, List.cons.injEq] at hcs
        rw [hcs.1] at hmem
        cases Text.isDigit_of_mem hmem
      · rfl
  have hfraction : lexFraction rest = some (none, rest) := by
    unfold lexFraction
    split
    · exact absurd rfl (h '.' rfl).2.1
    · rfl
  have hexponent : lexExponent rest = some (none, rest) := by
    cases rest with
    | nil => rfl
    | cons c rest =>
      rw [lexExponent, if_neg]
      rintro (e | e)
      · exact (h c rfl).2.2.1 e
      · exact (h c rfl).2.2.2 e
  unfold lex
  simp [hsign, lexWhole_digitsOf _ h, hfraction, hexponent]

def Fits (n : Int) : Prop :=
  -9223372036854775808 ≤ n ∧ n < 18446744073709551616

theorem value?_digitsOf {n : Int} (h : Fits n) :
    Lexeme.value? { negative := decide (n < 0), whole := digitsOf n.natAbs, fraction := none, exponent := none } =
      some (.int n) := by
  obtain ⟨hlow, hhigh⟩ := h
  have hvalue : (digitsOf n.natAbs).foldl (fun n c => 10 * n + digitValue c) 0 = n.natAbs :=
    Text.digitsValue_digitsOf n.natAbs
  have hsize : UInt64.size = 18446744073709551616 := rfl
  have hgather : gather 0 (digitsOf n.natAbs) = (n.natAbs, []) := by
    rw [gather_of_lt (by omega), hvalue]
  simp only [Lexeme.value?, hgather, List.isEmpty_nil, Option.isNone_none, Bool.and_self, if_true, Option.some.injEq,
    ofMagnitude]
  by_cases hn : n < 0
  · have hpow : Nat.pow 2 63 = 9223372036854775808 := rfl
    have hrange : 0 < n.natAbs ∧ n.natAbs ≤ Nat.pow 2 63 := by omega
    rw [decide_eq_true hn, Bool.not_true, if_neg Bool.false_ne_true, if_pos hrange]
    congr 1
    omega
  · rw [decide_eq_false hn, Bool.not_false, if_pos rfl]
    congr 1
    omega

end Number

theorem exists_head_intText (n : Int) : ∃ c cs, (intText n).toList = c :: cs ∧ (c = '-' ∨ isDigit c = true) := by
  obtain ⟨d, ds, hds⟩ := List.exists_cons_of_ne_nil (Text.digitsOf_ne_nil n.natAbs)
  rw [Text.toList_intText, hds]
  split
  · exact ⟨'-', _, rfl, .inl rfl⟩
  · exact ⟨d, ds, rfl, .inr (Text.isDigit_of_mem (hds ▸ mem_cons_self))⟩

theorem Token.lex_intText {n : Int} (hn : Number.Fits n) (h : Number.Ends rest) :
    lex ((intText n).toList ++ rest) = some (.number (.int n), rest) := by
  have hnumber : lexNumber ((intText n).toList ++ rest) = some (.number (.int n), rest) := by
    simp [lexNumber, Number.lex_intText n h, Number.value?_digitsOf hn]
  obtain ⟨c, cs, hcs, hc⟩ := exists_head_intText n
  rw [hcs, cons_append] at hnumber ⊢
  -- No other token starts like a number.
  unfold lex
  split
  all_goals first
    | exact hnumber
    | next heq =>
      rw [(List.cons.inj heq).1] at hc
      rcases hc with hc | hc <;> cases hc

/-! ## Tokens of values -/

mutual

def tokens : Json → List Token
  | .null => [.null]
  | .bool b => [.bool b]
  | .number n => [.number n]
  | .text s => [.text s]
  | .array items => .beginArray :: itemTokens items ++ [.endArray]
  | .object members => .beginObject :: memberTokens members ++ [.endObject]

def itemTokens : List Json → List Token
  | [] => []
  | [v] => tokens v
  | v :: w :: vs => tokens v ++ .comma :: itemTokens (w :: vs)

def memberTokens : List (String × Json) → List Token
  | [] => []
  | [(key, v)] => .text key :: .colon :: tokens v
  | (key, v) :: m :: ms => .text key :: .colon :: tokens v ++ .comma :: memberTokens (m :: ms)

end

/-- The numbers of a value are integers of 64 bits. -/
inductive Whole : Json → Prop where
  | null : Whole .null
  | bool (b : Bool) : Whole (.bool b)
  | int {n : Int} (h : Number.Fits n) : Whole (.number (.int n))
  | text (s : String) : Whole (.text s)
  | array {items : List Json} (h : ∀ v ∈ items, Whole v) : Whole (.array items)
  | object {members : List (String × Json)} (h : ∀ m ∈ members, Whole m.2) : Whole (.object members)

/-- The keys of a value ascend, and its numbers are integers of 64 bits. -/
structure Printable (v : Json) : Prop where
  ordered : v.Ordered
  whole : v.Whole

theorem printable_bool (b : Bool) : (Json.bool b).Printable :=
  ⟨.bool b, .bool b⟩

theorem printable_text (s : String) : (Json.text s).Printable :=
  ⟨.text s, .text s⟩

theorem printable_array {items : List Json} (h : ∀ v ∈ items, v.Printable) : (Json.array items).Printable :=
  ⟨.array fun v hv => (h v hv).ordered, .array fun v hv => (h v hv).whole⟩

theorem printable_object {members : List (String × Json)} (hsorted : Dict.Sorted members)
    (h : ∀ m ∈ members, m.2.Printable) : (Json.object members).Printable :=
  ⟨.object hsorted fun m hm => (h m hm).ordered, .object fun m hm => (h m hm).whole⟩

namespace Token

theorem scan_space (h : isSpace c = true) (cs : List Char) : scan (c :: cs) = scan cs := by
  rw [scan, scan, List.dropWhile_cons_of_pos h]

theorem scan_newline (level : Nat) (cs : List Char) : scan ((newline level).toList ++ cs) = scan cs := by
  have hchars : (newline level).toList ++ cs = '\n' :: (List.replicate (2 * level) ' ' ++ cs) := by
    simp [newline]
  rw [hchars, scan_space (by decide)]
  induction 2 * level with
  | zero => rfl
  | succ n ih => rw [List.replicate_succ, cons_append, scan_space (by decide), ih]

theorem scan_token {t : Token} (hlex : lex (c :: cs) = some (t, rest)) (hvisible : isSpace c = false) :
    scan (c :: cs) = (scan rest).map (t :: ·) := by
  have hdrop : (c :: cs).dropWhile isSpace = c :: cs := List.dropWhile_cons_of_neg (Bool.eq_false_iff.mp hvisible)
  rw [scan]
  split
  · next h =>
    rw [hdrop] at h
    cases h
  · next h =>
    rw [hdrop] at h
    cases h
    split
    · next h' =>
      rw [hlex] at h'
      cases h'
    · next h' =>
      rw [hlex] at h'
      cases h'
      rfl

theorem scan_quoted (s : String) (rest : List Char) :
    scan ((quoted s).toList ++ rest) = (scan rest).map (.text s :: ·) := by
  have hlex := lex_quoted s rest
  have hchars : (quoted s).toList ++ rest = '"' :: (s.toList.flatMap escapeChar ++ '"' :: rest) := by
    simp [quoted]
  rw [hchars] at hlex ⊢
  exact scan_token hlex rfl

theorem scan_intText {n : Int} (hn : Number.Fits n) (h : Number.Ends rest) :
    scan ((intText n).toList ++ rest) = (scan rest).map (.number (.int n) :: ·) := by
  have hlex := lex_intText hn h
  obtain ⟨c, cs, hcs, hc⟩ := exists_head_intText n
  rw [hcs, cons_append] at hlex ⊢
  refine scan_token hlex ?_
  by_contra hspace
  simp only [isSpace, Bool.not_eq_false, Bool.or_eq_true, beq_iff_eq] at hspace
  rcases hspace with ((rfl | rfl) | rfl) | rfl <;> rcases hc with hc | hc <;> cases hc

end Token

theorem ends_newline (level : Nat) (rest : List Char) : Number.Ends ((newline level).toList ++ rest) := by
  have hnewline : (newline level).toList = '\n' :: List.replicate (2 * level) ' ' := by simp [newline]
  rw [hnewline, cons_append]
  exact Number.ends_cons (by decide) _

open Token

mutual

theorem scan_prettyAt (v : Json) (hv : v.Whole) (level : Nat) {rest : List Char} (hrest : Number.Ends rest) :
    scan ((prettyAt level v).toList ++ rest) = (scan rest).map (v.tokens ++ ·) := by
  match v, hv with
  | .null, _ =>
    have hchars : (prettyAt level .null).toList ++ rest = 'n' :: 'u' :: 'l' :: 'l' :: rest := by simp [prettyAt]
    rw [hchars, scan_token rfl rfl]
    rfl
  | .bool true, _ =>
    have hchars : (prettyAt level (.bool true)).toList ++ rest = 't' :: 'r' :: 'u' :: 'e' :: rest := by
      simp [prettyAt, boolText]
    rw [hchars, scan_token rfl rfl]
    rfl
  | .bool false, _ =>
    have hchars : (prettyAt level (.bool false)).toList ++ rest = 'f' :: 'a' :: 'l' :: 's' :: 'e' :: rest := by
      simp [prettyAt, boolText]
    rw [hchars, scan_token rfl rfl]
    rfl
  | .number _, .int hn => exact scan_intText hn hrest
  | .text s, _ => exact scan_quoted s rest
  | .array [], _ =>
    have hchars : (prettyAt level (.array [])).toList ++ rest = '[' :: ']' :: rest := by simp [prettyAt]
    rw [hchars, scan_token rfl rfl, scan_token rfl rfl, map_map]
    rfl
  | .array (w :: ws), .array h =>
    have hchars : (prettyAt level (.array (w :: ws))).toList ++ rest =
        '[' :: ((prettyItems (level + 1) (w :: ws)).toList ++ ((newline level).toList ++ ']' :: rest)) := by
      simp [prettyAt]
    rw [hchars, scan_token rfl rfl, scan_prettyItems (w :: ws) h (level + 1) (ends_newline level _), scan_newline,
      scan_token rfl rfl, map_map, map_map]
    congr 1
    funext ts
    simp [tokens]
  | .object [], _ =>
    have hchars : (prettyAt level (.object [])).toList ++ rest = '\x7b' :: '\x7d' :: rest := by simp [prettyAt]
    rw [hchars, scan_token rfl rfl, scan_token rfl rfl, map_map]
    rfl
  | .object (m :: ms), .object h =>
    have hchars : (prettyAt level (.object (m :: ms))).toList ++ rest =
        '\x7b' :: ((prettyMembers (level + 1) (m :: ms)).toList ++ ((newline level).toList ++ '\x7d' :: rest)) := by
      simp [prettyAt]
    rw [hchars, scan_token rfl rfl, scan_prettyMembers (m :: ms) h (level + 1) (ends_newline level _), scan_newline,
      scan_token rfl rfl, map_map, map_map]
    congr 1
    funext ts
    simp [tokens]
termination_by structural v

theorem scan_prettyItems (items : List Json) (h : ∀ v ∈ items, v.Whole) (level : Nat) {rest : List Char}
    (hrest : Number.Ends rest) :
    scan ((prettyItems level items).toList ++ rest) = (scan rest).map (itemTokens items ++ ·) := by
  match items, h with
  | [], _ => simp [prettyItems, itemTokens]
  | [v], h =>
    have hchars : (prettyItems level [v]).toList ++ rest
        = (newline level).toList ++ ((prettyAt level v).toList ++ rest) := by
      simp [prettyItems]
    rw [hchars, scan_newline, scan_prettyAt v (h v mem_cons_self) level hrest, itemTokens]
  | v :: w :: vs, h =>
    obtain ⟨hv, hrest'⟩ := List.forall_mem_cons.mp h
    have hchars : (prettyItems level (v :: w :: vs)).toList ++ rest =
        (newline level).toList
          ++ ((prettyAt level v).toList ++ ',' :: ((prettyItems level (w :: vs)).toList ++ rest)) := by
      simp [prettyItems]
    rw [hchars, scan_newline, scan_prettyAt v hv level (Number.ends_cons (by decide) _),
      scan_token rfl rfl, scan_prettyItems (w :: vs) hrest' level hrest, map_map, map_map]
    congr 1
    funext ts
    simp [itemTokens]
termination_by structural items

theorem scan_prettyMembers (members : List (String × Json)) (h : ∀ m ∈ members, m.2.Whole) (level : Nat)
    {rest : List Char} (hrest : Number.Ends rest) :
    scan ((prettyMembers level members).toList ++ rest) = (scan rest).map (memberTokens members ++ ·) := by
  match members, h with
  | [], _ => simp [prettyMembers, memberTokens]
  | [(key, v)], h =>
    have hchars : (prettyMembers level [(key, v)]).toList ++ rest =
        (newline level).toList ++ ((quoted key).toList ++ ':' :: ' ' :: ((prettyAt level v).toList ++ rest)) := by
      simp [prettyMembers]
    rw [hchars, scan_newline, scan_quoted, scan_token rfl rfl, scan_space rfl,
      scan_prettyAt v (h (key, v) mem_cons_self) level hrest, map_map, map_map]
    rfl
  | (key, v) :: m :: ms, h =>
    obtain ⟨hv, hrest'⟩ := List.forall_mem_cons.mp h
    have hchars : (prettyMembers level ((key, v) :: m :: ms)).toList ++ rest =
        (newline level).toList ++ ((quoted key).toList ++ ':' :: ' ' ::
          ((prettyAt level v).toList ++ ',' :: ((prettyMembers level (m :: ms)).toList ++ rest))) := by
      simp [prettyMembers]
    rw [hchars, scan_newline, scan_quoted, scan_token rfl rfl, scan_space rfl,
      scan_prettyAt v hv level (Number.ends_cons (by decide) _), scan_token rfl rfl,
      scan_prettyMembers (m :: ms) hrest' level hrest, map_map, map_map, map_map, map_map]
    congr 1
    funext ts
    simp [memberTokens]
termination_by structural members

end

/-! ## Values of tokens -/

mutual

/-- How many containers are open at once inside a value, with the value itself. -/
def depth : Json → Nat
  | .array items => itemsDepth items + 1
  | .object members => membersDepth members + 1
  | _ => 0

def itemsDepth : List Json → Nat
  | [] => 0
  | v :: vs => max (depth v) (itemsDepth vs)

def membersDepth : List (String × Json) → Nat
  | [] => 0
  | (_, v) :: ms => max (depth v) (membersDepth ms)

end

namespace Machine

def Takes (ts : List Token) (m m' : Machine) (depth : Nat) : Prop :=
  ts.foldlM step m = if depth ≤ maxDepth then some m' else none

variable {ts : List Token} {m m' : Machine} {d : Nat} {t : Token} {stack : List Frame} {e : Expect}

theorem Takes.append {ts' : List Token} {m₁ : Machine} {d' : Nat} (h : Takes ts m m₁ d)
    (h' : Takes ts' m₁ m' d') : Takes (ts ++ ts') m m' (max d d') := by
  unfold Takes at *
  rw [List.foldlM_append, h]
  by_cases hd : d ≤ maxDepth
  · have hmax : max d d' ≤ maxDepth ↔ d' ≤ maxDepth := by omega
    rw [if_pos hd, if_congr hmax rfl rfl, ← h']
    rfl
  · have hmax : ¬max d d' ≤ maxDepth := by omega
    rw [if_neg hd, if_neg hmax]
    rfl

theorem Takes.congr {d' : Nat} (h : Takes ts m m' d) (hd : d ≤ maxDepth ↔ d' ≤ maxDepth) : Takes ts m m' d' := by
  unfold Takes at *
  rw [h, if_congr hd rfl rfl]

theorem Takes.of_step (h : step m t = some m') : Takes [t] m m' 0 := by
  unfold Takes
  simp [h]

def WantsValue (e : Expect) : Prop :=
  e = .value ∨ e = .item

theorem step_value (he : WantsValue e) (ht : t ≠ .endArray) : step ⟨stack, e⟩ t = value stack t := by
  rcases he with rfl | rfl
  · rfl
  · cases t <;> first | rfl | exact absurd rfl ht

theorem takes_scalar {v : Json} (he : WantsValue e) (ht : t ≠ .endArray)
    (hstack : stack.length ≤ maxDepth) (hvalue : value stack t = some (put stack v)) :
    Takes [t] ⟨stack, e⟩ (put stack v) stack.length := by
  refine (Takes.of_step ((step_value he ht).trans hvalue)).congr ?_
  omega

theorem takes_full (he : WantsValue e) (ht : t ≠ .endArray) (hvalue : value stack t = none) (hd : maxDepth < d) :
    Takes (t :: ts) ⟨stack, e⟩ m d := by
  unfold Takes
  rw [List.foldlM_cons, step_value he ht, hvalue, if_neg (by omega)]
  rfl

mutual

theorem takes_tokens (v : Json) (hv : v.Ordered) (stack : List Frame) {e : Expect} (he : WantsValue e)
    (hstack : stack.length ≤ maxDepth) : Takes v.tokens ⟨stack, e⟩ (put stack v) (stack.length + v.depth) := by
  match v, hv with
  | .null, _ => exact takes_scalar he nofun hstack rfl
  | .bool b, _ => exact takes_scalar he nofun hstack rfl
  | .number n, _ => exact takes_scalar he nofun hstack rfl
  | .text s, _ => exact takes_scalar he nofun hstack rfl
  | .array items, hv =>
    rw [tokens, depth]
    by_cases hlt : stack.length < maxDepth
    · have hbegin : Takes [.beginArray] ⟨stack, e⟩ ⟨.array [] :: stack, .item⟩ 0 := by
        refine .of_step ?_
        rw [step_value (t := .beginArray) he nofun]
        exact if_pos hlt
      match items, hv with
      | [], _ =>
        have hend : Takes [.endArray] ⟨.array [] :: stack, .item⟩ (put stack (.array [])) 0 := .of_step rfl
        refine (hbegin.append hend).congr ?_
        simp only [itemsDepth]
        omega
      | w :: ws, .array h =>
        have hitems := takes_itemTokens (w :: ws) (List.cons_ne_nil w ws) h stack [] (.inr rfl) hlt
        refine (hbegin.append hitems).congr ?_
        omega
    · refine takes_full he nofun (if_neg hlt) ?_
      omega
  | .object members, hv =>
    rw [tokens, depth]
    by_cases hlt : stack.length < maxDepth
    · have hbegin : Takes [.beginObject] ⟨stack, e⟩ ⟨.object [] "" :: stack, .firstKey []⟩ 0 := by
        refine .of_step ?_
        rw [step_value (t := .beginObject) he nofun]
        exact if_pos hlt
      match members, hv with
      | [], _ =>
        have hend : Takes [.endObject] ⟨.object [] "" :: stack, .firstKey []⟩ (put stack (.object [])) 0 := .of_step rfl
        refine (hbegin.append hend).congr ?_
        simp only [membersDepth]
        omega
      | m :: ms, .object hsorted h =>
        have hmembers := takes_memberTokens (m :: ms) (List.cons_ne_nil m ms) h stack [] [] "" hsorted (.inl rfl) hlt
        refine (hbegin.append hmembers).congr ?_
        omega
    · refine takes_full he nofun (if_neg hlt) ?_
      omega
termination_by structural v

theorem takes_itemTokens (items : List Json) (hne : items ≠ []) (h : ∀ v ∈ items, v.Ordered) (stack : List Frame)
    (done : List Json) {e : Expect} (he : WantsValue e) (hstack : stack.length < maxDepth) :
    Takes (itemTokens items ++ [.endArray]) ⟨.array done :: stack, e⟩ (put stack (.array (done.reverse ++ items)))
      (stack.length + 1 + itemsDepth items) := by
  match items, hne, h with
  | [v], _, h =>
    have hvalue := takes_tokens v (h v mem_cons_self) (.array done :: stack) he hstack
    have hend : Takes [.endArray] (put (.array done :: stack) v) (put stack (.array (done.reverse ++ [v]))) 0 := by
      refine .of_step ?_
      simp [put, step, more]
    rw [itemTokens]
    refine (hvalue.append hend).congr ?_
    simp only [itemsDepth, List.length_cons]
    omega
  | v :: w :: vs, _, h =>
    obtain ⟨hv, hrest⟩ := List.forall_mem_cons.mp h
    have hvalue := takes_tokens v hv (.array done :: stack) he hstack
    have hcomma : Takes [.comma] (put (.array done :: stack) v) ⟨.array (v :: done) :: stack, .value⟩ 0 := .of_step rfl
    have hothers := takes_itemTokens (w :: vs) (List.cons_ne_nil w vs) hrest stack (v :: done) (.inl rfl) hstack
    have hall := (hvalue.append hcomma).append hothers
    rw [List.reverse_cons, append_assoc, List.singleton_append, append_assoc, List.singleton_append] at hall
    rw [itemTokens, append_assoc, cons_append]
    refine hall.congr ?_
    simp only [itemsDepth, List.length_cons]
    omega
termination_by structural items

theorem takes_memberTokens (members : List (String × Json)) (hne : members ≠ []) (h : ∀ m ∈ members, m.2.Ordered)
    (stack : List Frame) (before done : List (String × Json)) (key' : String)
    (hsorted : Dict.Sorted (done ++ members)) {e : Expect} (he : e = .firstKey done ∨ e = .key done)
    (hstack : stack.length < maxDepth) :
    Takes (memberTokens members ++ [.endObject]) ⟨.object before key' :: stack, e⟩
      (put stack (.object (done ++ members))) (stack.length + 1 + membersDepth members) := by
  have hkey : ∀ key, Takes [.text key, .colon] ⟨.object before key' :: stack, e⟩
      ⟨.object done key :: stack, .value⟩ 0 := by
    intro key
    rcases he with rfl | rfl
    · exact (Takes.of_step rfl).append (.of_step rfl)
    · exact (Takes.of_step rfl).append (.of_step rfl)
  match members, hne, h with
  | [(key, v)], _, h =>
    have hinsert : Dict.insert key v done = done ++ [(key, v)] := Dict.insert_of_sorted hsorted
    have hvalue := takes_tokens v (h (key, v) mem_cons_self) (.object done key :: stack) (.inl rfl) hstack
    have hend : Takes [.endObject] (put (.object done key :: stack) v)
        (put stack (.object (done ++ [(key, v)]))) 0 := by
      refine .of_step ?_
      rw [← hinsert]
      rfl
    rw [memberTokens]
    refine (((hkey key).append hvalue).append hend).congr ?_
    simp only [membersDepth, List.length_cons]
    omega
  | (key, v) :: m :: ms, _, h =>
    obtain ⟨hv, hrest⟩ := List.forall_mem_cons.mp h
    have hinsert : Dict.insert key v done = done ++ [(key, v)] := Dict.insert_of_sorted hsorted
    have hvalue := takes_tokens v hv (.object done key :: stack) (.inl rfl) hstack
    have hcomma : Takes [.comma] (put (.object done key :: stack) v)
        ⟨.object (done ++ [(key, v)]) key :: stack, .key (done ++ [(key, v)])⟩ 0 := by
      refine .of_step ?_
      rw [← hinsert]
      rfl
    have hsorted' : Dict.Sorted ((done ++ [(key, v)]) ++ m :: ms) := by
      rw [append_assoc]
      exact hsorted
    have hothers := takes_memberTokens (m :: ms) (List.cons_ne_nil m ms) hrest stack (done ++ [(key, v)])
      (done ++ [(key, v)]) key hsorted' (.inr rfl) hstack
    have hall := (((hkey key).append hvalue).append hcomma).append hothers
    simp only [append_assoc, cons_append, List.nil_append] at hall
    rw [memberTokens]
    simp only [append_assoc, cons_append]
    refine hall.congr ?_
    simp only [membersDepth, List.length_cons]
    omega
termination_by structural members

end

end Machine

theorem parse?_pretty {v : Json} (h : v.Printable) :
    parse? v.pretty = if v.depth ≤ maxDepth then some v else none := by
  have hscan : Token.scan v.pretty.toList = some v.tokens := by
    have hnil : Token.scan [] = some [] := by
      rw [Token.scan]
      rfl
    have htokens := scan_prettyAt v h.whole 0 Number.ends_nil
    rw [List.append_nil, hnil, Option.map_some, List.append_nil] at htokens
    exact htokens
  have htakes : v.tokens.foldlM Machine.step Machine.start
      = if v.depth ≤ maxDepth then some (Machine.put [] v) else none := by
    have htakes := Machine.takes_tokens v h.ordered [] (.inl rfl) (Nat.zero_le _)
    rwa [Machine.Takes, List.length_nil, Nat.zero_add] at htakes
  rw [parse?, hscan, Option.bind_some, ofTokens?, htakes]
  split <;> rfl

end Blockwork.Json
