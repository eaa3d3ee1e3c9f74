import Blockwork.Proofs.NumberTexts
import Blockwork.Proofs.Outcomes

/-! # The form of numbers in sources

A number is written in a form that all languages read alike, as a decimal number: in digits of ASCII, without a plus, and
with no zero to spare in front of the digits before the point.
-/

namespace Blockwork.Source

set_option autoImplicit false

variable {literal : String} {value : Binary64}

/-! ## The form -/

/-- The digits before the point: a single zero, or digits of which the first is no zero. -/
def IsWholePart (cs : List Char) : Prop :=
  cs = ['0'] ∨ cs ≠ [] ∧ cs.head? ≠ some '0' ∧ ∀ d ∈ cs, Text.isDigit d = true

inductive IsMantissa : List Char → Prop where
  | whole {cs : List Char} (h : IsWholePart cs) : IsMantissa cs
  | point {cs ds : List Char} (h : IsWholePart cs) (hds : ∀ d ∈ ds, Text.isDigit d = true) : IsMantissa (cs ++ '.' :: ds)
  | fraction {ds : List Char} (hne : ds ≠ []) (hds : ∀ d ∈ ds, Text.isDigit d = true) : IsMantissa ('.' :: ds)

/-- Perhaps a minus, digits with perhaps a point among them, and perhaps an exponent. -/
def IsNumber (cs : List Char) : Prop :=
  ∃ sign mantissa power, cs = sign ++ (mantissa ++ power) ∧ (sign = [] ∨ sign = ['-']) ∧ IsMantissa mantissa ∧
    Decimal.IsPower power

variable {cs : List Char}

theorem IsWholePart.digits (h : IsWholePart cs) : cs ≠ [] ∧ ∀ d ∈ cs, Text.isDigit d = true := by
  obtain rfl | ⟨hne, -, hcs⟩ := h
  · simp [Text.isDigit]
  · exact ⟨hne, hcs⟩

theorem IsWholePart.eq_zero (h : IsWholePart cs) (hhead : cs.head? = some '0') : cs = ['0'] :=
  h.elim id fun hcs => absurd hhead hcs.2.1

/-! ## Zeros to spare -/

theorem IsMantissa.hasLeadingZero (h : IsMantissa cs) {rest : List Char} (hrest : Decimal.IsPower rest) :
    hasLeadingZero (cs ++ rest) = false := by
  cases h with
  | whole h =>
    refine hasLeadingZero_append h.digits.1 h.digits.2 h.eq_zero fun c hc => ?_
    cases hrest with
    | none => cases hc
    | some he _ _ _ =>
      cases hc
      rcases he with rfl | rfl <;> decide
  | point h _ =>
    rw [List.append_assoc]
    refine hasLeadingZero_append h.digits.1 h.digits.2 h.eq_zero fun c hc => ?_
    cases hc
    decide
  | fraction _ _ =>
    rw [← Bool.not_eq_true, List.cons_append, hasLeadingZero_cons_iff (by decide)]
    simp

theorem IsNumber.hasLeadingZero (h : IsNumber cs) : hasLeadingZero cs = false := by
  obtain ⟨sign, mantissa, power, rfl, rfl | rfl, hmantissa, hpower⟩ := h
  · exact hmantissa.hasLeadingZero hpower
  · rw [← hmantissa.hasLeadingZero hpower]
    simp [Source.hasLeadingZero]

theorem isWholePart_of_hasLeadingZero {rest : List Char} (hne : cs ≠ []) (hcs : ∀ c ∈ cs, Text.isDigit c = true)
    (h : hasLeadingZero (cs ++ rest) = false) : IsWholePart cs := by
  obtain ⟨c, ds, rfl⟩ := List.exists_cons_of_ne_nil hne
  have hminus : c ≠ '-' := by
    rintro rfl
    exact absurd (hcs '-' List.mem_cons_self) (by decide)
  rw [← Bool.not_eq_true, List.cons_append, hasLeadingZero_cons_iff hminus] at h
  by_cases hzero : c = '0'
  · cases ds with
    | nil => exact .inl (by rw [hzero])
    | cons d ds => exact absurd ⟨hzero, d, ds ++ rest, rfl, hcs d (by simp)⟩ h
  · exact .inr ⟨hne, by simpa using hzero, hcs⟩

theorem isNumber_of_isBare {sign : List Char} (hsign : sign = [] ∨ sign = ['-']) (h : IsBare cs) :
    IsNumber (sign ++ cs) := by
  obtain ⟨whole, fraction, power, rfl, hwhole, hpower, hfraction⟩ := h.exists_parts
  refine ⟨sign, whole ++ fraction, power, by rw [List.append_assoc], hsign, ?_, hpower⟩
  by_cases hne : whole = []
  · subst hne
    obtain ⟨hne, -⟩ | ⟨ds, rfl, hds, hne | hne⟩ := hfraction
    · exact absurd rfl hne
    · exact absurd rfl hne
    · exact .fraction hne hds
  · have hpart := isWholePart_of_hasLeadingZero hne hwhole h.leading
    obtain ⟨-, rfl⟩ | ⟨ds, rfl, hds, -⟩ := hfraction
    · rw [List.append_nil]
      exact .whole hpart
    · exact .point hpart hds

/-! ## Numbers of sources -/

theorem visible_numberLiteral (h : Numeral.value literal = .ok value) :
    ∀ c ∈ (numberLiteral literal value).toList, Text.isBlank c = false := by
  have hnumeral := (isBare_numeral h).forall_mem (fun _ hd => Text.visible_of_isDigit hd)
    (Text.visible_of_all (by decide))
  rw [numberLiteral_eq h]
  split
  · rw [String.toList_append]
    exact List.forall_mem_append.mpr ⟨Text.visible_of_all (by decide), hnumeral⟩
  · exact hnumeral

theorem head_numberLiteral (h : Numeral.value literal = .ok value) :
    (numberLiteral literal value).toList.head? ≠ some '+' := by
  obtain ⟨c, ds, hcs, hplus, -, -⟩ := Numeral.head_of_startsNumber (isBare_numeral h).starts
  rw [numberLiteral_eq h]
  split
  · simp
  · simpa [hcs] using hplus

theorem isNumber_numberLiteral (h : Numeral.value literal = .ok value) :
    IsNumber (numberLiteral literal value).toList := by
  have hnumber : ∀ sign, sign = [] ∨ sign = ['-'] → IsNumber (sign ++ (numeral literal value).toList) :=
    fun sign hsign => isNumber_of_isBare hsign (isBare_numeral h)
  rw [numberLiteral_eq h]
  split
  · rw [String.toList_append]
    exact hnumber ['-'] (.inr rfl)
  · have hplain := hnumber [] (.inl rfl)
    rwa [List.nil_append] at hplain

/-- A number is written as a decimal number without a plus, without blanks around it and without zeros to spare, and in
its own spelling, a plus and blanks apart, exactly if that spelling has this form. -/
theorem numberLiteral_form {literal : String} {attrs : Attributes} {e : Expr}
    (h : Expr.makeNumber literal attrs = .ok e) : ∃ value, e = .number literal value attrs ∧
      IsNumber (numberLiteral literal value).toList ∧ (numberLiteral literal value).toList.head? ≠ some '+' ∧
      Text.trim (numberLiteral literal value) = numberLiteral literal value ∧
      (numberLiteral literal value = String.ofList (bareLiteral literal) ↔ IsNumber (bareLiteral literal)) := by
  obtain ⟨value, hvalue, he⟩ := Except.bind_ok_iff.mp h
  cases he
  have hnumber := isNumber_numberLiteral hvalue
  refine ⟨value, rfl, hnumber, head_numberLiteral hvalue, Text.trim_of_visible (visible_numberLiteral hvalue), fun hkept => ?_, fun hbare => ?_⟩
  · rwa [hkept, String.toList_ofList] at hnumber
  · exact numberLiteral_of_bareLiteral hbare.hasLeadingZero (bareLiteral_ne_nil hvalue) value

theorem numberLiteral_form_padded :
    let literal := " -007.50 "
    let e := Expr.number literal (.finite true 0x1e000000000000 (-50)) { id := "n" }
    Expr.makeNumber literal { id := "n" } = .ok e ∧ ∃ value, e = .number literal value { id := "n" } ∧
      IsNumber (numberLiteral literal value).toList ∧ numberLiteral literal value = "-7.5" := by
  intro literal e
  have hvalue : Numeral.value literal = .ok (.finite true 0x1e000000000000 (-50)) :=
    Except.toOption_eq_some_iff.mp (by decide +kernel)
  have hmade : Expr.makeNumber literal { id := "n" } = .ok e := by
    rw [Expr.makeNumber, hvalue]
    rfl
  obtain ⟨value, he, hnumber, -⟩ := numberLiteral_form hmade
  have hwritten : numberLiteral " -007.50 " (.finite true 0x1e000000000000 (-50)) = "-7.5" := by decide +kernel
  refine ⟨hmade, value, he, hnumber, ?_⟩
  rw [← (Expr.number.inj he).2.1]
  exact hwritten

end Blockwork.Source
