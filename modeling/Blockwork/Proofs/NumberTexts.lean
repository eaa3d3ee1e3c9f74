import Blockwork.Proofs.PythonTokens

/-! # Numbers in sources

* `Source.numeral` is the absolute value of a number, as it is written in a source.
* `Source.numberLiteral_eq` says that a number is written as its absolute value, perhaps with a minus before it.
* `Source.isBare_numeral` says that what is written for an absolute value is a number without a sign and without a
  zero to spare in front of it.
-/

namespace Blockwork

set_option autoImplicit false

open Text (strip isDigit isBlank intText)

variable {cs : List Char} {x : Binary64}

/-! ## Signs of values -/

namespace Binary64

theorem isNegative_ofRatio (negative : Bool) (num den : Nat) : (ofRatio negative num den).isNegative = negative := by
  unfold ofRatio
  dsimp only
  split_ifs <;> rfl

theorem isNegative_ofDecimal (negative : Bool) (significand : Nat) (exponent : Int) :
    (ofDecimal negative significand exponent).isNegative = negative := by
  unfold ofDecimal
  dsimp only
  split_ifs <;> first | rfl | exact isNegative_ofRatio _ _ _

theorem isWhole_abs (x : Binary64) : x.abs.isWhole = x.isWhole := by
  cases x <;> rfl

theorem natAbs_round (x : Binary64) : x.round.natAbs = (2 * x.ratio.1 + x.ratio.2) / (2 * x.ratio.2) := by
  unfold round
  dsimp only
  split
  · rw [Int.natAbs_neg, Int.natAbs_natCast]
  · rw [Int.natAbs_natCast]

theorem round_eq (x : Binary64) :
    x.round = if x.isNegative then -(x.round.natAbs : Int) else (x.round.natAbs : Int) := by
  rw [natAbs_round]
  rfl

theorem ratio_abs (x : Binary64) : x.abs.ratio = x.ratio := by
  cases x <;> rfl

theorem round_abs (x : Binary64) : x.abs.round = x.round.natAbs := by
  have hpos : x.abs.isNegative = false := by cases x <;> rfl
  rw [natAbs_round, round, ratio_abs, hpos]
  rfl

theorem isZero_iff_of_isWhole (h : x.isWhole = true) : x.isZero = true ↔ x.round.natAbs = 0 := by
  rw [natAbs_round]
  cases x with
  | infinite s => cases h
  | nan => cases h
  | finite s m e =>
    have hden : 0 < (scale m e).2 := by
      unfold scale
      split
      · exact Nat.one_pos
      · exact Nat.pow_pos (by decide)
    have hwhole : (scale m e).1 % (scale m e).2 = 0 := by simpa [isWhole] using h
    have hnum : (scale m e).1 = 0 ↔ m = 0 := by
      unfold scale
      split
      · have hpow : 0 < Nat.pow 2 e.toNat := Nat.pow_pos (by decide)
        simp only [Nat.mul_eq_zero]
        omega
      · rfl
    have hquotient : (2 * (scale m e).1 + (scale m e).2) / (2 * (scale m e).2) = 0 ↔ (scale m e).1 = 0 := by
      rw [Nat.div_eq_zero_iff]
      constructor
      · intro hlt
        have hsmall : (scale m e).1 < (scale m e).2 := by omega
        rwa [Nat.mod_eq_of_lt hsmall] at hwhole
      · intro hzero
        omega
    rw [show (finite s m e).ratio = scale m e from rfl, hquotient, hnum]
    simp [isZero]

end Binary64

/-! ## Literals -/

namespace Numeral

def unsigned (literal : String) : List Char :=
  (Decimal.takeSign (strip literal.toList)).2

theorem exists_parts {literal : String} {value : Binary64} (h : Numeral.value literal = .ok value) :
    value.isFinite = true ∧
      ∃ p, Decimal.parts? isDigit (strip literal.toList) = some p ∧ p.value = value := by
  unfold Numeral.value at h
  split at h
  · split at h
    · cases h
    · next x hread =>
      split at h
      · next hfinite =>
        cases h
        refine ⟨hfinite, ?_⟩
        unfold Binary64.read? at hread
        rw [Text.toList_trim] at hread
        split at hread
        · next p hp => exact ⟨p, hp, Option.some.inj hread⟩
        · -- The words stand for nothing finite.
          unfold Binary64.readWord? at hread
          dsimp only at hread
          split_ifs at hread
          · cases hread
            cases hfinite
          · cases hread
            cases hfinite
      · cases h
  · cases h

variable {literal : String} {value : Binary64}

theorem starts_of_parts? {p : Decimal.Parts} (h : Decimal.parts? isDigit cs = some p) :
    Python.startsNumber (Decimal.takeSign cs).2 = true ∧
      (Decimal.exponent? isDigit (Decimal.takeFraction isDigit
        ((Decimal.takeSign cs).2.dropWhile isDigit)).2).isSome = true ∧
      p.negative = (Decimal.takeSign cs).1 := by
  unfold Decimal.parts? at h
  dsimp only at h
  split at h
  · cases h
  · next hdigits =>
    obtain ⟨x, hx, rfl⟩ := Option.map_eq_some_iff.mp h
    refine ⟨?_, by rw [hx]; rfl, rfl⟩
    generalize (Decimal.takeSign cs).2 = ds at hdigits
    cases ds with
    | nil => exact absurd rfl hdigits
    | cons c ds =>
      by_cases hc : isDigit c = true
      · simp [Python.startsNumber, hc]
      by_cases hdot : c = '.'
      · subst hdot
        cases ds with
        | nil => exact absurd rfl hdigits
        | cons d ds =>
          by_cases hd : isDigit d = true
          · simp [Python.startsNumber, Python.startsWithDigit, hd]
          · exact absurd (by simp [hc, hd, Decimal.takeFraction]) hdigits
      · exact absurd (by simp [hc, hdot, Decimal.takeFraction]) hdigits

theorem head_of_startsNumber (h : Python.startsNumber cs = true) :
    ∃ c ds, cs = c :: ds ∧ c ≠ '+' ∧ c ≠ '-' ∧ isBlank c = false := by
  cases cs with
  | nil => cases h
  | cons c ds =>
    refine ⟨c, ds, rfl, ?_⟩
    simp only [Python.startsNumber, Bool.or_eq_true, Bool.and_eq_true, decide_eq_true_eq] at h
    rcases h with h | ⟨rfl, -⟩
    · refine ⟨?_, ?_, ?_⟩
      · rintro rfl
        cases h
      · rintro rfl
        cases h
      · exact Text.visible_of_isDigit h
    · decide

theorem takeSign_strip (h : Numeral.value literal = .ok value) :
    Decimal.takeSign (strip literal.toList) = (value.isNegative, unsigned literal) ∧
      Python.startsNumber (unsigned literal) = true := by
  obtain ⟨-, p, hp, rfl⟩ := exists_parts h
  obtain ⟨hstarts, -, hnegative⟩ := starts_of_parts? hp
  refine ⟨?_, hstarts⟩
  rw [Decimal.Parts.value, Binary64.isNegative_ofDecimal, hnegative]
  rfl

theorem strip_eq (h : Numeral.value literal = .ok value) :
    ∃ sign, strip literal.toList = sign ++ unsigned literal ∧
      (value.isNegative = true ∧ sign = ['-'] ∨ value.isNegative = false ∧ (sign = ['+'] ∨ sign = [])) := by
  obtain ⟨hsign, -⟩ := takeSign_strip h
  generalize strip literal.toList = cs at hsign
  unfold Decimal.takeSign at hsign
  split at hsign
  · next ds =>
    obtain ⟨hnegative, hunsigned⟩ := Prod.mk.inj hsign
    exact ⟨['-'], by rw [hunsigned]; rfl, .inl ⟨hnegative.symm, rfl⟩⟩
  · next ds =>
    obtain ⟨hnegative, hunsigned⟩ := Prod.mk.inj hsign
    exact ⟨['+'], by rw [hunsigned]; rfl, .inr ⟨hnegative.symm, .inl rfl⟩⟩
  · obtain ⟨hnegative, hunsigned⟩ := Prod.mk.inj hsign
    exact ⟨[], by rw [hunsigned]; rfl, .inr ⟨hnegative.symm, .inr rfl⟩⟩

theorem bareLiteral_eq (h : Numeral.value literal = .ok value) :
    Source.bareLiteral literal = if value.isNegative then '-' :: unsigned literal else unsigned literal := by
  obtain ⟨c, ds, hcs, hplus, -, -⟩ := head_of_startsNumber (takeSign_strip h).2
  obtain ⟨sign, hstrip, ⟨hnegative, rfl⟩ | ⟨hnegative, rfl | rfl⟩⟩ := strip_eq h
  all_goals
    unfold Source.bareLiteral
    rw [hstrip, hnegative, hcs]
    simp [hplus]

theorem unsigned_ne_nil (h : Numeral.value literal = .ok value) : unsigned literal ≠ [] := by
  obtain ⟨c, ds, hcs, -, -, -⟩ := head_of_startsNumber (takeSign_strip h).2
  exact hcs ▸ List.cons_ne_nil c ds

theorem strip_unsigned (h : Numeral.value literal = .ok value) : strip (unsigned literal) = unsigned literal := by
  obtain ⟨c, ds, hcs, -, -, hvisible⟩ := head_of_startsNumber (takeSign_strip h).2
  obtain ⟨sign, hstrip, -⟩ := strip_eq h
  have hfront : (unsigned literal).dropWhile isBlank = unsigned literal := by
    rw [hcs, List.dropWhile_cons_of_neg (by rw [hvisible]; exact Bool.false_ne_true)]
  have hend : (strip literal.toList).rdropWhile isBlank = strip literal.toList :=
    List.rdropWhile_idempotent isBlank _
  rw [hstrip, List.rdropWhile_eq_self_iff] at hend
  rw [strip, hfront, Text.dropBlankEnd_eq, List.rdropWhile_eq_self_iff]
  intro hne
  have hne' : sign ++ unsigned literal ≠ [] := by simp [hne]
  have hlast := hend hne'
  rw [List.getLast_append_of_ne_nil hne' hne] at hlast
  exact hlast

end Numeral

/-! ## What is written -/

namespace Source

variable {literal : String} {value : Binary64}
variable {whole : List Char}

def numeral (literal : String) (value : Binary64) : String :=
  numberLiteral (String.ofList (Numeral.unsigned literal)) value.abs

def writesMinus (literal : String) (value : Binary64) : Bool :=
  value.isNegative && !(value.isZero && hasLeadingZero (bareLiteral literal))

theorem bareLiteral_unsigned (h : Numeral.value literal = .ok value) :
    bareLiteral (String.ofList (Numeral.unsigned literal)) = Numeral.unsigned literal := by
  obtain ⟨c, ds, hcs, hplus, -, -⟩ := Numeral.head_of_startsNumber (Numeral.takeSign_strip h).2
  unfold bareLiteral
  rw [String.toList_ofList, Numeral.strip_unsigned h, hcs]
  simp [hplus]

theorem bareLiteral_ne_nil (h : Numeral.value literal = .ok value) : bareLiteral literal ≠ [] := by
  rw [Numeral.bareLiteral_eq h]
  split
  · exact List.cons_ne_nil _ _
  · exact Numeral.unsigned_ne_nil h

theorem hasLeadingZero_bareLiteral (h : Numeral.value literal = .ok value) :
    hasLeadingZero (bareLiteral literal) = hasLeadingZero (Numeral.unsigned literal) := by
  rw [Numeral.bareLiteral_eq h]
  split
  · simp [hasLeadingZero]
  · rfl

theorem wholeValue?_abs (x : Binary64) : wholeValue? x.abs = (wholeValue? x).map fun n => (n.natAbs : Int) := by
  unfold wholeValue?
  rw [Binary64.isWhole_abs, Binary64.round_abs, Int.natAbs_natCast]
  split <;> rfl

theorem wholeValue?_neg_iff {n : Int} (h : wholeValue? x = some n) :
    n < 0 ↔ x.isNegative = true ∧ x.isZero = false := by
  unfold wholeValue? at h
  split at h
  · next hwhole =>
    cases h
    rw [Bool.and_eq_true] at hwhole
    have hround := x.round_eq
    rw [← Bool.not_eq_true, Binary64.isZero_iff_of_isWhole hwhole.1]
    by_cases hnegative : x.isNegative = true
    · rw [if_pos hnegative] at hround
      simp only [hnegative, true_and]
      omega
    · rw [if_neg hnegative] at hround
      simp only [hnegative, false_and, iff_false, Bool.false_eq_true]
      omega
  · cases h

theorem wholeValue?_of_isZero (h : x.isZero = true) : wholeValue? x ≠ none := by
  cases x with
  | infinite s => cases h
  | nan => cases h
  | finite s m e =>
    have hm : m = 0 := by simpa [Binary64.isZero] using h
    subst hm
    have hscale : (Binary64.scale 0 e).1 = 0 := by
      unfold Binary64.scale
      split
      · exact Nat.zero_mul _
      · rfl
    have hwhole : (Binary64.finite s 0 e).isWhole = true := by
      simp [Binary64.isWhole, hscale]
    have hround : (Binary64.finite s 0 e).round.natAbs = 0 := (Binary64.isZero_iff_of_isWhole hwhole).mp h
    simp [wholeValue?, hwhole, hround]

theorem plain_eq (h : x.isFinite = true) :
    Shortest.plain x = if x.isNegative then "-" ++ Shortest.plain x.abs else Shortest.plain x.abs := by
  cases x with
  | finite s m e =>
    cases s
    · rfl
    · simp [Shortest.plain, Shortest.signed, Binary64.abs, Binary64.isNegative]
  | infinite s => cases h
  | nan => cases h

theorem intText_natCast (n : Nat) : intText n = Text.natText n := by
  rw [intText, if_neg (by omega), Int.natAbs_natCast]

theorem numberLiteral_of_hasLeadingZero {literal : String} (hzero : hasLeadingZero (bareLiteral literal) = true)
    (x : Binary64) :
    numberLiteral literal x = ((wholeValue? x).map intText).getD (Shortest.plain x) := by
  simp only [numberLiteral, hzero, Bool.not_true, Bool.false_and, Bool.false_eq_true, if_false]
  cases wholeValue? x <;> rfl

theorem numberLiteral_of_bareLiteral {literal : String} (hzero : hasLeadingZero (bareLiteral literal) = false)
    (hne : bareLiteral literal ≠ []) (x : Binary64) :
    numberLiteral literal x = String.ofList (bareLiteral literal) := by
  simp [numberLiteral, hzero, hne]

theorem numberLiteral_eq (h : Numeral.value literal = .ok value) :
    numberLiteral literal value =
      if writesMinus literal value then "-" ++ numeral literal value else numeral literal value := by
  have hbare := bareLiteral_unsigned h
  have hleading := hasLeadingZero_bareLiteral h
  unfold numeral writesMinus
  rw [hleading]
  by_cases hzero : hasLeadingZero (Numeral.unsigned literal) = true
  · rw [numberLiteral_of_hasLeadingZero (by rw [hleading, hzero]),
      numberLiteral_of_hasLeadingZero (by rw [hbare, hzero]), wholeValue?_abs, hzero, Bool.and_true]
    cases hwhole : wholeValue? value with
    | none =>
      have hnonzero : value.isZero = false := by
        rw [← Bool.not_eq_true]
        intro hz
        exact wholeValue?_of_isZero hz hwhole
      simp [hnonzero, plain_eq (Numeral.exists_parts h).1]
    | some n =>
      have hneg := wholeValue?_neg_iff hwhole
      simp only [Option.map_some, Option.getD_some, intText_natCast]
      rw [intText]
      by_cases hn : n < 0
      · obtain ⟨hnegative, hnonzero⟩ := hneg.mp hn
        simp [hn, hnegative, hnonzero]
      · have hsign : (value.isNegative && !value.isZero) = false := by
          cases hnegative : value.isNegative <;> cases hz : value.isZero <;> simp_all
        rw [hsign, if_neg hn]
        rfl
  · have hfalse : hasLeadingZero (Numeral.unsigned literal) = false := Bool.eq_false_iff.mpr hzero
    rw [numberLiteral_of_bareLiteral (by rw [hleading, hfalse]) (bareLiteral_ne_nil h),
      numberLiteral_of_bareLiteral (by rw [hbare, hfalse]) (by rw [hbare]; exact Numeral.unsigned_ne_nil h), hbare, hfalse,
      Numeral.bareLiteral_eq h]
    by_cases hnegative : value.isNegative = true
    · simp [hnegative]
    · simp [hnegative]

/-! ## What is written is a number -/

theorem hasSpareZero_of_hasLeadingZero (h : hasLeadingZero cs = false) : Python.hasSpareZero cs = false := by
  rw [← Bool.not_eq_true] at h ⊢
  simp only [Python.hasSpareZero, Bool.and_eq_true, decide_eq_true_eq]
  rintro ⟨⟨hhead, hall⟩, hany⟩
  match cs with
  | [] => cases hhead
  | [c] =>
    cases hhead
    cases hany
  | c :: d :: ds =>
    cases hhead
    exact h (List.all_eq_true.mp hall d (by simp))

/-- A number without a sign that has no zero in front of it to spare. -/
structure IsBare (cs : List Char) : Prop extends Python.IsNumeral cs where
  leading : hasLeadingZero cs = false

theorem hasLeadingZero_cons_iff {c : Char} (hc : c ≠ '-') :
    hasLeadingZero (c :: cs) = true ↔ c = '0' ∧ ∃ d ds, cs = d :: ds ∧ isDigit d = true := by
  unfold hasLeadingZero
  rw [List.dropWhile_cons_of_neg (by simpa using hc)]
  constructor
  · intro h
    split at h
    · next d ds heq =>
      obtain ⟨rfl, rfl⟩ := List.cons.inj heq
      exact ⟨rfl, d, ds, rfl, h⟩
    · cases h
  · rintro ⟨rfl, d, ds, rfl, hd⟩
    exact hd

theorem hasLeadingZero_append {rest : List Char} (hne : whole ≠ []) (hwhole : ∀ c ∈ whole, isDigit c = true)
    (hhead : whole.head? = some '0' → whole = ['0']) (hrest : ∀ c, rest.head? = some c → isDigit c = false) :
    hasLeadingZero (whole ++ rest) = false := by
  obtain ⟨c, ds, rfl⟩ := List.exists_cons_of_ne_nil hne
  have hc : c ≠ '-' := by
    rintro rfl
    exact absurd (hwhole '-' List.mem_cons_self) (by decide)
  rw [← Bool.not_eq_true, List.cons_append, hasLeadingZero_cons_iff hc]
  rintro ⟨rfl, d, ds', heq, hd⟩
  obtain ⟨-, rfl⟩ := List.cons.inj (hhead rfl)
  rw [List.nil_append] at heq
  rw [hrest d (by rw [heq]; rfl)] at hd
  cases hd

theorem isBare_of_digits (hne : cs ≠ []) (hall : ∀ c ∈ cs, isDigit c = true)
    (hhead : cs.head? = some '0' → cs = ['0']) : IsBare cs := by
  have hzero : hasLeadingZero (cs ++ []) = false := hasLeadingZero_append hne hall hhead (by simp)
  rw [List.append_nil] at hzero
  refine ⟨⟨?_, ?_, hasSpareZero_of_hasLeadingZero hzero⟩, hzero⟩
  · obtain ⟨c, ds, rfl⟩ := List.exists_cons_of_ne_nil hne
    simp [Python.startsNumber, hall c List.mem_cons_self]
  · rw [List.dropWhile_eq_nil_iff.mpr hall]
    rfl

theorem isNumeral_of_point {fraction : List Char} (hne : whole ≠ []) (hwhole : ∀ c ∈ whole, isDigit c = true)
    (hfraction : ∀ c ∈ fraction, isDigit c = true) : Python.IsNumeral (whole ++ '.' :: fraction) := by
  have hdot : isDigit '.' = false := by decide
  have hdrop : (whole ++ '.' :: fraction).dropWhile isDigit = '.' :: fraction := by
    rw [List.dropWhile_append_of_pos hwhole, List.dropWhile_cons_of_neg (by simp [hdot])]
  refine ⟨?_, ?_, ?_⟩
  · obtain ⟨c, ds, rfl⟩ := List.exists_cons_of_ne_nil hne
    simp [Python.startsNumber, hwhole c List.mem_cons_self]
  · rw [hdrop, Decimal.takeFraction, List.dropWhile_eq_nil_iff.mpr hfraction]
    rfl
  · have hall : (whole ++ '.' :: fraction).all isDigit = false := by simp [hdot]
    simp [Python.hasSpareZero, hall]

theorem isBare_of_point {fraction : List Char} (hne : whole ≠ []) (hwhole : ∀ c ∈ whole, isDigit c = true)
    (hhead : whole.head? = some '0' → whole = ['0']) (hfraction : ∀ c ∈ fraction, isDigit c = true) :
    IsBare (whole ++ '.' :: fraction) := by
  refine ⟨isNumeral_of_point hne hwhole hfraction, hasLeadingZero_append hne hwhole hhead fun c hc => ?_⟩
  cases hc
  decide

theorem isBare_natText (n : Nat) : IsBare (Text.natText n).toList := by
  rw [Text.natText, String.toList_ofList]
  refine isBare_of_digits (Text.digitsOf_ne_nil n) (fun c hc => Text.isDigit_of_mem hc) fun hhead => ?_
  by_cases hn : n = 0
  · subst hn
    simp [Text.digitsOf, Text.digitChar]
  · exact absurd hhead (Text.head?_digitsOf hn)

end Source

namespace Shortest

theorem holds_of_nearest? {i : Interval} {tie : Tie} {e : Int} {c : Nat} (h : i.nearest? tie e = some c) :
    i.holds c e = true := by
  unfold Interval.nearest? at h
  dsimp only at h
  generalize (if 0 ≤ e then (Nat.pow 10 e.toNat, 1) else (1, Nat.pow 10 (-e).toNat)) = powers at h
  split at h
  · next hbelow habove =>
    cases tie with
    | up => split_ifs at h <;> cases h <;> assumption
    | toEven => split_ifs at h <;> cases h <;> assumption
  · next hbelow habove => exact Option.some.inj h ▸ hbelow
  · next hbelow habove => exact Option.some.inj h ▸ habove
  · cases h

theorem pos_of_holds {i : Interval} {c : Nat} {e : Int} (hlow : 0 < i.low) (h : i.holds c e = true) : 0 < c := by
  by_contra hc
  have hzero : c = 0 := by omega
  subst hzero
  unfold Interval.holds at h
  dsimp only at h
  have hdown : 0 < (if 0 ≤ e then (Nat.pow 10 e.toNat, 1) else (1, Nat.pow 10 (-e).toNat)).2 := by
    split
    · exact Nat.one_pos
    · exact Nat.pow_pos (by decide)
  have hpos : 0 < i.low * (if 0 ≤ e then (Nat.pow 10 e.toNat, 1) else (1, Nat.pow 10 (-e).toNat)).2 :=
    Nat.mul_pos hlow hdown
  simp only [Nat.zero_mul] at h
  split at h
  · simp only [Bool.and_eq_true, decide_eq_true_eq] at h
    omega
  · simp only [Bool.and_eq_true, decide_eq_true_eq] at h
    omega

theorem low_around_pos {m : Nat} (hm : m ≠ 0) (e : Int) : 0 < (Interval.around m e).low := by
  unfold Interval.around Binary64.scale
  dsimp only
  apply Nat.mul_pos
  · split <;> omega
  · split
    · rw [Nat.one_mul]
      exact Nat.pow_pos (by decide)
    · exact Nat.one_pos

/-- Digits without zeros in front of them, unless they are a zero. -/
structure Digits.Proper (d : Digits) : Prop where
  nonempty : d.digits ≠ []
  digit : ∀ c ∈ d.digits, isDigit c = true
  head : d.digits.head? = some '0' → d = { digits := ['0'], point := 1 }

theorem proper_of {c : Nat} (hc : c ≠ 0) (e : Int) : (Digits.of c e).Proper := by
  have hhead := Text.head?_digitsOf hc
  obtain ⟨d, ds, hds⟩ := List.exists_cons_of_ne_nil (Text.digitsOf_ne_nil c)
  have hd : d ≠ '0' := by
    rintro rfl
    rw [hds] at hhead
    exact hhead rfl
  -- The first digit is no zero, so it stays when zeros are dropped at the end.
  have hfront : (Digits.of c e).digits <+: d :: ds := hds ▸ List.rdropWhile_prefix _ _
  have hne : (Digits.of c e).digits ≠ [] := by
    intro hnil
    have hall := List.rdropWhile_eq_nil_iff.mp (hnil : (Text.digitsOf c).rdropWhile (· = '0') = []) d
      (hds ▸ List.mem_cons_self)
    exact hd (of_decide_eq_true hall)
  obtain ⟨d', ds', hds'⟩ := List.exists_cons_of_ne_nil hne
  rw [hds', List.cons_prefix_cons] at hfront
  refine ⟨hne, ?_, ?_⟩
  · intro x hx
    have hmem : x ∈ Text.digitsOf c := (List.rdropWhile_prefix _ _).subset hx
    exact Text.isDigit_of_mem hmem
  · rw [hds', List.head?_cons, Option.some.injEq]
    intro hzero
    exact absurd (hfront.1.symm.trans hzero) hd

theorem proper_digits (tie : Tie) (m : Nat) (e : Int) : (digits tie m e).Proper := by
  have hzero : Digits.Proper { digits := ['0'], point := 1 } := by
    refine ⟨List.cons_ne_nil _ _, ?_, fun _ => rfl⟩
    simp [isDigit]
  unfold digits
  split
  · exact hzero
  · next hm =>
    dsimp only
    split
    · next d hd =>
      obtain ⟨n, -, hn⟩ := List.exists_of_findSome?_eq_some hd
      obtain ⟨c, hc, rfl⟩ := Option.map_eq_some_iff.mp hn
      have hpos := pos_of_holds (low_around_pos hm e) (holds_of_nearest? hc)
      exact proper_of (by omega) _
    · exact hzero

theorem isDigit_zeros {n : Nat} {c : Char} (h : c ∈ zeros n) : isDigit c = true := by
  rw [List.eq_of_mem_replicate h]
  rfl

theorem isBare_place {d : Digits} (h : d.Proper) : Source.IsBare (place d []) := by
  unfold place
  dsimp only
  split
  · have hfraction : ∀ c ∈ zeros (-d.point).toNat ++ d.digits, isDigit c = true := by
      intro c hc
      rcases List.mem_append.mp hc with hc | hc
      · exact isDigit_zeros hc
      · exact h.digit c hc
    exact Source.isBare_of_point (List.cons_ne_nil '0' []) (by simp [isDigit]) (fun _ => rfl) hfraction
  · next hpoint =>
    split
    · rw [List.append_nil]
      refine Source.isBare_of_digits (by simp [h.nonempty]) (fun c hc => ?_) fun hhead => ?_
      · rcases List.mem_append.mp hc with hc | hc
        · exact h.digit c hc
        · exact isDigit_zeros hc
      · rw [List.head?_append_of_ne_nil _ h.nonempty] at hhead
        rw [h.head hhead]
        rfl
    · next hlength =>
      have hpos : 0 < d.point.toNat := by omega
      refine Source.isBare_of_point ?_ (fun c hc => h.digit c (List.mem_of_mem_take hc)) (fun hhead => ?_)
        fun c hc => h.digit c (List.mem_of_mem_drop hc)
      · simp [h.nonempty]
        omega
      · rw [List.head?_take, if_neg (by omega)] at hhead
        rw [h.head hhead] at hlength
        exact absurd (Nat.le_refl 1) hlength

end Shortest

namespace Source

variable {literal : String} {value : Binary64}

theorem isBare_numeral (h : Numeral.value literal = .ok value) : IsBare (numeral literal value).toList := by
  have hbare := bareLiteral_unsigned h
  obtain ⟨hfinite, p, hp, -⟩ := Numeral.exists_parts h
  obtain ⟨hstarts, hends, -⟩ := Numeral.starts_of_parts? hp
  unfold numeral
  by_cases hzero : hasLeadingZero (Numeral.unsigned literal) = true
  · rw [numberLiteral_of_hasLeadingZero (by rw [hbare, hzero]), wholeValue?_abs]
    cases wholeValue? value with
    | some n =>
      simp only [Option.map_some, Option.getD_some, intText_natCast]
      exact isBare_natText n.natAbs
    | none =>
      cases value with
      | finite s m e =>
        have hplain : (Shortest.plain (Binary64.finite s m e).abs).toList =
            Shortest.place (Shortest.digits .up m e) [] := String.toList_ofList
        simp only [Option.map_none, Option.getD_none]
        rw [hplain]
        exact Shortest.isBare_place (Shortest.proper_digits .up m e)
      | infinite s => cases hfinite
      | nan => cases hfinite
  · have hfalse : hasLeadingZero (Numeral.unsigned literal) = false := Bool.eq_false_iff.mpr hzero
    rw [numberLiteral_of_bareLiteral (by rw [hbare, hfalse]) (by rw [hbare]; exact Numeral.unsigned_ne_nil h), hbare,
      String.toList_ofList]
    exact ⟨⟨hstarts, hends, hasSpareZero_of_hasLeadingZero hfalse⟩, hfalse⟩

theorem isNumeral_numeral (h : Numeral.value literal = .ok value) : Python.IsNumeral (numeral literal value).toList :=
  (isBare_numeral h).toIsNumeral

end Source

end Blockwork
