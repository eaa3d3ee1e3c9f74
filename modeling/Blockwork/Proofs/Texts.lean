import Mathlib.Data.List.DropRight
import Mathlib.Data.List.Nodup
import Mathlib.Data.List.Perm.Subperm
import Blockwork.Block.Fresh
import Blockwork.Program.ToBlocks

/-! # Trimmed texts and texts of numbers

* `Text.strip_strip` says that trimming twice is trimming once.
* `Text.countOf?_natText`, `Text.readInt64?_intText` and the like say that the text of a number is read as that
  number.
* `Block.itemSlot_injective` and the like say that numbered slots have different names, and
  `Block.generatedId_fresh_notMem` that a fresh identifier is not taken.
-/

namespace Blockwork

set_option autoImplicit false

namespace Text

/-! ## Blank ends -/

theorem dropBlankEnd_eq (cs : List Char) : dropBlankEnd cs = cs.rdropWhile isBlank := rfl

variable {cs : List Char} {c : Char} {n : Nat}

theorem dropWhile_dropBlankEnd (h : cs.dropWhile isBlank = cs) :
    (dropBlankEnd cs).dropWhile isBlank = dropBlankEnd cs := by
  rw [List.dropWhile_eq_self_iff] at h ⊢
  intro hl
  have hfront : dropBlankEnd cs <+: cs := List.rdropWhile_prefix isBlank cs
  have hpos : 0 < cs.length := Nat.lt_of_lt_of_le hl hfront.length_le
  rw [hfront.getElem hl]
  exact h hpos

theorem strip_strip (cs : List Char) : strip (strip cs) = strip cs := by
  have hfront : (strip cs).dropWhile isBlank = strip cs :=
    dropWhile_dropBlankEnd (List.dropWhile_idempotent isBlank cs)
  calc strip (strip cs) = dropBlankEnd ((strip cs).dropWhile isBlank) := rfl
    _ = dropBlankEnd (strip cs) := by rw [hfront]
    _ = strip cs := List.rdropWhile_idempotent isBlank _

theorem visible_of_all (h : (cs.all fun c => !isBlank c) = true) : ∀ c ∈ cs, isBlank c = false := fun c hc => by
  simpa only [Bool.not_eq_true'] using List.all_eq_true.mp h c hc

theorem strip_of_visible (h : ∀ c ∈ cs, isBlank c = false) : strip cs = cs := by
  have hfront : cs.dropWhile isBlank = cs := by
    rw [List.dropWhile_eq_self_iff]
    intro hl
    rw [h _ (List.getElem_mem hl)]
    exact Bool.false_ne_true
  have hend : dropBlankEnd cs = cs := by
    rw [dropBlankEnd_eq, List.rdropWhile_eq_self_iff]
    intro hl
    rw [h _ (List.getLast_mem hl)]
    exact Bool.false_ne_true
  rw [strip, hfront, hend]

@[simp] theorem toList_trim (s : String) : (trim s).toList = strip s.toList :=
  String.toList_ofList

theorem trim_of_visible {s : String} (h : ∀ c ∈ s.toList, isBlank c = false) : trim s = s := by
  unfold trim
  rw [strip_of_visible h, String.ofList_toList]

theorem utf8Size_eq_one_iff : c.utf8Size = 1 ↔ c.toNat < 0x80 := by
  have hval : c.val.toNat = c.toNat := rfl
  have hbound : (127 : UInt32).toNat = 127 := rfl
  rw [Char.utf8Size_eq_one_iff, UInt32.le_iff_toNat_le]
  omega

/-! ## Digits -/

theorem toNat_of_isDigit (h : isDigit c = true) : 48 ≤ c.toNat ∧ c.toNat ≤ 57 := by
  simp only [isDigit, Bool.and_eq_true, decide_eq_true_eq, Char.le_def, UInt32.le_iff_toNat_le] at h
  exact h

theorem visible_of_isDigit (h : isDigit c = true) : isBlank c = false := by
  have hc := toNat_of_isDigit h
  by_contra hblank
  simp only [isBlank, Bool.not_eq_false, Bool.or_eq_true, Bool.and_eq_true, decide_eq_true_eq, beq_iff_eq] at hblank
  omega

theorem digitChar_spec (h : n < 10) :
    isDigit (digitChar n) = true ∧ digitValue (digitChar n) = n ∧ isBlank (digitChar n) = false ∧
      digitChar n ≠ '+' := by
  revert n
  decide

theorem exists_digit_of_mem (h : c ∈ digitsOf n) : ∃ d < 10, c = digitChar d := by
  fun_induction digitsOf n with
  | case1 n hn => exact ⟨n, hn, List.mem_singleton.mp h⟩
  | case2 n hn ih =>
    rcases List.mem_append.mp h with h | h
    · exact ih h
    · exact ⟨n % 10, Nat.mod_lt n (by decide), List.mem_singleton.mp h⟩

theorem isDigit_of_mem (h : c ∈ digitsOf n) : isDigit c = true := by
  obtain ⟨d, hd, rfl⟩ := exists_digit_of_mem h
  exact (digitChar_spec hd).1

theorem visible_of_mem (h : c ∈ digitsOf n) : isBlank c = false := by
  obtain ⟨d, hd, rfl⟩ := exists_digit_of_mem h
  exact (digitChar_spec hd).2.2.1

theorem digitsOf_ne_nil (n : Nat) : digitsOf n ≠ [] := by
  rw [digitsOf]
  split <;> simp

theorem head?_digitsOf (h : n ≠ 0) : (digitsOf n).head? ≠ some '0' := by
  fun_induction digitsOf n with
  | case1 n hn =>
    revert n
    decide
  | case2 n hn ih =>
    have hne : digitsOf (n / 10) ≠ [] := digitsOf_ne_nil _
    rw [List.head?_append_of_ne_nil _ hne]
    exact ih (by omega)

theorem digitsValue_append (cs : List Char) (c : Char) :
    digitsValue (cs ++ [c]) = 10 * digitsValue cs + digitValue c := by
  unfold digitsValue
  rw [List.foldl_append]
  rfl

theorem digitsValue_digitsOf (n : Nat) : digitsValue (digitsOf n) = n := by
  fun_induction digitsOf n with
  | case1 n hn =>
    have hvalue := (digitChar_spec hn).2.1
    simpa [digitsValue] using hvalue
  | case2 n hn ih =>
    have hvalue := (digitChar_spec (Nat.mod_lt n (by decide : 0 < 10))).2.1
    rw [digitsValue_append, ih, hvalue]
    omega

theorem readDigits?_digitsOf (n : Nat) : readDigits? (digitsOf n) = some n := by
  unfold readDigits?
  have hall : (digitsOf n).all isDigit = true := List.all_eq_true.mpr fun c hc => isDigit_of_mem hc
  have hne : (digitsOf n).isEmpty = false := List.isEmpty_eq_false_iff.mpr (digitsOf_ne_nil n)
  rw [hall, hne, digitsValue_digitsOf]
  rfl

theorem readNat?_natText (n : Nat) : readNat? (natText n) = some n := by
  unfold readNat? natText
  rw [String.toList_ofList]
  split
  · next cs h =>
    -- A digit is no sign.
    have hmem : '+' ∈ digitsOf n := h ▸ List.mem_cons_self
    cases isDigit_of_mem hmem
  · exact readDigits?_digitsOf n

theorem natText_injective : Function.Injective natText := by
  intro m n h
  have hread := readNat?_natText m
  rw [h, readNat?_natText n] at hread
  exact (Option.some.inj hread).symm

theorem trim_natText (n : Nat) : trim (natText n) = natText n := by
  refine trim_of_visible fun c hc => ?_
  unfold natText at hc
  rw [String.toList_ofList] at hc
  exact visible_of_mem hc

theorem countOf?_natText (h : n < UInt64.size) : countOf? (natText n) = some (UInt64.ofNat n) := by
  unfold countOf? readUInt64?
  rw [trim_natText, readNat?_natText]
  exact if_pos h

theorem toList_intText (n : Int) :
    (intText n).toList = if n < 0 then '-' :: digitsOf n.natAbs else digitsOf n.natAbs := by
  unfold intText natText
  split
  · simp
  · rw [String.toList_ofList]

theorem trim_intText (n : Int) : trim (intText n) = intText n := by
  refine trim_of_visible fun c hc => ?_
  rw [toList_intText] at hc
  split at hc
  · rcases List.mem_cons.mp hc with rfl | hc
    · decide
    · exact visible_of_mem hc
  · exact visible_of_mem hc

theorem readInt?_intText (n : Int) : readInt? (intText n) = some n := by
  unfold readInt?
  rw [toList_intText]
  by_cases hn : n < 0
  · have habs : -(n.natAbs : Int) = n := by omega
    rw [if_pos hn]
    simp only [readDigits?_digitsOf]
    exact congrArg some habs
  · have habs : (n.natAbs : Int) = n := by omega
    rw [if_neg hn]
    split
    · next cs h =>
      have hmem : '-' ∈ digitsOf n.natAbs := h ▸ List.mem_cons_self
      cases isDigit_of_mem hmem
    · next cs h =>
      have hmem : '+' ∈ digitsOf n.natAbs := h ▸ List.mem_cons_self
      cases isDigit_of_mem hmem
    · rw [readDigits?_digitsOf]
      exact congrArg some habs

theorem readInt64?_intText (x : Int64) : readInt64? (intText x.toInt) = some x := by
  have hrange : Int64.minValue.toInt ≤ x.toInt ∧ x.toInt ≤ Int64.maxValue.toInt :=
    ⟨Int64.le_toInt x, Int64.toInt_le x⟩
  unfold readInt64?
  rw [readInt?_intText]
  simp only [hrange, and_self, if_true, Int64.ofInt_toInt]

theorem readUInt32?_natText (n : UInt32) : readUInt32? (natText n.toNat) = some n := by
  unfold readUInt32?
  rw [readNat?_natText]
  simp only [n.toNat_lt_size, if_true, UInt32.ofNat_toNat]

end Text

/-! ## Numbered names -/

namespace Block

theorem append_natText_injective (slot : String) : Function.Injective fun i => slot ++ Text.natText i := by
  intro i j h
  have hlist := congrArg String.toList h
  simp only [String.toList_append] at hlist
  exact Text.natText_injective (String.toList_inj.mp (List.append_cancel_left hlist))

theorem exists_notMem_of_injective {f : Nat → String} (hf : Function.Injective f) (taken : List String) :
    ∃ k < taken.length + 1, f k ∉ taken := by
  by_contra hnone
  push Not at hnone
  have hsubset : (List.range (taken.length + 1)).map f ⊆ taken := by
    intro s hs
    obtain ⟨k, hk, rfl⟩ := List.mem_map.mp hs
    exact hnone k (List.mem_range.mp hk)
  have hle := (List.subperm_of_subset (List.Nodup.map hf List.nodup_range) hsubset).length_le
  rw [List.length_map, List.length_range] at hle
  omega

theorem generatedId_injective : Function.Injective generatedId :=
  append_natText_injective "gen-"

theorem generatedId_fresh_notMem (count : Nat) (taken : List String) : generatedId (fresh count taken) ∉ taken := by
  unfold fresh
  split
  · next k hfind =>
    have hfree := List.find?_some hfind
    simpa using hfree
  · next hfind =>
    have hinjective : Function.Injective fun k => generatedId (count + 1 + k) := by
      intro i j hij
      have hsum := generatedId_injective hij
      omega
    obtain ⟨k, hk, hfree⟩ := exists_notMem_of_injective hinjective taken
    have htaken := List.find?_eq_none.mp hfind k (List.mem_range.mpr hk)
    exact absurd (by simpa using htaken) hfree

theorem itemSlot_injective : Function.Injective itemSlot :=
  append_natText_injective "ADD"

theorem conditionSlot_injective : Function.Injective conditionSlot :=
  append_natText_injective "IF"

theorem branchSlot_injective : Function.Injective branchSlot :=
  append_natText_injective "DO"

theorem branchSlot_ne_else (i : Nat) : branchSlot i ≠ "ELSE" := by
  intro h
  have hlist := congrArg String.toList h
  unfold branchSlot at hlist
  rw [String.toList_append] at hlist
  cases hlist

end Block

end Blockwork
