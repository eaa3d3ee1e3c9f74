import Mathlib.Logic.Function.Iterate
import Blockwork.Proofs.Refinement
import Blockwork.Proofs.Texts

/-! # Names of types

A name of a type is the name of a base type with marks of lists before it, in small and capital letters, and with
blanks behind the marks. A reading breaks where a mark is looked for in a word whose first six bytes end inside a
character.

* `Ty.ofChars_eq_known_iff` and `Ty.ofChars_eq_broken_iff` say what is read, and where a reading breaks.
* `Ty.isConcrete_of_ofName` says that a name stands for a type without placeholders.
* `Ty.ofName_trim` says that blanks at the ends of a name do not matter.
* `Ty.ofName_of_name?` says that the name of a type is read as that type.
-/

namespace Blockwork.Ty

set_option autoImplicit false

open Text (lowerChar isBlank strip)

/-- A mark of a list, with blanks behind it. -/
def IsMark (cs : List Char) : Prop :=
  ∃ mark blanks, cs = mark ++ blanks ∧ mark.map lowerChar = listMark ∧ ∀ c ∈ blanks, isBlank c = true

def baseNames : List (List Char × Ty) :=
  [("number".toList, .number), ("boolean".toList, .boolean), ("string".toList, .text)]

/-- The characters are marks of lists and the name of a base type, and the type has as many lists around it. -/
def Spells (cs : List Char) (t : Ty) : Prop :=
  ∃ (marks : List (List Char)) (base : List Char) (b : Ty), cs = marks.flatten ++ base ∧
    (∀ mark ∈ marks, IsMark mark) ∧ (base.map lowerChar, b) ∈ baseNames ∧ t = list^[marks.length] b

/-- A word in which a mark is looked for: a whole name without the blanks at its ends, or what is left of it behind
marks. -/
inductive Remains : List Char → List Char → Prop
  | whole (cs : List Char) : Remains cs (strip cs)
  | behind {cs mark rest word : List Char} (h : strip cs = mark ++ rest)
    (hlong : 6 < (String.ofList (strip cs)).utf8ByteSize) (hmark : mark.map lowerChar = listMark)
    (hword : Remains rest word) : Remains cs word

def Breaks (cs : List Char) : Prop :=
  ∃ word, Remains cs word ∧ 6 < (String.ofList word).utf8ByteSize ∧
    ¬String.Pos.Raw.IsValid (String.ofList word) ⟨6⟩

/-! ## Bytes -/

variable {cs mark front rest word : List Char} {t : Ty}

theorem utf8ByteSize_ofList (cs : List Char) : (String.ofList cs).utf8ByteSize = byteSize cs := by
  induction cs with
  | nil => rfl
  | cons c cs ih =>
    rw [byteSize, ← ih, String.ofList_cons, String.utf8ByteSize_append, String.utf8ByteSize_singleton]

theorem byteSize_append (cs cs' : List Char) : byteSize (cs ++ cs') = byteSize cs + byteSize cs' := by
  induction cs with
  | nil => exact (Nat.zero_add _).symm
  | cons c cs ih =>
    simp only [List.cons_append, byteSize, ih]
    omega

theorem byteSize_pos (h : cs ≠ []) : 0 < byteSize cs := by
  obtain ⟨c, rest, rfl⟩ := List.exists_cons_of_ne_nil h
  have hc := c.utf8Size_pos
  rw [byteSize]
  omega

theorem byteSize_of_cutBytes? {n : Nat} (h : cutBytes? n cs = some (front, rest)) : byteSize front = n := by
  fun_induction cutBytes? n cs generalizing front with
  | case1 => cases h; rfl
  | case2 => cases h
  | case3 n c cs _ hle ih =>
    obtain ⟨⟨front', rest'⟩, h', heq⟩ := Option.map_eq_some_iff.mp h
    cases heq
    rw [byteSize, ih h']
    omega
  | case4 => cases h

theorem cutBytes?_byteSize (front rest : List Char) : cutBytes? (byteSize front) (front ++ rest) = some (front, rest) := by
  induction front with
  | nil => rw [byteSize, cutBytes?, List.nil_append]
  | cons c front ih =>
    have hc := c.utf8Size_pos
    rw [byteSize, List.cons_append, cutBytes?, if_pos (Nat.le_add_right _ _), Nat.add_sub_cancel_left, ih]
    · rfl
    · omega

theorem isValid_iff {n : Nat} :
    String.Pos.Raw.IsValid (String.ofList cs) ⟨n⟩ ↔ ∃ front rest, cutBytes? n cs = some (front, rest) := by
  rw [String.Pos.Raw.isValid_iff_exists_append]
  constructor
  · rintro ⟨front, rest, hcs, hn⟩
    have hsize : n = byteSize front.toList := by
      rw [← utf8ByteSize_ofList, String.ofList_toList]
      exact congrArg String.Pos.Raw.byteIdx hn
    have hchars : cs = front.toList ++ rest.toList := by
      rw [← String.toList_append, ← hcs, String.toList_ofList]
    exact ⟨front.toList, rest.toList, by rw [hsize, hchars, cutBytes?_byteSize]⟩
  · rintro ⟨front, rest, hcut⟩
    refine ⟨String.ofList front, String.ofList rest, ?_, ?_⟩
    · rw [← String.ofList_append, cutBytes?_append hcut]
    · rw [String.Pos.Raw.ext_iff, String.byteIdx_rawEndPos, utf8ByteSize_ofList, byteSize_of_cutBytes? hcut]

/-! ## Letters -/

theorem letter_of_lowerChar {c : Char} (h : 95 ≤ (lowerChar c).toNat ∧ (lowerChar c).toNat ≤ 122) :
    65 ≤ c.toNat ∧ c.toNat ≤ 122 := by
  unfold lowerChar at h
  split at h
  · next hcapital =>
    simp only [Bool.and_eq_true, decide_eq_true_eq, Char.le_def, UInt32.le_iff_toNat_le, Char.reduceVal,
      UInt32.reduceToNat] at hcapital
    have hval : c.val.toNat = c.toNat := rfl
    omega
  · omega

/-- Small and capital letters, and the underscore among other signs of ASCII. -/
def Lettered (cs : List Char) : Prop :=
  ∀ c ∈ cs, 65 ≤ c.toNat ∧ c.toNat ≤ 122

theorem lettered_of_lower {name : List Char} (h : cs.map lowerChar = name)
    (hname : (name.all fun c => 95 ≤ c.toNat && c.toNat ≤ 122) = true) : Lettered cs := by
  intro c hc
  have hlower := List.all_eq_true.mp hname _ (h ▸ List.mem_map_of_mem hc)
  exact letter_of_lowerChar (by simpa using hlower)

theorem lettered_mark (h : mark.map lowerChar = listMark) : Lettered mark :=
  lettered_of_lower h (by decide)

theorem lettered_base (h : (cs.map lowerChar, t) ∈ baseNames) : Lettered cs := by
  have hnames : ∀ pair ∈ baseNames, (pair.1.all fun c => 95 ≤ c.toNat && c.toNat ≤ 122) = true := by decide
  exact lettered_of_lower rfl (hnames _ h)

theorem ne_nil_of_base (h : (cs.map lowerChar, t) ∈ baseNames) : cs ≠ [] := by
  have hnames : ∀ pair ∈ baseNames, pair.1 ≠ [] := by decide
  intro hnil
  exact hnames _ h (by rw [hnil]; rfl)

theorem Lettered.visible (h : Lettered cs) : ∀ c ∈ cs, isBlank c = false := by
  intro c hc
  have hletter := h c hc
  rw [← Bool.not_eq_true]
  intro hblank
  simp only [isBlank, Bool.or_eq_true, Bool.and_eq_true, decide_eq_true_eq, beq_iff_eq] at hblank
  omega

theorem Lettered.byteSize_eq (h : Lettered cs) : byteSize cs = cs.length := by
  induction cs with
  | nil => rfl
  | cons c cs ih =>
    obtain ⟨hc, hcs⟩ := List.forall_mem_cons.mp h
    have hone : c.utf8Size = 1 := Text.utf8Size_eq_one_iff.mpr (by omega)
    rw [byteSize, ih hcs, hone, List.length_cons, Nat.add_comm]

theorem byteSize_mark (h : mark.map lowerChar = listMark) : byteSize mark = 6 := by
  rw [(lettered_mark h).byteSize_eq, ← List.length_map lowerChar, h]
  rfl

theorem cutBytes?_mark (h : mark.map lowerChar = listMark) (rest : List Char) :
    cutBytes? 6 (mark ++ rest) = some (mark, rest) := by
  rw [← byteSize_mark h]
  exact cutBytes?_byteSize mark rest

/-- There is but one way to cut off a mark. -/
theorem eq_of_cutBytes?_mark (hcut : cutBytes? 6 word = some (front, rest)) {rest' : List Char}
    (hword : word = mark ++ rest') (hmark : mark.map lowerChar = listMark) : front = mark ∧ rest = rest' := by
  rw [hword, cutBytes?_mark hmark] at hcut
  cases hcut
  exact ⟨rfl, rfl⟩

/-! ## Blanks -/

theorem dropBlankEnd_of_suffix (h : Text.dropBlankEnd cs = cs) (hsuffix : rest <:+ cs) :
    Text.dropBlankEnd rest = rest := by
  rw [Text.dropBlankEnd_eq, List.rdropWhile_eq_self_iff] at h ⊢
  intro hne
  rw [hsuffix.getLast hne]
  exact h _

theorem dropBlankEnd_strip (cs : List Char) : Text.dropBlankEnd (strip cs) = strip cs := by
  rw [strip, Text.dropBlankEnd_eq, Text.dropBlankEnd_eq, List.rdropWhile_idempotent]

theorem dropBlankEnd_append (h : ∀ c ∈ rest, isBlank c = false) (hne : rest ≠ []) (cs : List Char) :
    Text.dropBlankEnd (cs ++ rest) = cs ++ rest := by
  rw [Text.dropBlankEnd_eq, List.rdropWhile_eq_self_iff]
  intro _
  rw [List.getLast_append_of_ne_nil _ hne, h _ (List.getLast_mem hne)]
  exact Bool.false_ne_true

theorem dropWhile_isBlank_append (h : ∀ c ∈ front, isBlank c = false) (hne : front ≠ []) (cs : List Char) :
    (front ++ cs).dropWhile isBlank = front ++ cs := by
  obtain ⟨c, front, rfl⟩ := List.exists_cons_of_ne_nil hne
  simp [h c List.mem_cons_self]

/-- What stands behind a mark in a word without blanks at its end has blanks only before it. -/
theorem exists_blanks (h : strip cs = mark ++ rest) :
    ∃ blanks, rest = blanks ++ strip rest ∧ ∀ c ∈ blanks, isBlank c = true := by
  refine ⟨rest.takeWhile isBlank, ?_, fun c hc => List.mem_takeWhile_imp hc⟩
  have hsuffix : rest.dropWhile isBlank <:+ strip cs :=
    (List.dropWhile_suffix _).trans ⟨mark, h.symm⟩
  rw [strip, dropBlankEnd_of_suffix (dropBlankEnd_strip cs) hsuffix, List.takeWhile_append_dropWhile]

theorem strip_blanks_append {blanks : List Char} (hblanks : ∀ c ∈ blanks, isBlank c = true) :
    strip (blanks ++ cs) = strip cs := by
  rw [strip, strip, List.dropWhile_append_of_pos hblanks]

/-! ## Spelled types -/

theorem spells_iff : Spells cs t ↔ (cs.map lowerChar, t) ∈ baseNames ∨
    ∃ mark blanks rest u, cs = mark ++ (blanks ++ rest) ∧ mark.map lowerChar = listMark ∧
      (∀ c ∈ blanks, isBlank c = true) ∧ Spells rest u ∧ t = list u := by
  constructor
  · rintro ⟨marks, base, b, rfl, hmarks, hbase, rfl⟩
    cases marks with
    | nil => exact .inl hbase
    | cons first marks =>
      obtain ⟨⟨mark, blanks, rfl, hmark, hblanks⟩, hothers⟩ := List.forall_mem_cons.mp hmarks
      refine .inr ⟨mark, blanks, marks.flatten ++ base, list^[marks.length] b, by simp, hmark, hblanks,
        ⟨marks, base, b, rfl, hothers, hbase, rfl⟩, ?_⟩
      exact Function.iterate_succ_apply' list _ b
  · rintro (hbase | ⟨mark, blanks, _, _, rfl, hmark, hblanks, ⟨marks, base, b, rfl, hmarks, hbase, rfl⟩, rfl⟩)
    · exact ⟨[], cs, t, rfl, List.forall_mem_nil _, hbase, rfl⟩
    · refine ⟨(mark ++ blanks) :: marks, base, b, by simp, ?_, hbase, ?_⟩
      · exact List.forall_mem_cons.mpr ⟨⟨mark, blanks, rfl, hmark, hblanks⟩, hmarks⟩
      · exact (Function.iterate_succ_apply' list _ b).symm

theorem Spells.ne_nil (h : Spells cs t) : cs ≠ [] := by
  obtain ⟨marks, base, b, rfl, -, hbase, -⟩ := h
  simp [ne_nil_of_base hbase]

theorem Spells.strip_eq (h : Spells cs t) : strip cs = cs := by
  have hstart : cs.dropWhile isBlank = cs := by
    rcases spells_iff.mp h with hbase | ⟨mark, blanks, rest, u, rfl, hmark, -⟩
    · have hwhole := dropWhile_isBlank_append (lettered_base hbase).visible (ne_nil_of_base hbase) []
      rwa [List.append_nil] at hwhole
    · refine dropWhile_isBlank_append (lettered_mark hmark).visible ?_ _
      rintro rfl
      cases hmark
  obtain ⟨marks, base, b, rfl, -, hbase, -⟩ := h
  rw [strip, hstart]
  exact dropBlankEnd_append (lettered_base hbase).visible (ne_nil_of_base hbase) _

theorem list_eq_known_iff {r : Reading} : r.list = .known t ↔ ∃ u, t = .list u ∧ r = .known u := by
  cases r <;> simp [Reading.list, eq_comm]

theorem ofBase_eq_known_iff : ofBase cs = .known t ↔ (cs.map lowerChar, t) ∈ baseNames := by
  unfold ofBase ofBaseName?
  constructor
  · intro h
    split at h
    · next u hbase =>
      cases h
      dsimp only at hbase
      split at hbase
      · next hword =>
        cases hbase
        exact hword ▸ List.mem_cons_self
      split at hbase
      · next hword =>
        cases hbase
        exact hword ▸ List.mem_cons_of_mem _ List.mem_cons_self
      split at hbase
      · next hword =>
        cases hbase
        exact hword ▸ List.mem_cons_of_mem _ (List.mem_cons_of_mem _ List.mem_cons_self)
      · cases hbase
    · cases h
  · intro h
    simp only [baseNames, List.mem_cons, Prod.mk.injEq, List.not_mem_nil, or_false] at h
    rcases h with ⟨hword, rfl⟩ | ⟨hword, rfl⟩ | ⟨hword, rfl⟩ <;>
    · rw [hword]
      rfl

theorem spells_mark_iff (hword : strip cs = mark ++ rest) (hmark : mark.map lowerChar = listMark) :
    Spells (mark ++ rest) t ↔ ∃ u, t = list u ∧ Spells (strip rest) u := by
  rw [spells_iff]
  constructor
  · rintro (hbase | ⟨mark', blanks, rest', u, heq, hmark', hblanks, hspells, rfl⟩)
    · have hheads : ∀ pair ∈ baseNames, pair.1.head? ≠ some 'a' := by decide
      rw [List.map_append, hmark] at hbase
      exact absurd rfl (hheads _ hbase)
    · obtain ⟨-, rfl⟩ := eq_of_cutBytes?_mark (cutBytes?_mark hmark rest) heq hmark'
      exact ⟨u, rfl, by rwa [strip_blanks_append hblanks, hspells.strip_eq]⟩
  · rintro ⟨u, rfl, hspells⟩
    obtain ⟨blanks, hrest, hblanks⟩ := exists_blanks hword
    exact .inr ⟨mark, blanks, strip rest, u, by rw [← hrest], hmark, hblanks, hspells, rfl⟩

theorem exists_cut_of_spells (h : Spells cs t) (hsize : ¬byteSize cs ≤ 6) :
    ∃ front rest, cutBytes? 6 cs = some (front, rest) := by
  rcases spells_iff.mp h with hbase | ⟨mark, blanks, rest, u, rfl, hmark, -⟩
  · have hletters := lettered_base hbase
    have hfront : byteSize (cs.take 6) = 6 := by
      have htake : Lettered (cs.take 6) := fun c hc => hletters c (List.mem_of_mem_take hc)
      rw [hletters.byteSize_eq] at hsize
      rw [htake.byteSize_eq, List.length_take]
      omega
    have hcut := cutBytes?_byteSize (cs.take 6) (cs.drop 6)
    rw [hfront, List.take_append_drop] at hcut
    exact ⟨_, _, hcut⟩
  · exact ⟨_, _, cutBytes?_mark hmark _⟩

theorem ofChars_eq_known_iff (cs : List Char) : ofChars cs = .known t ↔ Spells (strip cs) t := by
  fun_induction ofChars cs generalizing t
  case case1 cs word hsize =>
    rw [ofBase_eq_known_iff, spells_iff, or_iff_left]
    rintro ⟨mark, blanks, rest, u, hcs, hmark, -, hspells, -⟩
    have hsize : byteSize (strip cs) ≤ 6 := hsize
    rw [hcs, byteSize_append, byteSize_append, byteSize_mark hmark] at hsize
    have hrest := byteSize_pos hspells.ne_nil
    omega
  case case2 cs word hsize hcut =>
    constructor
    · intro h
      cases h
    · intro hspells
      obtain ⟨front, rest, hsome⟩ := exists_cut_of_spells hspells hsize
      cases hcut.symm.trans hsome
  case case3 cs word hsize front rest hcut hmark ih =>
    have hword : strip cs = front ++ rest := (cutBytes?_append hcut).symm
    rw [list_eq_known_iff, hword, spells_mark_iff hword hmark]
    exact exists_congr fun u => and_congr_right fun _ => ih
  case case4 cs word hsize front rest hcut hmark =>
    rw [ofBase_eq_known_iff, spells_iff, or_iff_left]
    rintro ⟨mark, blanks, rest', u, hcs, hmark', -⟩
    exact hmark ((eq_of_cutBytes?_mark hcut hcs hmark').1 ▸ hmark')

/-! ## Broken readings -/

theorem ofBase_ne_broken (cs : List Char) : ofBase cs ≠ .broken := by
  intro h
  unfold ofBase at h
  split at h <;> cases h

theorem list_eq_broken_iff {r : Reading} : r.list = .broken ↔ r = .broken := by
  cases r <;> simp [Reading.list]

theorem breaks_iff : Breaks cs ↔ (6 < byteSize (strip cs) ∧ cutBytes? 6 (strip cs) = none) ∨
    ∃ mark rest, strip cs = mark ++ rest ∧ 6 < byteSize (strip cs) ∧ mark.map lowerChar = listMark ∧
      Breaks rest := by
  have hcut : ∀ word, ¬String.Pos.Raw.IsValid (String.ofList word) ⟨6⟩ ↔ cutBytes? 6 word = none := by
    intro word
    rw [isValid_iff, Option.eq_none_iff_forall_ne_some]
    simp
  simp only [Breaks, hcut, ← utf8ByteSize_ofList]
  constructor
  · rintro ⟨word, hremains, hlong, hnone⟩
    cases hremains with
    | whole => exact .inl ⟨hlong, hnone⟩
    | behind h hlong' hmark hword => exact .inr ⟨_, _, h, hlong', hmark, word, hword, hlong, hnone⟩
  · rintro (⟨hlong, hnone⟩ | ⟨mark, rest, h, hlong', hmark, word, hword, hlong, hnone⟩)
    · exact ⟨_, .whole cs, hlong, hnone⟩
    · exact ⟨word, .behind h hlong' hmark hword, hlong, hnone⟩

theorem ofChars_eq_broken_iff (cs : List Char) : ofChars cs = .broken ↔ Breaks cs := by
  fun_induction ofChars cs
  case case1 cs word hsize =>
    refine iff_of_false (ofBase_ne_broken _) fun hbreaks => ?_
    rcases breaks_iff.mp hbreaks with ⟨hlong, -⟩ | ⟨-, -, -, hlong, -⟩
    · exact absurd hsize (Nat.not_le.mpr hlong)
    · exact absurd hsize (Nat.not_le.mpr hlong)
  case case2 cs word hsize hcut =>
    exact iff_of_true rfl (breaks_iff.mpr (.inl ⟨Nat.not_le.mp hsize, hcut⟩))
  case case3 cs word hsize front rest hcut hmark ih =>
    rw [list_eq_broken_iff, ih, @breaks_iff cs]
    constructor
    · exact fun h => .inr ⟨front, rest, (cutBytes?_append hcut).symm, Nat.not_le.mp hsize, hmark, h⟩
    · rintro (⟨-, hnone⟩ | ⟨mark, rest', hword, -, hmark', h⟩)
      · cases hcut.symm.trans hnone
      · exact (eq_of_cutBytes?_mark hcut hword hmark').2 ▸ h
  case case4 cs word hsize front rest hcut hmark =>
    refine iff_of_false (ofBase_ne_broken _) fun hbreaks => ?_
    rcases breaks_iff.mp hbreaks with ⟨-, hnone⟩ | ⟨mark, rest', hword, -, hmark', -⟩
    · cases hcut.symm.trans hnone
    · exact hmark ((eq_of_cutBytes?_mark hcut hword hmark').1 ▸ hmark')

/-! ## Types and their names -/

theorem ofName_trim (name : String) : ofName (Text.trim name) = ofName name := by
  unfold ofName
  rw [Text.toList_trim, ofChars, Text.strip_strip, ← ofChars]

theorem isConcrete_iterate {b : Ty} (k : Nat) : (list^[k] b).isConcrete = b.isConcrete := by
  induction k with
  | zero => rfl
  | succ k ih => rw [Function.iterate_succ_apply', isConcrete, ih]

theorem isConcrete_of_ofName {name : String} (h : ofName name = .known t) : t.isConcrete = true := by
  obtain ⟨marks, base, b, -, -, hbase, rfl⟩ := (ofChars_eq_known_iff _).mp h
  have hconcrete : ∀ pair ∈ baseNames, pair.2.isConcrete = true := by decide
  rw [isConcrete_iterate]
  exact hconcrete _ hbase

theorem spells_of_name? {name : String} (h : t.name? = some name) : Spells name.toList t := by
  induction t generalizing name with
  | captured => cases h
  | list element ih =>
    obtain ⟨rest, hrest, rfl⟩ := Option.map_eq_some_iff.mp h
    refine spells_iff.mpr (.inr ⟨"Array_".toList, [], rest.toList, element, ?_, by decide, List.forall_mem_nil _,
      ih hrest, rfl⟩)
    rw [String.toList_append, List.nil_append]
  | number | boolean | text =>
    cases h
    exact spells_iff.mpr (.inl (by decide))

theorem ofName_of_name? {name : String} (h : t.name? = some name) : ofName name = .known t := by
  have hspells := spells_of_name? h
  rw [ofName, ofChars_eq_known_iff, hspells.strip_eq]
  exact hspells

theorem name?_eq_none_iff : t.name? = none ↔ ∃ k, t = list^[k] captured := by
  constructor
  · intro h
    induction t with
    | captured => exact ⟨0, rfl⟩
    | list element ih =>
      obtain ⟨k, rfl⟩ := ih (Option.map_eq_none_iff.mp h)
      exact ⟨k + 1, (Function.iterate_succ_apply' list k captured).symm⟩
    | number | boolean | text => cases h
  · rintro ⟨k, rfl⟩
    induction k with
    | zero => rfl
    | succ k ih => rw [Function.iterate_succ_apply', name?, ih, Option.map_none]

/-- A type has a name unless a placeholder is in it, and is read from its name. A text is read as a type exactly if it
spells this type, its reading is broken exactly if a word that remains of it cannot be cut, and it says nothing
otherwise. -/
theorem ofName_follows_grammar (t : Ty) (s : String) :
    (t.name? = none ↔ ∃ k, t = list^[k] captured) ∧
    (∀ name, t.name? = some name → ofName name = .known t) ∧
    (ofName s = .known t ↔ Spells (Text.strip s.toList) t) ∧
    (ofName s = .broken ↔ Breaks s.toList) ∧
    (ofName s = .unknown ↔ (∀ u, ¬Spells (Text.strip s.toList) u) ∧ ¬Breaks s.toList) := by
  refine ⟨name?_eq_none_iff, fun _ => ofName_of_name?, ofChars_eq_known_iff _, ofChars_eq_broken_iff _, ?_⟩
  simp only [← ofChars_eq_known_iff, ← ofChars_eq_broken_iff, ofName]
  cases ofChars s.toList <;> simp

example : ofName "  aRRay_ \u00a0Array_NUMBER\n" = .known (.list (.list .number)) := by
  decide +kernel

example : ofName "Array_aaaaa\u00e4" = .broken := by
  decide +kernel

end Blockwork.Ty
