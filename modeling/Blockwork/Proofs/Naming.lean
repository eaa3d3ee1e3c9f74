import Blockwork.Proofs.SourceTexts

/-! # One identifier for each variable

A variable gets the first of a sequence of candidates that is neither reserved nor the identifier of a variable
before it.
-/

namespace Blockwork.Source

set_option autoImplicit false

/-! ## Words -/

/-- A letter or an underscore, and then letters, digits and underscores. -/
def IsWord (s : String) : Prop :=
  ∃ c cs, s.toList = c :: cs ∧ (Text.isLetter c = true ∨ c = '_') ∧ ∀ d ∈ cs, isIdentChar d = true

theorem isWord_of_isIdentifier {s : String} {c : Char} {cs : List Char} (h : IsIdentifier s)
    (hs : s.toList = c :: cs) (hc : Text.isDigit c = false) : IsWord s := by
  have hchars : ∀ d ∈ c :: cs, isIdentChar d = true := by
    rw [← hs]
    exact h.chars
  refine ⟨c, cs, hs, ?_, fun d hd => hchars d (List.mem_cons_of_mem c hd)⟩
  simpa [isIdentChar, hc] using hchars c List.mem_cons_self

theorem IsWord.append {s t : String} (hs : IsWord s) (ht : ∀ c ∈ t.toList, isIdentChar c = true) :
    IsWord (s ++ t) := by
  obtain ⟨c, cs, heq, hc, hcs⟩ := hs
  refine ⟨c, cs ++ t.toList, by rw [String.toList_append, heq, List.cons_append], hc, ?_⟩
  intro d hd
  rcases List.mem_append.mp hd with hd | hd
  · exact hcs d hd
  · exact ht d hd

theorem isWord_withStart {cs : List Char} (h : ∀ c ∈ cs, isIdentChar c = true) :
    IsWord (String.ofList (withStart cs)) := by
  have hident := isIdentifier_withStart h
  cases cs with
  | nil => exact isWord_of_isIdentifier hident (String.toList_ofList) (by decide)
  | cons c cs =>
    by_cases hc : Text.isDigit c = true
    · have hstart : withStart (c :: cs) = '_' :: c :: cs := by simp [withStart, hc]
      rw [hstart] at hident ⊢
      exact isWord_of_isIdentifier hident (String.toList_ofList) (by decide)
    · have hstart : withStart (c :: cs) = c :: cs := by simp [withStart, hc]
      rw [hstart] at hident ⊢
      exact isWord_of_isIdentifier hident (String.toList_ofList) (by simpa using hc)

theorem isWord_identifier (reserved : List String) (name : String) : IsWord (identifier reserved name) := by
  have hbare := isWord_withStart fun c (hc : c ∈ squash false (Text.strip name.toList)) =>
    isIdentChar_of_mem_squash hc
  unfold identifier
  simp only
  split
  · exact hbare.append (by simp [isIdentChar])
  · exact hbare

namespace Names

/-! ## Candidates -/

/-- The identifiers that are tried: `base`, and then `base` with the numbers from 2 on behind it. -/
def candidate (base : String) : Nat → String
  | 0 => base
  | k + 1 => numbered base (k + 2)

theorem isWord_candidate {base : String} (h : IsWord base) (n : Nat) : IsWord (candidate base n) := by
  cases n with
  | zero => exact h
  | succ k =>
    refine (h.append (by simp [isIdentChar])).append ?_
    intro c hc
    rw [Text.natText, String.toList_ofList] at hc
    exact isIdentChar_of_isDigit (Text.isDigit_of_mem hc)

theorem ne_numbered (base : String) (k : Nat) : base ≠ numbered base k := by
  intro h
  have hlength := congrArg (fun s : String => s.toList.length) h
  simp [numbered] at hlength

theorem candidate_injective (base : String) : Function.Injective (candidate base) := by
  intro i j hij
  cases i with
  | zero =>
    cases j with
    | zero => rfl
    | succ j => exact absurd hij (ne_numbered base (j + 2))
  | succ i =>
    cases j with
    | zero => exact absurd hij.symm (ne_numbered base (i + 2))
    | succ j =>
      have hsum := numbered_injective base hij
      omega

theorem free_eq_candidate {taken : List String} {base : String} {n : Nat} (hn : n ≤ taken.length)
    (hfree : candidate base n ∉ taken) (htaken : ∀ m < n, candidate base m ∈ taken) :
    free taken base = candidate base n := by
  cases n with
  | zero => exact free_of_notMem hfree
  | succ k =>
    have hbase : taken.contains base = true := by simpa [candidate] using htaken 0 (Nat.succ_pos k)
    have hfind : (List.range (taken.length + 1)).find? (fun k =>
        !taken.contains (base ++ "_" ++ Text.natText (k + 2))) = some k := by
      rw [List.find?_range_eq_some]
      refine ⟨by simpa [candidate, numbered] using hfree, List.mem_range.mpr (by omega), ?_⟩
      intro j hj
      simpa [candidate, numbered] using htaken (j + 1) (by omega)
    rw [free, if_pos hbase, hfind]
    rfl

theorem exists_first_candidate (taken : List String) (base : String) :
    ∃ n ≤ taken.length, free taken base = candidate base n ∧ candidate base n ∉ taken ∧
      ∀ m < n, candidate base m ∈ taken := by
  obtain ⟨k, hk, hkfree⟩ := Block.exists_notMem_of_injective (candidate_injective base) taken
  have hexists : ∃ k, candidate base k ∉ taken := ⟨k, hkfree⟩
  have hle : Nat.find hexists ≤ taken.length := by
    have hmin := Nat.find_min' hexists hkfree
    omega
  have hfree := Nat.find_spec hexists
  have htaken : ∀ m < Nat.find hexists, candidate base m ∈ taken := by
    intro m hm
    exact not_not.mp (Nat.find_min hexists hm)
  exact ⟨Nat.find hexists, hle, free_eq_candidate hle hfree htaken, hfree, htaken⟩

/-! ## Identifiers that are assigned -/

variable (reserved : List String) {vars : List Var}

theorem reverse_prefix_assignFrom (done : List (String × String)) (names : List String) :
    done.reverse <+: assignFrom reserved done names := by
  induction names generalizing done with
  | nil => exact List.prefix_rfl
  | cons name rest ih =>
    have hdone : done.reverse <+: ((name, free (done.map Prod.snd ++ reserved) (identifier reserved name)) ::
        done).reverse := by
      rw [List.reverse_cons]
      exact List.prefix_append _ _
    exact hdone.trans (ih _)

theorem assignFrom_split (done : List (String × String)) (names : List String) (name : String) (rest : List String) :
    ∃ earlier later, assignFrom reserved done (names ++ name :: rest) =
        earlier ++ (name, free ((earlier.map Prod.snd).reverse ++ reserved) (identifier reserved name)) :: later ∧
      earlier.map Prod.fst = (done.map Prod.fst).reverse ++ names := by
  induction names generalizing done with
  | nil =>
    obtain ⟨later, hlater⟩ := reverse_prefix_assignFrom reserved
      ((name, free (done.map Prod.snd ++ reserved) (identifier reserved name)) :: done) rest
    refine ⟨done.reverse, later, ?_, by simp⟩
    rw [List.nil_append, assignFrom, ← hlater]
    simp
  | cons first names ih =>
    obtain ⟨earlier, later, heq, hkeys⟩ :=
      ih ((first, free (done.map Prod.snd ++ reserved) (identifier reserved first)) :: done)
    exact ⟨earlier, later, heq, by rw [hkeys]; simp⟩

theorem nodup_assignFrom {done : List (String × String)} (hdone : (done.map Prod.snd).Nodup) (names : List String) :
    ((assignFrom reserved done names).map Prod.snd).Nodup := by
  induction names generalizing done with
  | nil =>
    rw [assignFrom, List.map_reverse]
    exact List.nodup_reverse.mpr hdone
  | cons name rest ih =>
    rw [assignFrom]
    apply ih
    rw [List.map_cons, List.nodup_cons]
    refine ⟨?_, hdone⟩
    intro hmem
    exact free_notMem _ _ (List.mem_append_left _ hmem)

theorem get_injective {v w : Var} (hv : v ∈ vars) (hw : w ∈ vars)
    (h : (assign reserved vars).get v.name = (assign reserved vars).get w.name) : v.name = w.name := by
  have hnodup : ((assign reserved vars).assigned.map Prod.snd).Nodup := by
    apply nodup_assignFrom
    exact List.nodup_nil
  have hpairs := List.inj_on_of_nodup_map hnodup (mem_assigned_of_mem hv) (mem_assigned_of_mem hw) h
  exact congrArg Prod.fst hpairs

theorem get_eq_free (hvars : (vars.map Var.name).Nodup) {before after : List Var} {v : Var}
    (h : vars = before ++ v :: after) :
    (assign reserved vars).get v.name =
      free ((before.map fun w => (assign reserved vars).get w.name).reverse ++ reserved)
        (identifier reserved v.name) := by
  have hkeys : (Dict.keys (assign reserved vars).assigned).Nodup := by
    rw [keys_assign]
    exact hvars
  have hget : ∀ pair ∈ (assign reserved vars).assigned, (assign reserved vars).get pair.1 = pair.2 := by
    intro pair hpair
    rw [get, Dict.get?_of_mem hkeys hpair]
  obtain ⟨earlier, later, heq, hearlier⟩ := assignFrom_split reserved []
    (before.map Var.name) v.name (after.map Var.name)
  have hassigned : (assign reserved vars).assigned = earlier ++ (v.name,
      free ((earlier.map Prod.snd).reverse ++ reserved) (identifier reserved v.name)) :: later := by
    rw [← heq, h, assign, List.map_append, List.map_cons]
  have hbefore : earlier.map Prod.snd = before.map fun w => (assign reserved vars).get w.name := by
    have hmap : earlier.map Prod.snd = (earlier.map Prod.fst).map (assign reserved vars).get := by
      rw [List.map_map]
      apply List.map_congr_left
      intro pair hpair
      exact (hget pair (by rw [hassigned]; exact List.mem_append_left _ hpair)).symm
    rw [hmap, hearlier, List.map_nil, List.reverse_nil, List.nil_append, List.map_map]
    rfl
  rw [← hbefore]
  exact hget (v.name, _) (by rw [hassigned]; exact List.mem_append_right _ List.mem_cons_self)

theorem exists_candidate (hvars : (vars.map Var.name).Nodup) {before after : List Var} {v : Var}
    (h : vars = before ++ v :: after) :
    ∃ n ≤ before.length + reserved.length,
      (assign reserved vars).get v.name = candidate (identifier reserved v.name) n ∧
      ∀ m < n, candidate (identifier reserved v.name) m ∈ reserved ∨
        ∃ w ∈ before, (assign reserved vars).get w.name = candidate (identifier reserved v.name) m := by
  obtain ⟨n, hn, heq, -, htaken⟩ := exists_first_candidate
    ((before.map fun w => (assign reserved vars).get w.name).reverse ++ reserved) (identifier reserved v.name)
  refine ⟨n, by simpa using hn, (get_eq_free reserved hvars h).trans heq, ?_⟩
  intro m hm
  have hmem := htaken m hm
  rw [List.mem_append, List.mem_reverse, List.mem_map] at hmem
  exact hmem.symm

/-- Variables with different names get different words, none of them reserved. Each gets the first candidate that
is neither reserved nor the identifier of a variable before it, and there is one. -/
theorem assign_gives_words (reserved : List String) {vars : List Var} (hvars : (vars.map Var.name).Nodup) :
    (∀ v ∈ vars, IsWord ((assign reserved vars).get v.name) ∧ (assign reserved vars).get v.name ∉ reserved) ∧
    (∀ v ∈ vars, ∀ w ∈ vars, v.name ≠ w.name →
      (assign reserved vars).get v.name ≠ (assign reserved vars).get w.name) ∧
    ∀ before v after, vars = before ++ v :: after →
      ∃ n ≤ before.length + reserved.length,
        (assign reserved vars).get v.name = candidate (identifier reserved v.name) n ∧
        ∀ m < n, candidate (identifier reserved v.name) m ∈ reserved ∨
          ∃ w ∈ before, (assign reserved vars).get w.name = candidate (identifier reserved v.name) m := by
  refine ⟨fun v hv => ⟨?_, get_notMem_reserved hv⟩, ?_, fun before v after => exists_candidate reserved hvars⟩
  · obtain ⟨before, after, hsplit⟩ := List.append_of_mem hv
    obtain ⟨n, -, heq, -⟩ := exists_candidate reserved hvars hsplit
    rw [heq]
    exact isWord_candidate (isWord_identifier reserved v.name) n
  · intro v hv w hw hname heq
    exact hname (get_injective reserved hv hw heq)

def variablesNamed (names : List String) : List Var :=
  names.map fun name => { name, type := .number, attrs := { id := name } }

/-- Names that come out as one identifier, as a reserved word, or as an identifier with a number. -/
def overlapping : List Var :=
  variablesNamed ["my var", "my_var", "my_var_2", "while", "while_", "while__2", " 2 x", "_2?x"]

theorem overlapping_gives_words :
    overlapping.map (fun v => (assign ["while", "while__2"] overlapping).get v.name) =
      ["my_var", "my_var_2", "my_var_2_2", "while_", "while__3", "while__2_", "_2_x", "_2_x_2"] ∧
    ∀ v ∈ overlapping, ∀ w ∈ overlapping, v.name ≠ w.name →
      (assign ["while", "while__2"] overlapping).get v.name ≠ (assign ["while", "while__2"] overlapping).get w.name :=
  ⟨by decide +kernel, (assign_gives_words ["while", "while__2"] (by decide)).2.1⟩

end Names

end Blockwork.Source
