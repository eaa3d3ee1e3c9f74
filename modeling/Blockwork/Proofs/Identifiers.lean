import Blockwork.Proofs.Acceptance
import Blockwork.Source.Basic

/-! # Identifiers and the names that sources use

A variable gets an identifier that is made of its name. It is never a reserved word, but sources use some names that
are not reserved.
-/

namespace Blockwork

set_option autoImplicit false

namespace Source.Names

/-! ## Numbers behind identifiers -/

def numbered (base : String) (k : Nat) : String :=
  base ++ "_" ++ Text.natText k

theorem numbered_injective (base : String) : Function.Injective (numbered base) :=
  Block.append_natText_injective (base ++ "_")

theorem exists_numbered_notMem (taken : List String) (base : String) :
    ∃ k < taken.length + 1, numbered base (k + 2) ∉ taken := by
  apply Block.exists_notMem_of_injective
  intro i j hij
  have hsum := numbered_injective base hij
  omega

theorem free_of_notMem {taken : List String} {base : String} (h : base ∉ taken) : free taken base = base := by
  simp [free, h]

theorem free_of_mem {taken : List String} {base : String} (h : base ∈ taken) :
    ∃ k, free taken base = numbered base (k + 2) ∧ numbered base (k + 2) ∉ taken := by
  have hcontains : taken.contains base = true := by simpa using h
  cases hfind : (List.range (taken.length + 1)).find? fun k => !taken.contains (base ++ "_" ++ Text.natText (k + 2)) with
  | none =>
    obtain ⟨k, hk, hfree⟩ := exists_numbered_notMem taken base
    have htaken := List.find?_eq_none.mp hfind k (List.mem_range.mpr hk)
    exact absurd (by simpa [numbered] using htaken) hfree
  | some k =>
    refine ⟨k, ?_, ?_⟩
    · rw [free, if_pos hcontains, hfind]
      rfl
    · simpa [numbered] using List.find?_some hfind

theorem free_notMem (taken : List String) (base : String) : free taken base ∉ taken := by
  by_cases h : base ∈ taken
  · obtain ⟨k, heq, hk⟩ := free_of_mem h
    rw [heq]
    exact hk
  · rw [free_of_notMem h]
    exact h

/-! ## Assigned identifiers -/

variable {reserved : List String} {names : List String} {s : String}

theorem keys_assignFrom (done : List (String × String)) :
    (assignFrom reserved done names).map Prod.fst = (done.map Prod.fst).reverse ++ names := by
  induction names generalizing done with
  | nil => simp [assignFrom]
  | cons name rest ih =>
    rw [assignFrom, ih]
    simp

theorem notMem_reserved_of_assignFrom {done : List (String × String)} (hdone : ∀ pair ∈ done, pair.2 ∉ reserved) :
    ∀ pair ∈ assignFrom reserved done names, pair.2 ∉ reserved := by
  induction names generalizing done with
  | nil =>
    intro pair hpair
    exact hdone pair (List.mem_reverse.mp hpair)
  | cons name rest ih =>
    rw [assignFrom]
    apply ih
    intro pair hpair
    rcases List.mem_cons.mp hpair with rfl | hpair
    · intro hmem
      exact free_notMem _ _ (List.mem_append_right _ hmem)
    · exact hdone pair hpair

theorem mem_assignFrom_iff (hs : s ∉ reserved) (hplain : ∀ base k, s ≠ numbered base k)
    (done : List (String × String)) :
    s ∈ (assignFrom reserved done names).map Prod.snd ↔
      s ∈ done.map Prod.snd ∨ ∃ name ∈ names, identifier reserved name = s := by
  induction names generalizing done with
  | nil => simp [assignFrom]
  | cons name rest ih =>
    have hstep : s = free (done.map Prod.snd ++ reserved) (identifier reserved name) ∨ s ∈ done.map Prod.snd ↔
        s ∈ done.map Prod.snd ∨ identifier reserved name = s := by
      by_cases htaken : identifier reserved name ∈ done.map Prod.snd ++ reserved
      · obtain ⟨k, heq, -⟩ := free_of_mem htaken
        rw [heq, or_iff_right (hplain _ _)]
        refine ⟨.inl, ?_⟩
        rintro (hdone | rfl)
        · exact hdone
        · exact (List.mem_append.mp htaken).resolve_right hs
      · rw [free_of_notMem htaken, or_comm, eq_comm]
    rw [assignFrom, ih, List.map_cons, List.mem_cons, hstep, or_assoc, List.exists_mem_cons_iff]

end Source.Names

theorem nodup_firstOccurrences (seen : List String) (vars : List Var) :
    ((firstOccurrences seen vars).map Var.name).Nodup ∧ ∀ v ∈ firstOccurrences seen vars, v.name ∉ seen := by
  induction vars generalizing seen with
  | nil => simp [firstOccurrences]
  | cons v rest ih =>
    by_cases hv : v.name ∈ seen
    · simpa [firstOccurrences, hv] using ih seen
    · obtain ⟨hnodup, hseen⟩ := ih (v.name :: seen)
      have hfirst : firstOccurrences seen (v :: rest) = v :: firstOccurrences (v.name :: seen) rest := by
        simp [firstOccurrences, hv]
      rw [hfirst, List.map_cons, List.nodup_cons]
      refine ⟨⟨?_, hnodup⟩, ?_⟩
      · intro hmem
        obtain ⟨w, hw, hname⟩ := List.mem_map.mp hmem
        exact hseen w hw (hname ▸ List.mem_cons_self)
      · intro w hw
        rcases List.mem_cons.mp hw with rfl | hw
        · exact hv
        · intro hmem
          exact hseen w hw (List.mem_cons_of_mem _ hmem)

namespace Source.Names

variable {reserved : List String} {vars : List Var}

theorem keys_assign : Dict.keys (assign reserved vars).assigned = vars.map Var.name := by
  rw [Dict.keys, assign, keys_assignFrom]
  rfl

theorem mem_assigned_of_mem {v : Var} (hv : v ∈ vars) :
    (v.name, (assign reserved vars).get v.name) ∈ (assign reserved vars).assigned := by
  have hkey : v.name ∈ Dict.keys (assign reserved vars).assigned := by
    rw [keys_assign]
    exact List.mem_map_of_mem hv
  obtain ⟨ident, hident⟩ := Option.isSome_iff_exists.mp (Dict.isSome_get?_iff.mpr hkey)
  rw [get, hident]
  exact Dict.mem_of_get? hident

theorem get_notMem_reserved {v : Var} (hv : v ∈ vars) : (assign reserved vars).get v.name ∉ reserved :=
  notMem_reserved_of_assignFrom (List.forall_mem_nil _) _ (mem_assigned_of_mem hv)

theorem exists_get_iff (hvars : (vars.map Var.name).Nodup) {s : String} (hs : s ∉ reserved)
    (hplain : ∀ base k, s ≠ numbered base k) :
    (∃ v ∈ vars, (assign reserved vars).get v.name = s) ↔ ∃ v ∈ vars, identifier reserved v.name = s := by
  have hidents : s ∈ (assign reserved vars).assigned.map Prod.snd ↔ ∃ v ∈ vars, identifier reserved v.name = s := by
    rw [assign, mem_assignFrom_iff hs hplain]
    simp
  rw [← hidents]
  constructor
  · rintro ⟨v, hv, rfl⟩
    exact List.mem_map_of_mem (mem_assigned_of_mem hv)
  · intro hmem
    obtain ⟨pair, hpair, rfl⟩ := List.mem_map.mp hmem
    have hkey : pair.1 ∈ Dict.keys (assign reserved vars).assigned := List.mem_map_of_mem hpair
    have hnodup : (Dict.keys (assign reserved vars).assigned).Nodup := by
      rw [keys_assign]
      exact hvars
    rw [keys_assign] at hkey
    obtain ⟨v, hv, hname⟩ := List.mem_map.mp hkey
    refine ⟨v, hv, ?_⟩
    rw [get, hname, Dict.get?_of_mem hnodup hpair]

/-! ## Identifiers without a number -/

def stem (s : String) : List Char :=
  s.toList.rdropWhile Text.isDigit

theorem stem_append_natText (s : String) (n : Nat) : stem (s ++ Text.natText n) = stem s := by
  have hdigits : ∀ cs : List Char, (∀ c ∈ cs, Text.isDigit c = true) →
      (s.toList ++ cs).rdropWhile Text.isDigit = s.toList.rdropWhile Text.isDigit := by
    intro cs
    induction cs using List.reverseRecOn with
    | nil => simp
    | append_singleton cs c ih =>
      intro hcs
      rw [← List.append_assoc, List.rdropWhile_concat_pos _ _ _ (hcs c (by simp))]
      exact ih fun d hd => hcs d (List.mem_append_left _ hd)
  rw [stem, String.toList_append, Text.natText, String.toList_ofList]
  exact hdigits _ fun c hc => Text.isDigit_of_mem hc

theorem stem_numbered (base : String) (k : Nat) : stem (numbered base k) = base.toList ++ ['_'] := by
  rw [numbered, stem_append_natText, stem, String.toList_append]
  exact List.rdropWhile_concat_neg _ _ _ (by decide)

theorem ne_numbered_of_stem {s : String} (h : (stem s).getLast? ≠ some '_') (base : String) (k : Nat) :
    s ≠ numbered base k := by
  rintro rfl
  rw [stem_numbered] at h
  simp at h

theorem underscore_ne_numbered (base : String) (k : Nat) : "_" ≠ numbered base k := by
  intro h
  have hlength := congrArg (fun s : String => s.toList.length) h
  have hdigits := List.length_pos_iff.mpr (Text.digitsOf_ne_nil k)
  simp [numbered, Text.natText] at hlength
  omega

end Source.Names

/-! ## Names that sources use -/

def Python.ownNames : List String :=
  ["print", "len", "str", "abs", "int", "range", "math", "time", "blockly_range", "_"]

def Arduino.ownNames : List String :=
  ["setup", "loop", "Serial", "String", "delay", "pow", "sqrt", "fabs", "log", "log10", "exp", "std"]

def Arduino.IsTemporary (s : String) : Prop :=
  ∃ depth, s = "_k" ++ Text.natText depth ∨ s = "_item" ++ Text.natText depth

namespace Target

def reserved : Target → List String
  | .python => Python.reserved
  | .arduino => Arduino.reserved

def names (target : Target) (roots : List Root) : Source.Names :=
  Source.Names.assign target.reserved (variablesOf roots)

/-- Whether sources use a name by themselves. -/
def Uses : Target → String → Prop
  | .python, s => s ∈ Python.ownNames
  | .arduino, s => s ∈ Arduino.ownNames ∨ Arduino.IsTemporary s

/-- Whether a name that sources use is not reserved. -/
def Unguarded : Target → String → Prop
  | .python, s => s = "int" ∨ s = "_"
  | .arduino, s => Arduino.IsTemporary s

theorem ne_numbered_of_unguarded {target : Target} {s : String} (h : target.Unguarded s) (base : String) (k : Nat) :
    s ≠ Source.Names.numbered base k := by
  cases target with
  | python =>
    rcases h with rfl | rfl
    · exact Source.Names.ne_numbered_of_stem (by decide) base k
    · exact Source.Names.underscore_ne_numbered base k
  | arduino =>
    apply Source.Names.ne_numbered_of_stem
    obtain ⟨depth, rfl | rfl⟩ := h
    · rw [Source.Names.stem_append_natText]
      decide
    · rw [Source.Names.stem_append_natText]
      decide

theorem notMem_reserved_of_unguarded {target : Target} {s : String} (h : target.Unguarded s) :
    s ∉ target.reserved := by
  cases target with
  | python => rcases h with rfl | rfl <;> decide
  | arduino =>
    have hfirst : ∀ word ∈ Arduino.reserved, word.toList.head? ≠ some '_' := by decide
    intro hmem
    apply hfirst s hmem
    obtain ⟨depth, rfl | rfl⟩ := h <;> simp

theorem uses_iff {target : Target} {s : String} (h : s ∉ target.reserved) : target.Uses s ↔ target.Unguarded s := by
  cases target with
  | python =>
    have hown : ∀ word ∈ Python.ownNames, word ∈ Python.reserved ∨ word = "int" ∨ word = "_" := by decide
    constructor
    · intro huses
      exact (hown s huses).resolve_left h
    · rintro (rfl | rfl) <;> simp [Uses, Python.ownNames]
  | arduino =>
    have hown : ∀ word ∈ Arduino.ownNames, word ∈ Arduino.reserved := by decide
    exact or_iff_right fun huses => h (hown s huses)

end Target

namespace Source

/-- A variable gets a name that the source uses only if the name is not reserved, and one does as soon as the name of
a variable comes out as such a name. -/
theorem captures_iff (target : Target) (options : Options) (p : Program) (s : String) :
    (target.Uses s ∧
      ∃ v ∈ variablesOf (activeRoots options p), (target.names (activeRoots options p)).get v.name = s) ↔
    (target.Unguarded s ∧
      ∃ v ∈ variablesOf (activeRoots options p), identifier target.reserved v.name = s) := by
  have hvars : ((variablesOf (activeRoots options p)).map Var.name).Nodup := (nodup_firstOccurrences [] _).1
  constructor
  · rintro ⟨huses, v, hv, hget⟩
    have hs : s ∉ target.reserved := hget ▸ Names.get_notMem_reserved hv
    have hunguarded := (Target.uses_iff hs).mp huses
    refine ⟨hunguarded, ?_⟩
    exact (Names.exists_get_iff hvars hs (Target.ne_numbered_of_unguarded hunguarded)).mp ⟨v, hv, hget⟩
  · rintro ⟨hunguarded, hident⟩
    have hs := Target.notMem_reserved_of_unguarded hunguarded
    refine ⟨(Target.uses_iff hs).mpr hunguarded, ?_⟩
    exact (Names.exists_get_iff hvars hs (Target.ne_numbered_of_unguarded hunguarded)).mpr hident

end Source

namespace Program

/-- A loop that is repeated as often as a variable says. -/
def repeatingBlock (name : String) : Block :=
  { tag := Tag.repeat.name, attrs := { id := "a" }, values := [("TIMES", readingBlock "b" name)] }

/-- The function that makes an integer is called on the variable that has taken its name, and the counter of a loop
is the variable that the loop is to count to. -/
theorem captures_int_and_counter :
    (∃ p, ofBlocks [repeatingBlock "int"] false = .ok p ∧
      Source.generate .python {} p = .ok "for _ in range(int(int)):\n    pass\n" ∧
      (Target.python.names (Source.activeRoots {} p)).get "int" = "int") ∧
    (∃ p, ofBlocks [repeatingBlock "_k1"] false = .ok p ∧
      Source.generate .arduino {} p = .ok ("#include <Arduino.h>\n\ndouble _k1;\n\nvoid setup() \x7b\n"
        ++ "    Serial.begin(9600);\n    for (int _k1 = 0; _k1 < _k1; _k1++) \x7b\n    \x7d\n\x7d\n\nvoid loop() \x7b\n\x7d\n") ∧
      (Target.arduino.names (Source.activeRoots {} p)).get "_k1" = "_k1") := by
  constructor
  · apply exists_of_any [repeatingBlock "int"]
    decide +kernel
  · apply exists_of_any [repeatingBlock "_k1"]
    decide +kernel

end Program

end Blockwork
