import Blockwork.Proofs.ArduinoForms
import Blockwork.Proofs.Naming
import Blockwork.Proofs.Nodes

/-! # Variables and their declarations

The variables of a program are gathered from its nodes, each where it occurs first. A sketch declares them before its
functions.
-/

namespace Blockwork

set_option autoImplicit false

open Source (IsIdentifier activeRoots)

variable {vars : List Var} {p : Program}

/-! ## First occurrences -/

theorem mem_firstOccurrences_iff {seen : List String} {v : Var} :
    v ∈ firstOccurrences seen vars ↔
      v.name ∉ seen ∧ ∃ before after, vars = before ++ v :: after ∧ ∀ u ∈ before, u.name ≠ v.name := by
  induction vars generalizing seen with
  | nil => simp [firstOccurrences]
  | cons u rest ih =>
    simp only [List.cons_eq_append_iff]
    by_cases hu : u.name ∈ seen
    · rw [firstOccurrences, if_pos (by simpa using hu), ih]
      constructor
      · rintro ⟨hv, before, after, hrest, hbefore⟩
        have hne : u.name ≠ v.name := fun heq => hv (heq ▸ hu)
        exact ⟨hv, u :: before, after, .inr ⟨before, rfl, hrest⟩, List.forall_mem_cons.mpr ⟨hne, hbefore⟩⟩
      · rintro ⟨hv, before, after, ⟨rfl, heq⟩ | ⟨before, rfl, hrest⟩, hbefore⟩
        · cases heq
          exact absurd hu hv
        · exact ⟨hv, before, after, hrest, (List.forall_mem_cons.mp hbefore).2⟩
    · rw [firstOccurrences, if_neg (by simpa using hu), List.mem_cons, ih]
      constructor
      · rintro (rfl | ⟨hv, before, after, hrest, hbefore⟩)
        · exact ⟨hu, [], rest, .inl ⟨rfl, rfl⟩, List.forall_mem_nil _⟩
        · rw [List.mem_cons, not_or] at hv
          exact ⟨hv.2, u :: before, after, .inr ⟨before, rfl, hrest⟩,
            List.forall_mem_cons.mpr ⟨Ne.symm hv.1, hbefore⟩⟩
      · rintro ⟨hv, before, after, ⟨rfl, heq⟩ | ⟨before, rfl, hrest⟩, hbefore⟩
        · cases heq
          exact .inl rfl
        · obtain ⟨hne, hbefore⟩ := List.forall_mem_cons.mp hbefore
          exact .inr ⟨by simp [hv, Ne.symm hne], before, after, hrest, hbefore⟩

theorem pairwise_firstOccurrences (seen : List String) (vars : List Var) :
    (firstOccurrences seen vars).Pairwise fun v w =>
      (vars.map Var.name).idxOf v.name < (vars.map Var.name).idxOf w.name := by
  induction vars generalizing seen with
  | nil => exact .nil
  | cons u rest ih =>
    have hlater : ∀ seen', u.name ∈ seen' → ∀ v ∈ firstOccurrences seen' rest,
        ((u :: rest).map Var.name).idxOf v.name = (rest.map Var.name).idxOf v.name + 1 := by
      intro seen' hseen v hv
      have hne : u.name ≠ v.name := fun heq => (nodup_firstOccurrences seen' rest).2 v hv (heq ▸ hseen)
      rw [List.map_cons, List.idxOf_cons_ne _ hne]
    have hshift : ∀ seen', u.name ∈ seen' → (firstOccurrences seen' rest).Pairwise fun v w =>
        ((u :: rest).map Var.name).idxOf v.name < ((u :: rest).map Var.name).idxOf w.name := by
      intro seen' hseen
      refine (ih seen').imp_of_mem fun {v w} hv hw hlt => ?_
      rw [hlater seen' hseen v hv, hlater seen' hseen w hw]
      omega
    by_cases hu : u.name ∈ seen
    · rw [firstOccurrences, if_pos (by simpa using hu)]
      exact hshift seen hu
    · rw [firstOccurrences, if_neg (by simpa using hu)]
      refine .cons (fun w hw => ?_) (hshift _ List.mem_cons_self)
      rw [hlater _ List.mem_cons_self w hw, List.map_cons, List.idxOf_cons_self]
      omega

theorem exists_firstOccurrence {seen : List String} {w : Var} (hw : w ∈ vars) (hseen : w.name ∉ seen) :
    ∃ v ∈ firstOccurrences seen vars, v.name = w.name := by
  induction vars generalizing seen with
  | nil => cases hw
  | cons u rest ih =>
    by_cases hu : u.name ∈ seen
    · rw [firstOccurrences, if_pos (by simpa using hu)]
      rcases List.mem_cons.mp hw with rfl | hw
      · exact absurd hu hseen
      · exact ih hw hseen
    · rw [firstOccurrences, if_neg (by simpa using hu)]
      by_cases hname : u.name = w.name
      · exact ⟨u, List.mem_cons_self, hname⟩
      · rcases List.mem_cons.mp hw with rfl | hw
        · exact absurd rfl hname
        · have hnew : w.name ∉ u.name :: seen := by simp [hseen, Ne.symm hname]
          obtain ⟨v, hv, heq⟩ := ih hw hnew
          exact ⟨v, List.mem_cons_of_mem _ hv, heq⟩

namespace Arduino

open Source (Names)

/-! ## Lines inside functions -/

variable {names : Names}

mutual

theorem depth_le_of_mem_braces (depth : Nat) : (t : Shape) → ∀ l ∈ braces depth t, depth ≤ l.depth
  | .simple text => by simp [braces]
  | .compound clauses => by
    rw [braces]
    exact List.forall_mem_append.mpr
      ⟨depth_le_of_mem_bracesClauses depth clauses, List.forall_mem_singleton.mpr le_rfl⟩

theorem depth_le_of_mem_bracesClauses (depth : Nat) :
    (clauses : List (String × List Shape)) → ∀ l ∈ bracesClauses depth clauses, depth ≤ l.depth
  | [] => by simp [bracesClauses]
  | (header, body) :: rest => by
    rw [bracesClauses]
    have hbody : ∀ l ∈ bracesAll (depth + 1) body, depth ≤ l.depth := fun l hl =>
      (Nat.le_succ depth).trans (depth_le_of_mem_bracesAll (depth + 1) body l hl)
    exact List.forall_mem_cons.mpr
      ⟨le_rfl, List.forall_mem_append.mpr ⟨hbody, depth_le_of_mem_bracesClauses depth rest⟩⟩

theorem depth_le_of_mem_bracesAll (depth : Nat) : (body : List Shape) → ∀ l ∈ bracesAll depth body, depth ≤ l.depth
  | [] => by simp [bracesAll]
  | t :: rest => by
    rw [bracesAll]
    exact List.forall_mem_append.mpr ⟨depth_le_of_mem_braces depth t, depth_le_of_mem_bracesAll depth rest⟩

end

/-! ## Declarations -/

/-- Whether a line outside of functions declares an identifier, of whatever type. -/
def declares (ident : String) (l : Line) : Bool :=
  l.depth = 0 && (' ' :: (ident.toList ++ [';'])).isSuffixOf l.text.toList

variable {ident : String} {l : Line} {v : Var} {lines : List Line}

theorem declares_of_deep (h : 1 ≤ l.depth) : declares ident l = false := by
  have hne : l.depth ≠ 0 := by omega
  simp [declares, hne]

theorem declares_of_getLast? (h : l.text.toList.getLast? ≠ some ';') : declares ident l = false := by
  rw [declares, Bool.and_eq_false_iff]
  right
  by_contra hsuffix
  rw [Bool.not_eq_false, List.isSuffixOf_iff_suffix] at hsuffix
  obtain ⟨start, hstart⟩ := hsuffix
  apply h
  rw [← hstart, ← List.cons_append, ← List.append_assoc, List.getLast?_concat]

theorem eq_of_suffix_blank {a b s t : List Char} (ha : ' ' ∉ a) (hb : ' ' ∉ b)
    (h : s ++ ' ' :: a = t ++ ' ' :: b) : a = b := by
  have htake : ∀ {c r : List Char}, ' ' ∉ c → (r ++ ' ' :: c).reverse.takeWhile (· ≠ ' ') = c.reverse := by
    intro c r hc
    rw [List.reverse_append, List.reverse_cons, List.append_assoc, List.takeWhile_append_of_pos]
    · simp
    · intro x hx
      have hne : x ≠ ' ' := by
        rintro rfl
        exact hc (List.mem_reverse.mp hx)
      simpa using hne
  have hreverse : b.reverse = a.reverse := by
    rw [← htake hb, ← h, htake ha]
  exact (List.reverse_injective hreverse).symm

theorem blank_notMem_of_isIdentifier {s : String} (h : IsIdentifier s) : ' ' ∉ s.toList := by
  intro hmem
  exact absurd (h.chars ' ' hmem) (by decide)

theorem declares_declaration (hident : IsIdentifier ident)
    (hname : IsIdentifier (names.get v.name)) (h : declaration names v = .ok l) :
    declares ident l = true ↔ names.get v.name = ident := by
  obtain ⟨type, -, h⟩ := Except.bind_ok_iff.mp h
  cases h
  have htext : (type ++ " " ++ names.get v.name ++ ";").toList =
      (type.toList ++ ' ' :: (names.get v.name).toList) ++ [';'] := by simp
  simp only [declares, htext, decide_true, Bool.true_and, List.isSuffixOf_iff_suffix]
  constructor
  · rintro ⟨start, hstart⟩
    rw [← List.cons_append, ← List.append_assoc] at hstart
    have heq := List.append_cancel_right hstart
    exact (String.toList_injective (eq_of_suffix_blank (blank_notMem_of_isIdentifier hident)
      (blank_notMem_of_isIdentifier hname) heq)).symm
  · rintro rfl
    exact ⟨type.toList, by simp⟩

theorem typeName_of_ok {id id' name : String} {type : Ty} (h : typeName id type = .ok name) :
    typeName id' type = .ok name := by
  fun_induction typeName id type generalizing name with
  | case1 => exact h
  | case2 => exact h
  | case3 => exact h
  | case4 => cases h
  | case5 element hflat ih =>
    obtain ⟨inner, hinner, hname⟩ := Except.bind_ok_iff.mp h
    rw [typeName, ih hinner]
    · exact hname
    · exact hflat
  | case6 => cases h

theorem forall₂_filter_declares {declarations : List Line} (hnames : ∀ name, IsIdentifier (names.get name))
    (hident : IsIdentifier ident)
    (h : List.Forall₂ (fun v l => declaration names v = .ok l) vars declarations) :
    List.Forall₂ (fun v l => declaration names v = .ok l) (vars.filter fun v => names.get v.name = ident)
      (declarations.filter (declares ident)) := by
  induction h with
  | nil => exact .nil
  | @cons v l vars declarations hl _ ih =>
    have hiff := declares_declaration hident (hnames v.name) hl
    by_cases hv : names.get v.name = ident
    · rw [List.filter_cons_of_pos (by simpa using hv), List.filter_cons_of_pos (hiff.mpr hv)]
      exact .cons hl ih
    · have hnot : ¬declares ident l = true := fun hdeclares => hv (hiff.mp hdeclares)
      rw [List.filter_cons_of_neg (by simpa using hv), List.filter_cons_of_neg hnot]
      exact ih

theorem filter_get {reserved : List String} (hvars : (vars.map Var.name).Nodup) (hv : v ∈ vars) :
    (vars.filter fun u => (Names.assign reserved vars).get u.name = (Names.assign reserved vars).get v.name) = [v] := by
  have hcongr : (vars.filter fun u => (Names.assign reserved vars).get u.name = (Names.assign reserved vars).get v.name) =
      vars.filter (· = v) := by
    apply List.filter_congr
    intro u hu
    have hiff : (Names.assign reserved vars).get u.name = (Names.assign reserved vars).get v.name ↔ u = v := by
      constructor
      · intro hget
        exact List.inj_on_of_nodup_map hvars hu hv (Names.get_injective reserved hu hv hget)
      · rintro rfl
        rfl
    simp [hiff]
  rw [hcongr, List.filter_eq, List.count_eq_one_of_mem hvars.of_map hv]
  rfl

theorem filter_group (p : Line → Bool) (hblank : p { depth := 0, text := "" } = false) :
    (group lines).filter p = lines.filter p := by
  unfold group
  split
  · next hempty => rw [List.isEmpty_iff.mp hempty]
  · rw [List.filter_append, List.filter_cons_of_neg (by simp [hblank]), List.filter_nil, List.append_nil]

theorem exists_of_programLines {options : Source.Options} (h : programLines options p = .ok lines) :
    ∃ bodies declarations,
      (activeRoots options p).mapM (rootLines (Target.arduino.names (activeRoots options p))) = .ok bodies ∧
      (variablesOf (activeRoots options p)).mapM
        (declaration (Target.arduino.names (activeRoots options p))) = .ok declarations ∧
      lines = headingLines (activeRoots options p) (variablesOf (activeRoots options p)) declarations
        ++ [{ depth := 0, text := "void setup() \x7b" }, { depth := 1, text := "Serial.begin(9600);" }]
        ++ bodies.flatten
        ++ [closing 0, { depth := 0, text := "" }, { depth := 0, text := "void loop() \x7b" }, closing 0] := by
  obtain ⟨bodies, hbodies, h⟩ := Except.bind_ok_iff.mp h
  obtain ⟨declarations, hdeclarations, h⟩ := Except.bind_ok_iff.mp h
  exact ⟨bodies, declarations, hbodies, hdeclarations, (Except.pure_ok_iff.mp h).symm⟩

theorem filter_headingLines (roots : List Root) (vars : List Var) (declarations : List Line) (ident : String) :
    (headingLines roots vars declarations).filter (declares ident) = declarations.filter (declares ident) := by
  have hblank : declares ident { depth := 0, text := "" } = false := declares_of_getLast? (by decide)
  have hinclude : declares ident { depth := 0, text := "#include <Arduino.h>" } = false :=
    declares_of_getLast? (by decide)
  have hvector : declares ident { depth := 0, text := "#include <vector>" } = false := declares_of_getLast? (by decide)
  rw [headingLines, List.filter_append, filter_group _ hblank, filter_group _ hblank]
  split <;> simp [hinclude, hvector]

/-- Of all lines of a sketch, just one declares a variable that occurs in it, with the type that the variable has where
it occurs first. -/
theorem filter_programLines {options : Source.Options}
    (hroots : ∀ root ∈ activeRoots options p, root.Writable) (h : programLines options p = .ok lines)
    (hv : v ∈ variablesOf (activeRoots options p)) :
    ∃ type, typeName v.attrs.id v.type = .ok type ∧
      lines.filter (declares ((Target.arduino.names (activeRoots options p)).get v.name)) =
        [{ depth := 0,
           text := type ++ " " ++ (Target.arduino.names (activeRoots options p)).get v.name ++ ";" }] := by
  have hnames : ∀ name, IsIdentifier ((Target.arduino.names (activeRoots options p)).get name) :=
    Names.isIdentifier_get _ _
  have hvars : ((variablesOf (activeRoots options p)).map Var.name).Nodup := (nodup_firstOccurrences [] _).1
  obtain ⟨bodies, declarations, hbodies, hdeclarations, rfl⟩ := exists_of_programLines h
  generalize hident : (Target.arduino.names (activeRoots options p)).get v.name = ident
  have hbody : bodies.flatten.filter (declares ident) = [] := by
    rw [List.filter_eq_nil_iff]
    intro l hl
    obtain ⟨ts, -, hwoven, -⟩ := (weaves_roots hnames hroots).ok hbodies
    simp [declares_of_deep (hwoven.depth_le (depth_le_of_mem_bracesAll 1 ts.flatten) l hl)]
  have hsetup : declares ident { depth := 0, text := "void setup() \x7b" } = false := declares_of_getLast? (by decide)
  have hbegin : declares ident { depth := 1, text := "Serial.begin(9600);" } = false := declares_of_deep le_rfl
  have hclosing : declares ident (closing 0) = false := declares_of_getLast? (by decide)
  have hblank : declares ident { depth := 0, text := "" } = false := declares_of_getLast? (by decide)
  have hloop : declares ident { depth := 0, text := "void loop() \x7b" } = false := declares_of_getLast? (by decide)
  have hdeclared := forall₂_filter_declares hnames (hident ▸ hnames v.name) (Except.mapM_ok_iff.mp hdeclarations)
  have hone : ((variablesOf (activeRoots options p)).filter fun u =>
      (Target.arduino.names (activeRoots options p)).get u.name = ident) = [v] := by
    rw [← hident]
    exact filter_get hvars hv
  rw [hone, List.forall₂_cons_left_iff] at hdeclared
  obtain ⟨l, rest, hl, hrest, hfilter⟩ := hdeclared
  rw [List.forall₂_nil_left_iff] at hrest
  obtain ⟨type, htype, hl⟩ := Except.bind_ok_iff.mp hl
  refine ⟨type, htype, ?_⟩
  simp only [List.filter_append, filter_headingLines, hbody, hfilter, hrest, List.filter_cons, hsetup, hbegin, hclosing,
    hblank, hloop, List.filter_nil]
  rw [← Except.pure_ok_iff.mp hl, hident]
  rfl

end Arduino

namespace Program

theorem type_eq_of_accepted {blocks : List Block} {allowFloating : Bool} (h : ofBlocks blocks allowFloating = .ok p)
    {v w : Var} (hv : v ∈ p.roots.flatMap Root.vars) (hw : w ∈ p.roots.flatMap Root.vars) (hname : w.name = v.name) :
    w.type = v.type := by
  obtain ⟨roots, env, settled, haccepted⟩ := exists_accepted h
  have hsettled : ∀ u ∈ p.roots.flatMap Root.vars, u.type = settled.lookup u.name := by
    intro u hu
    obtain ⟨root, hroot, hu⟩ := List.mem_flatMap.mp hu
    obtain ⟨b, -, hresolved⟩ := exists_of_mem_left haccepted.resolved hroot
    exact (hresolved.2.2 u hu).1
  rw [hsettled w hw, hsettled v hv, hname]

/-- The variables of a program are those of its nodes, each where its name occurs first, in this order. If the program was
accepted, a variable has one type wherever it occurs, and of all lines of a sketch just one declares it, with this
type. -/
theorem variables_listed_and_declared (p : Program) :
    (p.variables.map Var.name).Nodup ∧
    (∀ w ∈ p.nodes.filterMap Node.var?, ∃ v ∈ p.variables, v.name = w.name) ∧
    (∀ v, v ∈ p.variables ↔
      ∃ before after, p.nodes.filterMap Node.var? = before ++ v :: after ∧ ∀ u ∈ before, u.name ≠ v.name) ∧
    (p.variables.Pairwise fun v w =>
      ((p.nodes.filterMap Node.var?).map Var.name).idxOf v.name <
        ((p.nodes.filterMap Node.var?).map Var.name).idxOf w.name) ∧
    ∀ blocks allowFloating, ofBlocks blocks allowFloating = .ok p →
      (∀ v ∈ p.variables, ∀ w ∈ p.nodes.filterMap Node.var?, w.name = v.name → w.type = v.type) ∧
      ∀ options text, Source.generate .arduino options p = .ok text →
        ∃ lines, text = Line.render options.indent lines ∧
          ∀ w ∈ (nodesOf (Source.activeRoots options p)).filterMap Node.var?,
            ∃ type, Arduino.typeName w.attrs.id w.type = .ok type ∧
              lines.filter (Arduino.declares ((Target.arduino.names (Source.activeRoots options p)).get w.name)) =
                [{ depth := 0, text := type ++ " " ++
                    (Target.arduino.names (Source.activeRoots options p)).get w.name ++ ";" }] := by
  rw [nodes, ← vars_eq_nodesOf]
  have hlisted : ∀ v, v ∈ p.variables ↔
      ∃ before after, p.roots.flatMap Root.vars = before ++ v :: after ∧ ∀ u ∈ before, u.name ≠ v.name := by
    intro v
    rw [Program.variables, variablesOf, mem_firstOccurrences_iff]
    simp
  have hoccurs : ∀ {roots : List Root} {v : Var}, v ∈ variablesOf roots → v ∈ roots.flatMap Root.vars := by
    intro roots v hv
    obtain ⟨-, before, after, heq, -⟩ := mem_firstOccurrences_iff.mp hv
    rw [heq]
    exact List.mem_append_right _ List.mem_cons_self
  refine ⟨(nodup_firstOccurrences [] _).1, fun w hw => exists_firstOccurrence hw List.not_mem_nil, hlisted,
    pairwise_firstOccurrences [] _, fun blocks allowFloating haccepted => ⟨?_, ?_⟩⟩
  · intro v hv w hw hname
    exact type_eq_of_accepted haccepted (hoccurs hv) hw hname
  · intro options text htext
    obtain ⟨_, -, htext⟩ := Except.bind_ok_iff.mp htext
    obtain ⟨lines, hlines, htext⟩ := Except.bind_ok_iff.mp htext
    refine ⟨lines, (Except.pure_ok_iff.mp htext).symm, fun w hw => ?_⟩
    rw [← vars_eq_nodesOf] at hw
    have hactive : ∀ {u : Var}, u ∈ (Source.activeRoots options p).flatMap Root.vars → u ∈ p.roots.flatMap Root.vars := by
      intro u hu
      obtain ⟨root, hroot, hu⟩ := List.mem_flatMap.mp hu
      exact List.mem_flatMap.mpr ⟨root, List.mem_of_mem_filter hroot, hu⟩
    obtain ⟨v, hv, hname⟩ := exists_firstOccurrence hw List.not_mem_nil
    have hroots : ∀ root ∈ Source.activeRoots options p, root.Writable := fun root hroot =>
      writableRoot_of_ofBlocks haccepted (List.mem_of_mem_filter hroot)
    obtain ⟨type, htype, hfilter⟩ := Arduino.filter_programLines hroots hlines hv
    have hsame := type_eq_of_accepted haccepted (hactive (hoccurs hv)) (hactive hw) hname.symm
    rw [hname] at hfilter
    exact ⟨type, hsame ▸ Arduino.typeName_of_ok htype, hfilter⟩

/-- A loop as often as `n` says, in which `x` is set to `n`. -/
def copyingLoop : Block :=
  { tag := Tag.repeat.name, attrs := { id := "a" }, values := [("TIMES", readingBlock "b" "n")],
    statements := [("DO", settingBlock "c" "x" (readingBlock "d" "n"))] }

theorem copying_loop_declares_variables :
    ∃ p, ofBlocks [copyingLoop] false = .ok p ∧
      p.variables.map (fun v => (v.name, v.attrs.id, v.type)) = [("n", "b", .number), ("x", "c", .number)] ∧
      ∃ lines, Source.generate .arduino {} p = .ok (Line.render 4 lines) ∧
        ∀ w ∈ (nodesOf (Source.activeRoots {} p)).filterMap Node.var?,
          ∃ type, Arduino.typeName w.attrs.id w.type = .ok type ∧
            lines.filter (Arduino.declares ((Target.arduino.names (Source.activeRoots {} p)).get w.name)) =
              [{ depth := 0, text := type ++ " " ++
                  (Target.arduino.names (Source.activeRoots {} p)).get w.name ++ ";" }] := by
  obtain ⟨p, haccepted, hvars, htext⟩ := exists_of_any [copyingLoop] false
    (fun p => p.variables.map (fun v => (v.name, v.attrs.id, v.type)) = [("n", "b", .number), ("x", "c", .number)] ∧
      (Source.generate .arduino {} p).isOk = true) (by decide +kernel)
  refine ⟨p, haccepted, hvars, ?_⟩
  cases hsource : Source.generate .arduino {} p with
  | error failure =>
    rw [hsource] at htext
    cases htext
  | ok text =>
    obtain ⟨lines, rfl, hlines⟩ := (p.variables_listed_and_declared.2.2.2.2 _ _ haccepted).2 _ _ hsource
    exact ⟨lines, rfl, hlines⟩

end Program

end Blockwork
