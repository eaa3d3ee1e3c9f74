import Blockwork.Proofs.Checking
import Blockwork.Proofs.Declarations

/-! # What sketches cannot express

A sketch has no values outside of statements, and no lists of lists. A list literal is asked for the type of its
elements only, so that the lists of lists among them are found one level further down.

* `Arduino.refusesNested` says what is refused of a node.
* `Program.arduino_refuses_iff` says what is refused of a program.
-/

namespace Blockwork

set_option autoImplicit false

open List (forall_mem_cons mem_flatMap map_cons)

namespace Arduino

/-- A text is refused exactly if a condition holds, as something that sketches cannot express. -/
def Refuses {α : Type} (P : Prop) (x : Writing α) : Prop :=
  (P → ∃ construct id, x = .error (.unsupported .arduino construct id)) ∧ (¬P → ∃ a, x = .ok a)

section Refuses

variable {α β : Type} {P Q : Prop} {x : Writing α} {f : α → Writing β}

theorem refuses_ok (a : α) : Refuses False (.ok a) :=
  ⟨fun h => h.elim, fun _ => ⟨a, rfl⟩⟩

theorem Refuses.bind (hx : Refuses P x) (hf : ∀ a, Refuses Q (f a)) : Refuses (P ∨ Q) (x >>= f) := by
  by_cases hP : P
  · obtain ⟨construct, id, hx⟩ := hx.1 hP
    exact ⟨fun _ => ⟨construct, id, by rw [hx]; rfl⟩, fun h => absurd (.inl hP) h⟩
  · obtain ⟨a, rfl⟩ := hx.2 hP
    rw [or_iff_right hP]
    exact hf a

theorem Refuses.map (hx : Refuses P x) (g : α → β) : Refuses P (x >>= fun a => .ok (g a)) := by
  have hbind := hx.bind fun a => refuses_ok (g a)
  rwa [or_false] at hbind

theorem Refuses.error_iff (hx : Refuses P x) : (∃ failure, x = .error failure) ↔ P := by
  constructor
  · rintro ⟨failure, h⟩
    by_contra hP
    obtain ⟨a, ha⟩ := hx.2 hP
    cases h.symm.trans ha
  · intro hP
    obtain ⟨construct, id, h⟩ := hx.1 hP
    exact ⟨_, h⟩

theorem Refuses.exists_unsupported (hx : Refuses P x) {failure : Source.Failure} (h : x = .error failure) :
    ∃ construct id, failure = .unsupported .arduino construct id := by
  obtain ⟨construct, id, hx⟩ := hx.1 (hx.error_iff.mp ⟨failure, h⟩)
  cases h.symm.trans hx
  exact ⟨construct, id, rfl⟩

theorem Refuses.congr (hx : Refuses P x) (h : P ↔ Q) : Refuses Q x :=
  propext h ▸ hx

theorem refuses_mapM {g : β → Writing α} {R : β → Prop} {ys : List β} (h : ∀ y ∈ ys, Refuses (R y) (g y)) :
    Refuses (∃ y ∈ ys, R y) (ys.mapM g) := by
  induction ys with
  | nil => exact (refuses_ok []).congr (by simp)
  | cons y ys ih =>
    obtain ⟨hy, hys⟩ := forall_mem_cons.mp h
    rw [List.mapM_cons, List.exists_mem_cons_iff]
    exact hy.bind fun a => (ih hys).map (a :: ·)

end Refuses

/-! ## Nested lists -/

/-- The node names lists of lists. -/
def NestsHere (n : Node) : Prop :=
  ∃ t id, n.typing? = some (.list (.list t), id)

def Nests (n : Node) : Prop :=
  ∃ m ∈ n.preorder, NestsHere m

def NestsAmong (ns : List Node) : Prop :=
  ∃ n ∈ ns, Nests n

/-- The types that the node and those below it name are known. -/
def Known (n : Node) : Prop :=
  ∀ m ∈ n.preorder, ∀ t id, m.typing? = some (t, id) → t.isConcrete = true

variable {n : Node} {ns : List Node} {names : Source.Names}

theorem nests_iff : Nests n ↔ NestsHere n ∨ NestsAmong n.children := by
  rw [Nests, Node.preorder_eq, List.exists_mem_cons_iff]
  simp only [mem_flatMap, NestsAmong, Nests]
  grind

theorem known_iff : Known n ↔
    (∀ t id, n.typing? = some (t, id) → t.isConcrete = true) ∧ ∀ child ∈ n.children, Known child := by
  rw [Known, Node.preorder_eq, forall_mem_cons]
  simp only [mem_flatMap, Known]
  grind

theorem nestsAmong_nil : NestsAmong [] ↔ False :=
  iff_of_false (fun ⟨_, h, _⟩ => List.not_mem_nil h) id

theorem nestsAmong_cons : NestsAmong (n :: ns) ↔ Nests n ∨ NestsAmong ns :=
  List.exists_mem_cons_iff ..

theorem nestsAmong_append {ns' : List Node} : NestsAmong (ns ++ ns') ↔ NestsAmong ns ∨ NestsAmong ns' := by
  simp only [NestsAmong, List.mem_append, or_and_right, exists_or]

theorem nests_target_iff {v : Var} : Nests (.target v) ↔ NestsHere (.target v) := by
  rw [nests_iff, Node.children, nestsAmong_nil, or_false]

theorem Refuses.below {α : Type} {P : Prop} {x : Writing α} (hx : Refuses P x) (h : n.typing? = none)
    (hP : P ↔ NestsAmong n.children) : Refuses (Nests n) x := by
  have hhere : ¬NestsHere n := by simp [NestsHere, h]
  rwa [nests_iff, or_iff_right hhere, ← hP]

theorem refuses_typeName {t : Ty} (h : t.isConcrete = true) (id : String) :
    Refuses (∃ u, t = .list (.list u)) (typeName id t) := by
  cases t with
  | captured => cases h
  | number | boolean | text => exact (refuses_ok _).congr (by simp)
  | list element =>
    cases element with
    | captured => cases h
    | list u => exact ⟨fun _ => ⟨_, _, rfl⟩, fun hne => absurd ⟨u, rfl⟩ hne⟩
    | number | boolean | text => exact (refuses_ok _).congr (by simp)

theorem refuses_typing {t : Ty} {id : String} (htyping : n.typing? = some (t, id)) (h : Known n) (id' : String) :
    Refuses (NestsHere n) (typeName id' t) := by
  refine (refuses_typeName ((known_iff.mp h).1 _ _ htyping) id').congr ?_
  simp [NestsHere, htyping]

/-- What is written of a node is refused exactly if lists of lists are named in it. -/
def RefusesNested (names : Source.Names) : Node → Prop
  | .target v => Refuses (Nests (.target v)) (var names v)
  | .value e => Refuses (Nests (.value e)) (expr names e)
  | .statement s => ∀ depth, Refuses (Nests (.statement s)) (lines names depth s)

theorem refuses_exprs {items : List Expr} (h : ∀ e ∈ items, RefusesNested names (.value e)) :
    Refuses (NestsAmong (items.map .value)) (exprs names items) := by
  induction items with
  | nil => exact (refuses_ok []).congr nestsAmong_nil.symm
  | cons e rest ih =>
    obtain ⟨he, hrest⟩ := forall_mem_cons.mp h
    rw [exprs, map_cons, nestsAmong_cons]
    exact he.bind fun a => (ih hrest).map _

theorem refuses_joinedItems {items : List Expr} (h : ∀ e ∈ items, RefusesNested names (.value e)) :
    Refuses (NestsAmong (items.map .value)) (joinedItems names items) := by
  induction items with
  | nil => exact (refuses_ok []).congr nestsAmong_nil.symm
  | cons e rest ih =>
    obtain ⟨he, hrest⟩ := forall_mem_cons.mp h
    rw [joinedItems, map_cons, nestsAmong_cons]
    exact he.bind fun a => (ih hrest).map _

theorem refuses_linesOf {body : List Stmt} (h : ∀ n ∈ body.map .statement, RefusesNested names n) (depth : Nat) :
    Refuses (NestsAmong (body.map .statement)) (linesOf names depth body) := by
  induction body with
  | nil => exact (refuses_ok []).congr nestsAmong_nil.symm
  | cons s rest ih =>
    obtain ⟨hs, hrest⟩ := forall_mem_cons.mp h
    rw [linesOf, map_cons, nestsAmong_cons]
    exact (hs depth).bind fun a => (ih hrest).map _

theorem refuses_linesOfBranches {branches : List (Expr × List Stmt)}
    (h : ∀ n ∈ branches.flatMap fun branch => .value branch.1 :: branch.2.map .statement, RefusesNested names n)
    (depth : Nat) (word : String) :
    Refuses (NestsAmong (branches.flatMap fun branch => .value branch.1 :: branch.2.map .statement))
      (linesOfBranches names depth word branches) := by
  induction branches generalizing word with
  | nil => exact (refuses_ok []).congr nestsAmong_nil.symm
  | cons branch rest ih =>
    obtain ⟨hbranch, hrest⟩ := List.forall_mem_append.mp h
    obtain ⟨hcondition, hbody⟩ := forall_mem_cons.mp hbranch
    rw [linesOfBranches, List.flatMap_cons, List.cons_append, nestsAmong_cons, nestsAmong_append]
    exact hcondition.bind fun _ => (refuses_linesOf hbody _).bind fun _ => (ih hrest _).map _

theorem refuses_linesOfOtherwise {otherwise : Option (List Stmt)}
    (h : ∀ n ∈ (otherwise.getD []).map .statement, RefusesNested names n) (depth : Nat) :
    Refuses (NestsAmong ((otherwise.getD []).map .statement)) (linesOfOtherwise names depth otherwise) := by
  cases otherwise with
  | none => exact (refuses_ok []).congr nestsAmong_nil.symm
  | some body => exact (refuses_linesOf h _).map _

theorem refusesNested_value {e : Expr} (h : Known (.value e))
    (hbelow : ∀ operand ∈ e.operands, RefusesNested names (.value operand)) : RefusesNested names (.value e) := by
  cases e with
  | var v =>
    refine ((refuses_typing rfl h _).map _).congr ?_
    rw [@nests_iff (.value _), Node.children, Expr.operands, List.map_nil, nestsAmong_nil, or_false]
  | number | boolean | text => exact (refuses_ok _).below rfl nestsAmong_nil.symm
  | binary op left right attrs =>
    obtain ⟨hleft, hright⟩ := forall_mem_cons.mp hbelow
    refine (hleft.bind fun _ => (hright right (by simp)).map _).below rfl ?_
    simp only [Node.children, Expr.operands, map_cons, List.map_nil, nestsAmong_cons, nestsAmong_nil, or_false]
  | unary op operand attrs | length operand attrs =>
    refine ((hbelow operand (List.mem_singleton_self _)).map _).below rfl ?_
    simp only [Node.children, Expr.operands, map_cons, List.map_nil, nestsAmong_cons, nestsAmong_nil, or_false]
  | list element items attrs =>
    refine ((refuses_typing rfl h _).bind fun _ => (refuses_exprs hbelow).map _).congr ?_
    exact nests_iff.symm
  | join items attrs => exact ((refuses_joinedItems hbelow).map _).below rfl Iff.rfl

theorem refusesNested_statement {s : Stmt} (h : Known (.statement s))
    (hbelow : ∀ child ∈ s.nodes, RefusesNested names child) : RefusesNested names (.statement s) := by
  intro depth
  cases s with
  | assign target value attrs =>
    obtain ⟨htarget, hvalue⟩ := forall_mem_cons.mp hbelow
    refine (Refuses.bind htarget fun _ => (hvalue _ (List.mem_singleton_self _)).map _).below rfl ?_
    simp only [Node.children, Stmt.nodes, nestsAmong_cons, nestsAmong_nil, or_false]
  | choose branches otherwise attrs =>
    obtain ⟨hbranches, hlast⟩ := List.forall_mem_append.mp hbelow
    exact ((refuses_linesOfBranches hbranches _ _).bind fun _ => (refuses_linesOfOtherwise hlast _).map _).below rfl
      nestsAmong_append.symm
  | «repeat» times body attrs | loop mode times body attrs =>
    obtain ⟨htimes, hbody⟩ := forall_mem_cons.mp hbelow
    exact (Refuses.bind htimes fun _ => (refuses_linesOf hbody _).map _).below rfl nestsAmong_cons.symm
  | count counter first last step body attrs =>
    simp only [Stmt.nodes, forall_mem_cons] at hbelow
    obtain ⟨hcounter, hfirst, hlast, hstep, hbody⟩ := hbelow
    refine (Refuses.bind hcounter fun _ => Refuses.bind hfirst fun _ => Refuses.bind hlast fun _ =>
      Refuses.bind hstep fun _ => (refuses_linesOf hbody _).map _).below rfl ?_
    simp only [Node.children, Stmt.nodes, nestsAmong_cons]
  | forEach item list body attrs =>
    have hknown : Known (.target item) := (known_iff.mp h).2 _ List.mem_cons_self
    simp only [Stmt.nodes, forall_mem_cons] at hbelow
    obtain ⟨hitem, hlist, hbody⟩ := hbelow
    refine (Refuses.bind hitem fun _ => (refuses_typing rfl hknown _).bind fun _ => Refuses.bind hlist fun _ =>
      (refuses_linesOf hbody _).map _).below rfl ?_
    simp only [Node.children, Stmt.nodes, nestsAmong_cons, nests_target_iff, or_self_left]
  | flow choice attrs => exact (refuses_ok _).below rfl nestsAmong_nil.symm
  | wait value attrs | print value attrs =>
    refine (Refuses.map (hbelow _ (List.mem_singleton_self _)) _).below rfl ?_
    simp only [Node.children, Stmt.nodes, nestsAmong_cons, nestsAmong_nil, or_false]

theorem refusesNested (names : Source.Names) (n : Node) (h : Known n) : RefusesNested names n := by
  induction n using Node.induct with
  | h n ih =>
    have hbelow : ∀ child ∈ n.children, RefusesNested names child := fun child hchild =>
      ih child hchild ((known_iff.mp h).2 child hchild)
    cases n with
    | target v => exact ((refuses_typing rfl h _).map _).congr nests_target_iff.symm
    | value e => exact refusesNested_value h fun operand ho => hbelow _ (List.mem_map_of_mem ho)
    | statement s => exact refusesNested_statement h hbelow

/-! ## Programs -/

theorem refuses_rootLines {root : Root} (h : ∀ n ∈ root.tops, Known n) :
    Refuses ((∃ e, root = .value e) ∨ NestsAmong root.tops) (rootLines names root) := by
  cases root with
  | statements body =>
    have hbody := refuses_linesOf (fun n hn => refusesNested names n (h n hn)) 1
    exact hbody.congr (or_iff_right (by simp)).symm
  | value e => exact ⟨fun _ => ⟨_, _, rfl⟩, fun hne => absurd (.inl ⟨e, rfl⟩) hne⟩

theorem nestsHere_iff : NestsHere n ↔ (∃ v, n.var? = some v ∧ ∃ t, v.type = .list (.list t)) ∨
    ∃ t items attrs, n = .value (.list (.list (.list t)) items attrs) := by
  cases n with
  | target v => simp [NestsHere, Node.typing?, Node.var?]
  | value e => cases e <;> simp [NestsHere, Node.typing?, Node.var?]
  | statement s => simp [NestsHere, Node.typing?, Node.var?]

theorem typing?_of_var? {v : Var} (h : n.var? = some v) : n.typing? = some (v.type, v.attrs.id) := by
  cases n with
  | target w =>
    cases h
    rfl
  | value e =>
    cases e with
    | var w =>
      cases h
      rfl
    | _ => cases h
  | statement s => cases h

theorem exists_node_of_variable {roots : List Root} {v : Var} (hv : v ∈ variablesOf roots) :
    ∃ n ∈ nodesOf roots, n.var? = some v := by
  obtain ⟨-, before, after, heq, -⟩ := mem_firstOccurrences_iff.mp hv
  apply List.mem_filterMap.mp
  rw [← vars_eq_nodesOf, heq]
  exact List.mem_append_right _ List.mem_cons_self

theorem nests_program_iff (roots : List Root) :
    ((∃ root ∈ roots, (∃ e, root = .value e) ∨ NestsAmong root.tops) ∨
      ∃ v ∈ variablesOf roots, ∃ t, v.type = .list (.list t)) ↔
    (∃ e, .value e ∈ roots) ∨ ∃ n ∈ nodesOf roots, NestsHere n := by
  have hnodes : (∃ n ∈ nodesOf roots, NestsHere n) ↔ ∃ root ∈ roots, NestsAmong root.tops := by
    simp only [nodesOf, NestsAmong, Nests, mem_flatMap]
    grind
  rw [hnodes]
  constructor
  · rintro (⟨root, hroot, ⟨e, rfl⟩ | hnests⟩ | ⟨v, hv, t, ht⟩)
    · exact .inl ⟨e, hroot⟩
    · exact .inr ⟨root, hroot, hnests⟩
    · obtain ⟨n, hn, hvar⟩ := exists_node_of_variable hv
      exact .inr (hnodes.mp ⟨n, hn, t, v.attrs.id, by rw [typing?_of_var? hvar, ht]⟩)
  · rintro (⟨e, he⟩ | ⟨root, hroot, hnests⟩)
    · exact .inl ⟨_, he, .inl ⟨e, rfl⟩⟩
    · exact .inl ⟨root, hroot, .inr hnests⟩

theorem refuses_programLines {options : Source.Options} {p : Program}
    (h : ∀ n ∈ nodesOf (Source.activeRoots options p), ∀ t id, n.typing? = some (t, id) → t.isConcrete = true) :
    Refuses ((∃ e, .value e ∈ Source.activeRoots options p) ∨
      ∃ n ∈ nodesOf (Source.activeRoots options p), NestsHere n) (programLines options p) := by
  rw [← nests_program_iff]
  refine (refuses_mapM fun root hroot => ?_).bind fun _ => (refuses_mapM fun v hv => ?_).map _
  · refine refuses_rootLines fun n hn m hm => ?_
    exact h m (mem_flatMap.mpr ⟨n, mem_flatMap.mpr ⟨root, hroot, hn⟩, hm⟩)
  · obtain ⟨n, hn, hvar⟩ := exists_node_of_variable hv
    exact (refuses_typeName (h n hn _ _ (typing?_of_var? hvar)) _).map _

end Arduino

namespace Program

variable {blocks : List Block} {allowFloating : Bool} {p : Program}

theorem known_of_ofBlocks (h : ofBlocks blocks allowFloating = .ok p) {n : Node} (hn : n ∈ nodesOf p.roots) {t : Ty}
    {id : String} (htyping : n.typing? = some (t, id)) : t.isConcrete = true := by
  obtain ⟨roots, env, settled, haccepted⟩ := exists_accepted h
  have hvar : ∀ v, n.var? = some v → v.type.isConcrete = true := by
    intro v hv
    have hmem : v ∈ p.roots.flatMap Root.vars := by
      rw [vars_eq_nodesOf]
      exact List.mem_filterMap.mpr ⟨n, hn, hv⟩
    obtain ⟨root, hroot, hmem⟩ := mem_flatMap.mp hmem
    obtain ⟨b, -, -, -, hvars⟩ := exists_of_mem_left haccepted.resolved hroot
    exact (hvars v hmem).2
  cases n with
  | target v =>
    cases htyping
    exact hvar v rfl
  | value e =>
    cases e with
    | var v =>
      cases htyping
      exact hvar v rfl
    | list element items attrs =>
      cases htyping
      obtain ⟨root, hroot, hmem⟩ := mem_flatMap.mp (value_mem_nodesOf.mp hn)
      obtain ⟨b, -, -, hwell, -⟩ := exists_of_mem_left haccepted.resolved hroot
      exact (hwell.checks _ hmem).1
    | _ => cases htyping
  | statement s => cases htyping

theorem arduino_generate_eq (h : ofBlocks blocks allowFloating = .ok p) (options : Source.Options) :
    Source.generate .arduino options p =
      (Arduino.programLines options p >>= fun lines => .ok (Line.render options.indent lines)) := by
  rw [Source.generate, check_of_ofBlocks h]
  rfl

theorem mem_nodesOf_of_active {options : Source.Options} {n : Node} (hn : n ∈ nodesOf (Source.activeRoots options p)) :
    n ∈ nodesOf p.roots := by
  obtain ⟨top, htop, hn⟩ := mem_flatMap.mp hn
  obtain ⟨root, hroot, htop⟩ := mem_flatMap.mp htop
  exact mem_flatMap.mpr ⟨top, mem_flatMap.mpr ⟨root, List.mem_of_mem_filter hroot, htop⟩, hn⟩

/-- A sketch is refused exactly if a root is a value by itself, a variable is a list of lists, or the elements of the
elements of a list are lists. It is refused as something that sketches cannot express. -/
theorem arduino_refuses_iff (h : ofBlocks blocks allowFloating = .ok p) (options : Source.Options) :
    ((∃ failure, Source.generate .arduino options p = .error failure) ↔
      (∃ e, .value e ∈ Source.activeRoots options p) ∨
      (∃ v ∈ (nodesOf (Source.activeRoots options p)).filterMap Node.var?, ∃ t, v.type = .list (.list t)) ∨
      ∃ t items attrs, .value (.list (.list (.list t)) items attrs) ∈ nodesOf (Source.activeRoots options p)) ∧
    ∀ failure, Source.generate .arduino options p = .error failure →
      ∃ construct id, failure = .unsupported .arduino construct id := by
  have hwritten := (Arduino.refuses_programLines fun n hn t id =>
    known_of_ofBlocks h (@mem_nodesOf_of_active p options n hn)).map (Line.render options.indent)
  rw [← arduino_generate_eq h options] at hwritten
  refine ⟨?_, fun failure => hwritten.exists_unsupported⟩
  rw [hwritten.error_iff]
  simp only [Arduino.nestsHere_iff, List.mem_filterMap]
  grind

def listBlock (id : String) (item : Block) : Block :=
  { tag := Tag.list.name, attrs := { id }, values := [("ADD0", item)] }

/-- A list with a list of one number. -/
def nestedBlock : Block :=
  listBlock "a" (listBlock "b" (numberBlock "c" "1"))

def printedLengthBlock : Block :=
  { tag := Tag.print.name, attrs := { id := "e" }, values :=
      [("TEXT", { tag := Tag.length.name, attrs := { id := "d" }, values := [("VALUE", nestedBlock)] })] }

theorem nested_variable_is_refused :
    ∃ p, ofBlocks [settingBlock "d" "x" nestedBlock] false = .ok p ∧
      ((∃ e, .value e ∈ Source.activeRoots {} p) ∨
        (∃ v ∈ (nodesOf (Source.activeRoots {} p)).filterMap Node.var?, ∃ t, v.type = .list (.list t)) ∨
        ∃ t items attrs, .value (.list (.list (.list t)) items attrs) ∈ nodesOf (Source.activeRoots {} p)) ∧
      ∃ construct id, Source.generate .arduino {} p = .error (.unsupported .arduino construct id) := by
  obtain ⟨p, haccepted, hrefused⟩ := exists_of_any [settingBlock "d" "x" nestedBlock] false
    (fun p => (Source.generate .arduino {} p).isOk = false) (by decide +kernel)
  cases hwritten : Source.generate .arduino {} p with
  | ok text =>
    rw [hwritten] at hrefused
    cases hrefused
  | error failure =>
    obtain ⟨hiff, hunsupported⟩ := arduino_refuses_iff haccepted {}
    obtain ⟨construct, id, rfl⟩ := hunsupported failure hwritten
    exact ⟨p, haccepted, hiff.mp ⟨_, hwritten⟩, construct, id, hwritten⟩

/-- A list of lists that is no variable is written. -/
theorem nested_literal_is_written :
    ∃ p, ofBlocks [printedLengthBlock] false = .ok p ∧
      (∃ items attrs, .value (.list (.list .number) items attrs) ∈ nodesOf (Source.activeRoots {} p)) ∧
      ∃ text, Source.generate .arduino {} p = .ok text := by
  obtain ⟨p, haccepted, hnested, hwritten⟩ := exists_of_any [printedLengthBlock] false
    (fun p => (((Source.activeRoots {} p).flatMap Root.exprs).any fun e =>
        Arduino.isList e && e.type = .list (.list .number)) = true ∧
      (Source.generate .arduino {} p).isOk = true) (by decide +kernel)
  refine ⟨p, haccepted, ?_, ?_⟩
  · obtain ⟨e, he, hlist⟩ := List.any_eq_true.mp hnested
    cases e with
    | list element items attrs =>
      obtain rfl : element = .list .number := by simpa [Arduino.isList, Expr.type] using hlist
      exact ⟨items, attrs, value_mem_nodesOf.mpr he⟩
    | _ => cases hlist
  · cases hsource : Source.generate .arduino {} p with
    | error failure =>
      rw [hsource] at hwritten
      cases hwritten
    | ok text => exact ⟨text, rfl⟩

end Program

end Blockwork
