import Blockwork.Program.Check
import Blockwork.Proofs.Factories
import Blockwork.Proofs.Nodes

/-! # The check finds the first open type

In a program that was made node by node, types fit as far as they are known. So the check can only find types that
are not known, and it finds the first one in the order of the nodes.
-/

namespace Blockwork

set_option autoImplicit false

open List (forall_mem_cons forall_mem_nil map_cons forall_mem_singleton)

namespace Except

variable {ε α β : Type}

theorem forM_ok_iff {f : α → Except ε Unit} {xs : List α} : xs.forM f = .ok () ↔ ∀ x ∈ xs, f x = .ok () := by
  induction xs with
  | nil => exact ⟨fun _ _ h => absurd h List.not_mem_nil, fun _ => rfl⟩
  | cons x xs ih =>
    rw [forall_mem_cons, ← ih]
    exact step_ok_iff

theorem forM_error_iff {f : α → Except ε Unit} {xs : List α} {e : ε} :
    xs.forM f = .error e ↔
      ∃ before x after, xs = before ++ x :: after ∧ (∀ y ∈ before, f y = .ok ()) ∧ f x = .error e := by
  induction xs with
  | nil =>
    constructor
    · intro h
      cases h
    · rintro ⟨before, x, after, h, -⟩
      simp at h
  | cons x xs ih =>
    change (f x >>= fun _ => xs.forM f) = .error e ↔ _
    rw [bind_error_iff, ih]
    constructor
    · rintro (h | ⟨_, hx, before, y, after, rfl, hbefore, hy⟩)
      · exact ⟨[], x, xs, rfl, forall_mem_nil _, h⟩
      · exact ⟨x :: before, y, after, rfl, forall_mem_cons.mpr ⟨hx, hbefore⟩, hy⟩
    · rintro ⟨before, y, after, h, hbefore, hy⟩
      cases before with
      | nil =>
        cases h
        exact .inl hy
      | cons z before =>
        cases h
        obtain ⟨hx, hbefore⟩ := forall_mem_cons.mp hbefore
        exact .inr ⟨(), hx, before, y, after, rfl, hbefore, hy⟩

theorem bind_congr_ok {x : Except ε α} {f g : α → Except ε β} (h : ∀ a, x = .ok a → f a = g a) : x >>= f = x >>= g := by
  cases x with
  | error e => rfl
  | ok a => exact h a rfl

end Except

namespace Node

/-- The type that a node names by itself, with the identifier of its block: that of a variable, or that of the elements
of a list. -/
def typing? : Node → Option (Ty × String)
  | target v | value (.var v) => some (v.type, v.attrs.id)
  | value (.list element _ attrs) => some (element, attrs.id)
  | _ => none

def checkHere (n : Node) : Except Error Unit :=
  match n.typing? with
  | none => .ok ()
  | some (t, id) => if t.isConcrete then .ok () else .error (.unresolved t id)

def checkTree (n : Node) : Except Error Unit :=
  n.preorder.forM checkHere

def checkForest (tops : List Node) : Except Error Unit :=
  (tops.flatMap preorder).forM checkHere

theorem forM_append (nodes rest : List Node) :
    (nodes ++ rest).forM checkHere = (nodes.forM checkHere >>= fun _ => rest.forM checkHere) := by
  induction nodes with
  | nil => rfl
  | cons n nodes ih =>
    change (n.checkHere >>= fun _ => (nodes ++ rest).forM checkHere) =
      ((n.checkHere >>= fun _ => nodes.forM checkHere) >>= fun _ => rest.forM checkHere)
    rw [ih, bind_assoc]

theorem checkForest_append (tops rest : List Node) :
    checkForest (tops ++ rest) = (checkForest tops >>= fun _ => checkForest rest) := by
  rw [checkForest, List.flatMap_append, forM_append]
  rfl

theorem checkForest_cons (n : Node) (rest : List Node) :
    checkForest (n :: rest) = (n.checkTree >>= fun _ => checkForest rest) := by
  rw [checkForest, List.flatMap_cons, forM_append]
  rfl

theorem checkForest_singleton (n : Node) : checkForest [n] = n.checkTree := by
  rw [checkForest, List.flatMap_singleton]
  rfl

theorem checkForest_eq_ok_iff {tops : List Node} : checkForest tops = .ok () ↔ ∀ n ∈ tops, n.checkTree = .ok () := by
  simp only [checkForest, checkTree, Except.forM_ok_iff, List.forall_mem_flatMap]

theorem checkTree_eq (n : Node) : n.checkTree = (n.checkHere >>= fun _ => checkForest n.children) := by
  rw [checkTree, preorder_eq]
  rfl

theorem checkHere_eq_ok_iff {n : Node} :
    n.checkHere = .ok () ↔ ∀ t id, n.typing? = some (t, id) → t.isConcrete = true := by
  unfold checkHere
  cases n.typing? with
  | none => simp
  | some typing => by_cases h : typing.1.isConcrete = true <;> simp [h, Prod.ext_iff]

theorem checkHere_eq_error_iff {n : Node} {e : Error} :
    n.checkHere = .error e ↔ ∃ t id, n.typing? = some (t, id) ∧ t.isConcrete = false ∧ .unresolved t id = e := by
  unfold checkHere
  cases n.typing? with
  | none => simp
  | some typing => by_cases h : typing.1.isConcrete = true <;> simp [h, Prod.ext_iff]

end Node

/-! ## Expressions -/

open Node (checkTree checkTree_eq checkForest checkForest_append checkForest_cons checkForest_singleton
  checkForest_eq_ok_iff)

theorem Var.check_eq (v : Var) : v.check = (checkTree (.target v) >>= fun _ => .ok v.type) := by
  rw [checkTree_eq, Var.check, Ty.checkConcrete, Node.checkHere, Node.typing?, Node.children]
  by_cases h : v.type.isConcrete = true <;> simp only [h] <;> rfl

theorem Var.checkTree_iff (v : Var) : checkTree (.target v) = .ok () ↔ v.type.isConcrete = true := by
  rw [checkTree_eq, Node.checkHere, Node.typing?, Node.children]
  by_cases h : v.type.isConcrete = true <;> simp [h, checkForest]

namespace Expr

attribute [local simp] check checkAll checkElements

theorem fits_of_accepts {expected found : Ty} (h : expected.accepts found = true) (id : String) :
    fits expected id found = .ok found :=
  if_pos h

/-- The check finds the first open type, and if there is none, types fit everywhere. -/
structure FindsOpen (e : Expr) : Prop where
  check_eq : e.check = (checkTree (.value e) >>= fun _ => .ok e.type)
  checkTree_iff : checkTree (.value e) = .ok () ↔ e.WellTyped

variable {e left right operand : Expr} {items : List Expr} {element expected : Ty} {attrs : Attributes}

theorem FindsOpen.fits (h : e.FindsOpen) (haccepts : expected.accepts e.type = true) :
    (e.check >>= fun found => fits expected e.id found) = (checkTree (.value e) >>= fun _ => .ok e.type) := by
  rw [h.check_eq, bind_assoc]
  simp only [Except.ok_bind, fits_of_accepts haccepts]

theorem FindsOpen.checkAs (h : e.FindsOpen) (haccepts : expected.accepts e.type = true) :
    e.checkAs expected = checkTree (.value e) := by
  unfold Expr.checkAs
  rw [← bind_assoc, h.fits haccepts, bind_assoc]
  simp only [Except.ok_bind]
  exact bind_pure_unit

theorem checkTree_value (e : Expr) (h : (Node.value e).typing? = none) :
    checkTree (.value e) = checkForest (e.operands.map .value) := by
  rw [checkTree_eq, Node.checkHere, h]
  rfl

theorem checkForest_iff (h : ∀ e ∈ items, e.FindsOpen) :
    checkForest (items.map .value) = .ok () ↔ ∀ e ∈ items, e.WellTyped := by
  rw [checkForest_eq_ok_iff, List.forall_mem_map]
  exact forall₂_congr fun e he => (h e he).checkTree_iff

theorem checkAll_eq (h : ∀ e ∈ items, e.FindsOpen) : checkAll items = checkForest (items.map .value) := by
  induction items with
  | nil => rfl
  | cons e rest ih =>
    obtain ⟨he, hrest⟩ := forall_mem_cons.mp h
    rw [checkAll, he.check_eq, map_cons, checkForest_cons, bind_assoc, ih hrest]
    rfl

theorem checkElements_eq (h : ∀ e ∈ items, e.FindsOpen) (haccepts : ∀ e ∈ items, element.accepts e.type = true) :
    checkElements element items = checkForest (items.map .value) := by
  induction items with
  | nil => rfl
  | cons e rest ih =>
    obtain ⟨he, hrest⟩ := forall_mem_cons.mp h
    obtain ⟨haccept, haccepts⟩ := forall_mem_cons.mp haccepts
    rw [checkElements, ← bind_assoc, he.fits haccept, map_cons, checkForest_cons, bind_assoc, ih hrest haccepts]
    rfl

theorem findsOpen_binary {op : BinaryOp} (made : makeBinary op left right attrs = .ok e) (hleft : left.FindsOpen)
    (hright : right.FindsOpen) : e.FindsOpen := by
  have haccepts : op.operandType.accepts left.type = true ∧ left.type.accepts right.type = true := by
    unfold makeBinary at made
    grind
  obtain rfl := eq_of_makeBinary made
  have htree := checkTree_value (.binary op left right attrs) rfl
  refine ⟨?_, ?_⟩
  · rw [check, ← bind_assoc, hleft.fits haccepts.1, htree, operands, map_cons, map_cons, checkForest_cons,
      List.map_nil, checkForest_singleton, bind_assoc, bind_assoc]
    congr 1
    funext _
    rw [Except.ok_bind, ← bind_assoc, hright.fits haccepts.2, bind_assoc]
    rfl
  · rw [htree, operands, checkForest_iff (by simp [hleft, hright]), WellTyped, everywhere_binary]
    rw [forall_mem_cons, forall_mem_singleton]
    refine ⟨fun h => ⟨⟨?_, ?_⟩, h⟩, fun h => h.2⟩
    · exact Ty.eq_of_accepts haccepts.2 h.1.isConcrete h.2.isConcrete
    · exact Ty.refines_of_accepts haccepts.1 h.1.isConcrete

theorem findsOpen_unary {op : UnaryOp} (made : makeUnary op operand attrs = .ok e) (h : operand.FindsOpen) :
    e.FindsOpen := by
  have haccepts : op.operandType.accepts operand.type = true := by
    unfold makeUnary at made
    grind
  have hconcrete : op.operandType.isConcrete = true := by cases op <;> rfl
  have htype : operand.WellTyped → operand.type = op.operandType := fun hwell =>
    Ty.eq_of_accepts haccepts hconcrete hwell.isConcrete
  obtain rfl := eq_of_makeUnary made
  have htree := checkTree_value (.unary op operand attrs) rfl
  rw [operands, List.map_singleton, checkForest_singleton] at htree
  refine ⟨?_, ?_⟩
  · rw [check, h.fits haccepts, htree]
    refine Except.bind_congr_ok fun u hknown => ?_
    rw [type, htype (h.checkTree_iff.mp hknown)]
  · rw [htree, h.checkTree_iff]
    exact (everywhere_unary.trans (and_iff_right_of_imp htype)).symm

theorem accepts_of_makeList (h : makeList element items attrs = .ok e) :
    ∀ item ∈ items, element.accepts item.type = true := by
  have hitems : ∀ index, checkItems element index items = .ok () → ∀ item ∈ items, element.accepts item.type = true := by
    clear h
    induction items with
    | nil => exact fun _ _ => forall_mem_nil _
    | cons item rest ih =>
      intro index h
      rw [checkItems] at h
      split at h
      · next haccepts => exact forall_mem_cons.mpr ⟨haccepts, ih _ h⟩
      · cases h
  obtain ⟨_, hchecked, -⟩ := Except.bind_ok_iff.mp h
  exact hitems 0 hchecked

theorem findsOpen_list (made : makeList element items attrs = .ok e) (h : ∀ item ∈ items, item.FindsOpen) :
    e.FindsOpen := by
  have haccepts := accepts_of_makeList made
  obtain rfl := eq_of_makeList made
  by_cases hconcrete : element.isConcrete = true
  · have htree : checkTree (.value (.list element items attrs)) = checkForest (items.map .value) := by
      rw [checkTree_eq, Node.checkHere, Node.typing?, Node.children, operands]
      simp only [hconcrete, if_true, Except.ok_bind]
    refine ⟨?_, ?_⟩
    · rw [check, Ty.checkConcrete, if_pos hconcrete, Except.ok_bind, checkElements_eq h haccepts, htree]
      rfl
    · rw [htree, checkForest_iff h, WellTyped, everywhere_list]
      exact ⟨fun hwell => ⟨⟨hconcrete, fun item hitem =>
        Ty.eq_of_accepts (haccepts item hitem) hconcrete (hwell item hitem).isConcrete⟩, hwell⟩, fun hwell => hwell.2⟩
  · have htree : checkTree (.value (.list element items attrs)) = .error (.unresolved element attrs.id) := by
      rw [checkTree_eq, Node.checkHere, Node.typing?]
      simp only [hconcrete]
      rfl
    refine ⟨?_, ?_⟩
    · rw [check, Ty.checkConcrete, if_neg hconcrete, htree]
      rfl
    · rw [htree, WellTyped, everywhere_list]
      exact iff_of_false (by simp) fun hwell => hconcrete hwell.1.1

theorem findsOpen_length (made : makeLength operand attrs = .ok e) (h : operand.FindsOpen) : e.FindsOpen := by
  have hlist : operand.WellTyped → ∃ element, operand.type = .list element := by
    intro hwell
    unfold makeLength at made
    split at made
    · next element htype => exact ⟨element, htype⟩
    · next htype => exact absurd hwell.isConcrete (by simp [htype, Ty.isConcrete])
    · cases made
  obtain rfl := eq_of_makeLength made
  have htree := checkTree_value (.length operand attrs) rfl
  rw [operands, List.map_singleton, checkForest_singleton] at htree
  refine ⟨?_, ?_⟩
  · rw [check, h.check_eq, htree, bind_assoc]
    refine Except.bind_congr_ok fun u hknown => ?_
    obtain ⟨element, htype⟩ := hlist (h.checkTree_iff.mp hknown)
    rw [Except.ok_bind, htype, fits_of_accepts (Ty.Refines.accepted (.list (.captured element)))]
    rfl
  · rw [htree, h.checkTree_iff]
    exact (everywhere_length.trans (and_iff_right_of_imp hlist)).symm

theorem Made.findsOpen (h : e.Made) : e.FindsOpen := by
  have hleaf : ∀ {e : Expr}, (Node.value e).typing? = none → e.operands = [] → e.check = .ok e.type → e.WellTyped →
      e.FindsOpen := by
    intro e hnone hoperands hcheck hwell
    have htree := checkTree_value e hnone
    rw [hoperands] at htree
    exact ⟨by rw [hcheck, htree]; rfl, by rw [htree]; exact iff_of_true rfl hwell⟩
  induction h with
  | @var v _ =>
    have htarget : checkTree (.value (.var v)) = checkTree (.target v) := by
      rw [checkTree_eq, checkTree_eq]
      rfl
    exact ⟨by rw [check, Var.check_eq, htarget]; rfl, by rw [htarget, Var.checkTree_iff, WellTyped, everywhere_var]; rfl⟩
  | number made =>
    obtain ⟨value, -, made⟩ := Except.bind_ok_iff.mp made
    cases made
    exact hleaf rfl rfl rfl (by simp [WellTyped, Checks])
  | boolean => exact hleaf rfl rfl rfl (by simp [WellTyped, Checks])
  | text => exact hleaf rfl rfl rfl (by simp [WellTyped, Checks])
  | binary _ _ made ihl ihr => exact findsOpen_binary made ihl ihr
  | unary _ made ih => exact findsOpen_unary made ih
  | list _ made ih => exact findsOpen_list made ih
  | length _ made ih => exact findsOpen_length made ih
  | @join items attrs _ ih =>
    have htree := checkTree_value (.join items attrs) rfl
    rw [operands] at htree
    refine ⟨?_, ?_⟩
    · rw [check, checkAll_eq ih, htree]
      rfl
    · rw [htree, checkForest_iff ih, WellTyped, everywhere_join]
      exact (and_iff_right trivial).symm

end Expr

/-! ## Statements -/

namespace Stmt

attribute [local simp] check checkAll checkBranches

theorem everywhere_leaf_iff {P : Stmt → Prop} {s : Stmt} (hs : s.all = [s]) : s.Everywhere P ↔ P s :=
  ⟨Everywhere.here, fun h => everywhere_leaf h hs⟩

structure FindsOpen (s : Stmt) : Prop where
  check_eq : s.check = checkTree (.statement s)
  checkTree_iff : checkTree (.statement s) = .ok () ↔ s.WellTyped

variable {s : Stmt} {body : List Stmt} {attrs : Attributes}

theorem checkTree_statement (s : Stmt) : checkTree (.statement s) = checkForest s.nodes := by
  rw [checkTree_eq]
  rfl

theorem checkAll_eq (h : ∀ s ∈ body, s.FindsOpen) : checkAll body = checkForest (body.map .statement) := by
  induction body with
  | nil => rfl
  | cons s rest ih =>
    obtain ⟨hs, hrest⟩ := forall_mem_cons.mp h
    rw [checkAll, hs.check_eq, ih hrest, map_cons, checkForest_cons]

theorem checkForest_iff (h : ∀ s ∈ body, s.FindsOpen) :
    checkForest (body.map .statement) = .ok () ↔ ∀ s ∈ body, s.WellTyped := by
  rw [checkForest_eq_ok_iff, List.forall_mem_map]
  exact forall₂_congr fun s hs => (h s hs).checkTree_iff

theorem checkBranches_eq {branches : List (Expr × List Stmt)}
    (hconditions : ∀ branch ∈ branches, branch.1.FindsOpen ∧ Ty.boolean.accepts branch.1.type = true)
    (hbodies : ∀ branch ∈ branches, ∀ s ∈ branch.2, s.FindsOpen) :
    checkBranches branches =
      checkForest (branches.flatMap fun branch => .value branch.1 :: branch.2.map .statement) := by
  induction branches with
  | nil => rfl
  | cons branch rest ih =>
    obtain ⟨⟨hcondition, haccepts⟩, hconditions⟩ := forall_mem_cons.mp hconditions
    obtain ⟨hbody, hbodies⟩ := forall_mem_cons.mp hbodies
    rw [checkBranches, hcondition.checkAs haccepts, checkAll_eq hbody, ih hconditions hbodies, List.flatMap_cons,
      checkForest_append, checkForest_cons, bind_assoc]

theorem checkBranches_iff {branches : List (Expr × List Stmt)} (hconditions : ∀ branch ∈ branches, branch.1.FindsOpen)
    (hbodies : ∀ branch ∈ branches, ∀ s ∈ branch.2, s.FindsOpen) :
    checkForest (branches.flatMap fun branch => .value branch.1 :: branch.2.map .statement) = .ok () ↔
      ∀ branch ∈ branches, branch.1.WellTyped ∧ ∀ s ∈ branch.2, s.WellTyped := by
  induction branches with
  | nil => simp [checkForest_eq_ok_iff]
  | cons branch rest ih =>
    obtain ⟨hcondition, hconditions⟩ := forall_mem_cons.mp hconditions
    obtain ⟨hbody, hbodies⟩ := forall_mem_cons.mp hbodies
    rw [List.flatMap_cons, checkForest_append, checkForest_cons, Except.step_ok_iff, Except.step_ok_iff,
      hcondition.checkTree_iff, checkForest_iff hbody, ih hconditions hbodies, forall_mem_cons]

theorem accepts_of_makeChoose {conditions : List Expr} {bodies : List (List Stmt)} {otherwise : Option (List Stmt)}
    (h : makeChoose conditions bodies otherwise attrs = .ok s) : ∀ c ∈ conditions, Ty.boolean.accepts c.type = true := by
  have hconditions : checkConditions conditions = .ok () → ∀ c ∈ conditions, Ty.boolean.accepts c.type = true := by
    clear h
    induction conditions with
    | nil => exact fun _ => forall_mem_nil _
    | cons c rest ih =>
      intro h
      rw [checkConditions] at h
      split at h
      · next haccepts => exact forall_mem_cons.mpr ⟨haccepts, ih h⟩
      · cases h
  unfold makeChoose at h
  split at h
  · cases h
  · split at h
    · cases h
    · obtain ⟨_, hchecked, -⟩ := Except.bind_ok_iff.mp h
      exact hconditions hchecked

theorem findsOpen_choose {conditions : List Expr} {bodies : List (List Stmt)} {otherwise : Option (List Stmt)}
    (made : makeChoose conditions bodies otherwise attrs = .ok s) (hconditions : ∀ c ∈ conditions, c.FindsOpen)
    (hbodies : ∀ body ∈ bodies, ∀ part ∈ body, part.FindsOpen)
    (hotherwise : ∀ body, otherwise = some body → ∀ part ∈ body, part.FindsOpen) : s.FindsOpen := by
  have haccepts := accepts_of_makeChoose made
  obtain ⟨rfl, -⟩ := exists_of_makeChoose made
  have hmem : ∀ branch ∈ conditions.zip bodies, branch.1 ∈ conditions ∧ branch.2 ∈ bodies := fun branch =>
    List.of_mem_zip
  have hfirst : ∀ branch ∈ conditions.zip bodies, branch.1.FindsOpen := fun branch hb => hconditions _ (hmem branch hb).1
  have hrest : ∀ branch ∈ conditions.zip bodies, ∀ part ∈ branch.2, part.FindsOpen := fun branch hb =>
    hbodies _ (hmem branch hb).2
  have hlast : ∀ part ∈ otherwise.getD [], part.FindsOpen := by
    cases otherwise with
    | none => exact forall_mem_nil _
    | some body => exact hotherwise body rfl
  have hotherwise : checkOtherwise otherwise = checkForest ((otherwise.getD []).map .statement) := by
    cases otherwise with
    | none => rfl
    | some body => exact checkAll_eq hlast
  refine ⟨?_, ?_⟩
  · rw [check, checkBranches_eq (fun branch hb => ⟨hfirst branch hb, haccepts _ (hmem branch hb).1⟩) hrest, hotherwise,
      checkTree_statement, nodes, checkForest_append]
  · rw [checkTree_statement, nodes, checkForest_append, Except.step_ok_iff, checkBranches_iff hfirst hrest,
      checkForest_iff hlast, WellTyped, everywhere_choose]
    simp only [Checks, exprs, List.forall_mem_map]
    constructor
    · rintro ⟨hwell, hlast⟩
      refine ⟨⟨fun branch hb => (hwell branch hb).1, fun branch hb => ?_⟩, fun branch hb => (hwell branch hb).2, ?_⟩
      · exact Ty.eq_of_accepts (haccepts _ (hmem branch hb).1) rfl (hwell branch hb).1.isConcrete
      · rintro body rfl
        exact hlast
    · rintro ⟨⟨hwell, -⟩, hbodies, hlast⟩
      refine ⟨fun branch hb => ⟨hwell branch hb, hbodies branch hb⟩, ?_⟩
      cases otherwise with
      | none => exact forall_mem_nil _
      | some body => exact hlast body rfl

theorem findsOpen_assign {target : Var} {value : Expr} (made : makeAssign target value attrs = .ok s)
    (hvalue : value.FindsOpen) : s.FindsOpen := by
  have haccepts : target.type.accepts value.type = true := by
    unfold makeAssign at made
    grind
  obtain rfl := eq_of_makeAssign made
  refine ⟨?_, ?_⟩
  · rw [check, Var.check_eq, checkTree_statement, nodes, checkForest_cons, checkForest_singleton, bind_assoc]
    simp only [Except.ok_bind, hvalue.checkAs haccepts]
  · rw [checkTree_statement, nodes, checkForest_cons, checkForest_singleton, Except.step_ok_iff, Var.checkTree_iff,
      hvalue.checkTree_iff, WellTyped, everywhere_leaf_iff rfl]
    simp only [Checks, exprs, forall_mem_singleton]
    exact ⟨fun h => ⟨h.2, h.1, Ty.eq_of_accepts haccepts h.1 h.2.isConcrete⟩, fun h => ⟨h.2.1, h.1⟩⟩

theorem findsOpen_count {counter : Var} {first last step : Expr}
    (made : makeCount counter first last step body attrs = .ok s) (hfirst : first.FindsOpen) (hlast : last.FindsOpen)
    (hstep : step.FindsOpen) (hbody : ∀ part ∈ body, part.FindsOpen) : s.FindsOpen := by
  have haccepts : Ty.number.accepts counter.type = true ∧ Ty.number.accepts first.type = true ∧
      Ty.number.accepts last.type = true ∧ Ty.number.accepts step.type = true := by
    unfold makeCount at made
    grind
  obtain ⟨acceptsCounter, acceptsFirst, acceptsLast, acceptsStep⟩ := haccepts
  have hnumber : ∀ {t : Ty}, Ty.number.accepts t = true → t.isConcrete = true → t = .number := fun h => Ty.eq_of_accepts h rfl
  obtain rfl := eq_of_makeCount made
  refine ⟨?_, ?_⟩
  · rw [check, Var.check_eq, checkTree_statement, nodes, checkForest_cons, checkForest_cons, checkForest_cons,
      checkForest_cons, bind_assoc, hfirst.checkAs acceptsFirst, hlast.checkAs acceptsLast, hstep.checkAs acceptsStep,
      checkAll_eq hbody]
    rfl
  · rw [checkTree_statement, nodes, checkForest_cons, checkForest_cons, checkForest_cons, checkForest_cons]
    simp only [Except.step_ok_iff, Var.checkTree_iff, hfirst.checkTree_iff, hlast.checkTree_iff, hstep.checkTree_iff,
      checkForest_iff hbody]
    rw [WellTyped, everywhere_count]
    simp only [Checks, exprs]
    rw [forall_mem_cons, forall_mem_cons, forall_mem_singleton]
    constructor
    · rintro ⟨hcounter, wellFirst, wellLast, wellStep, wellBody⟩
      exact ⟨⟨⟨wellFirst, wellLast, wellStep⟩, hnumber acceptsCounter hcounter, hnumber acceptsFirst wellFirst.isConcrete,
        hnumber acceptsLast wellLast.isConcrete, hnumber acceptsStep wellStep.isConcrete⟩, wellBody⟩
    · rintro ⟨⟨⟨wellFirst, wellLast, wellStep⟩, hcounter, -⟩, wellBody⟩
      exact ⟨by rw [hcounter]; rfl, wellFirst, wellLast, wellStep, wellBody⟩

theorem findsOpen_forEach {item : Var} {list : Expr} (made : makeForEach item list body attrs = .ok s)
    (hlist : list.FindsOpen) (hbody : ∀ part ∈ body, part.FindsOpen) : s.FindsOpen := by
  have haccepts : (Ty.list item.type).accepts list.type = true := by
    unfold makeForEach at made
    grind
  obtain rfl := eq_of_makeForEach made
  refine ⟨?_, ?_⟩
  · rw [check, Var.check_eq, checkTree_statement, nodes, checkForest_cons, checkForest_cons, bind_assoc, checkAll_eq hbody]
    simp only [Except.ok_bind, hlist.checkAs haccepts]
  · rw [checkTree_statement, nodes, checkForest_cons, checkForest_cons]
    simp only [Except.step_ok_iff, Var.checkTree_iff, hlist.checkTree_iff, checkForest_iff hbody]
    rw [WellTyped, everywhere_forEach]
    simp only [Checks, exprs, forall_mem_singleton]
    exact ⟨fun h => ⟨⟨h.2.1, h.1, Ty.eq_of_accepts haccepts h.1 h.2.1.isConcrete⟩, h.2.2⟩, fun h => ⟨h.1.2.1, h.1.1, h.2⟩⟩

theorem findsOpen_headed {e : Expr} {t : Ty} (he : e.FindsOpen) (ht : t.isConcrete = true)
    (haccepts : t.accepts e.type = true) (hbody : ∀ part ∈ body, part.FindsOpen)
    (hcheck : s.check = (e.checkAs t >>= fun _ => checkAll body)) (hnodes : s.nodes = .value e :: body.map .statement)
    (hwell : s.WellTyped ↔ (e.WellTyped ∧ e.type = t) ∧ ∀ part ∈ body, part.WellTyped) : s.FindsOpen := by
  have htree : checkTree (.statement s) = (checkTree (.value e) >>= fun _ => checkForest (body.map .statement)) := by
    rw [checkTree_statement, hnodes, checkForest_cons]
  refine ⟨by rw [hcheck, he.checkAs haccepts, checkAll_eq hbody, htree], ?_⟩
  rw [htree, Except.step_ok_iff, he.checkTree_iff, checkForest_iff hbody, hwell,
    and_iff_left_of_imp fun h => Ty.eq_of_accepts haccepts ht h.isConcrete]

theorem findsOpen_repeat {times : Expr} (made : makeRepeat times body attrs = .ok s) (htimes : times.FindsOpen)
    (hbody : ∀ part ∈ body, part.FindsOpen) : s.FindsOpen := by
  have haccepts : Ty.number.accepts times.type = true := by
    unfold makeRepeat at made
    grind
  obtain rfl := eq_of_makeRepeat made
  refine findsOpen_headed htimes rfl haccepts hbody (by rw [check]) rfl (everywhere_repeat.trans ?_)
  simp only [Checks, exprs, forall_mem_singleton]

theorem findsOpen_loop {mode : LoopMode} {condition : Expr} (made : makeLoop mode condition body attrs = .ok s)
    (hcondition : condition.FindsOpen) (hbody : ∀ part ∈ body, part.FindsOpen) : s.FindsOpen := by
  have haccepts : Ty.boolean.accepts condition.type = true := by
    unfold makeLoop at made
    grind
  obtain rfl := eq_of_makeLoop made
  refine findsOpen_headed hcondition rfl haccepts hbody (by rw [check]) rfl (everywhere_loop.trans ?_)
  simp only [Checks, exprs, forall_mem_singleton]

theorem findsOpen_wait {time : Expr} (made : makeWait time attrs = .ok s) (htime : time.FindsOpen) : s.FindsOpen := by
  have haccepts : Ty.number.accepts time.type = true := by
    unfold makeWait at made
    grind
  obtain rfl := eq_of_makeWait made
  refine ⟨?_, ?_⟩
  · rw [check, htime.checkAs haccepts, checkTree_statement, nodes, checkForest_singleton]
  · rw [checkTree_statement, nodes, checkForest_singleton, htime.checkTree_iff, WellTyped, everywhere_leaf_iff rfl]
    simp only [Checks, exprs, forall_mem_singleton]
    rw [and_iff_left_of_imp fun h => Ty.eq_of_accepts haccepts rfl h.isConcrete]

theorem findsOpen_print {text : Expr} (attrs : Attributes) (htext : text.FindsOpen) : (print text attrs).FindsOpen := by
  refine ⟨?_, ?_⟩
  · rw [check, htext.check_eq, checkTree_statement, nodes, checkForest_singleton, bind_assoc]
    exact bind_pure_unit
  · rw [checkTree_statement, nodes, checkForest_singleton, htext.checkTree_iff, WellTyped, everywhere_leaf_iff rfl]
    simp only [Checks, exprs, forall_mem_singleton, and_true]

theorem Made.findsOpen (h : s.Made) : s.FindsOpen := by
  induction h with
  | assign _ madeValue made => exact findsOpen_assign made madeValue.findsOpen
  | choose madeConditions _ _ made ih ih' =>
    exact findsOpen_choose made (fun c hc => (madeConditions c hc).findsOpen) ih ih'
  | repeat' madeTimes _ made ih => exact findsOpen_repeat made madeTimes.findsOpen ih
  | loop madeCondition _ made ih => exact findsOpen_loop made madeCondition.findsOpen ih
  | count _ madeFirst madeLast madeStep _ made ih =>
    exact findsOpen_count made madeFirst.findsOpen madeLast.findsOpen madeStep.findsOpen ih
  | forEach _ madeList _ made ih => exact findsOpen_forEach made madeList.findsOpen ih
  | flow choice attrs =>
    refine ⟨by rw [checkTree_statement]; rfl, ?_⟩
    rw [checkTree_statement, WellTyped, everywhere_leaf_iff rfl]
    simp [nodes, checkForest_eq_ok_iff, Checks, exprs]
  | wait madeTime made => exact findsOpen_wait made madeTime.findsOpen
  | print attrs madeText => exact findsOpen_print attrs madeText.findsOpen

end Stmt

/-! ## Programs -/

theorem Root.Made.check_eq {root : Root} (h : root.Made) : root.check = checkForest root.tops := by
  cases root with
  | statements body => exact Stmt.checkAll_eq fun s hs => (h s hs).findsOpen
  | value e =>
    have he : e.FindsOpen := Expr.Made.findsOpen h
    rw [Root.check, he.check_eq, Root.tops, checkForest_singleton, bind_assoc]
    exact bind_pure_unit

theorem Root.Made.checkForest_iff {root : Root} (h : root.Made) :
    checkForest root.tops = .ok () ↔ root.WellTyped := by
  cases root with
  | statements body => exact Stmt.checkForest_iff fun s hs => (h s hs).findsOpen
  | value e =>
    rw [tops, checkForest_singleton]
    exact (Expr.Made.findsOpen h).checkTree_iff

namespace Program

theorem Made.check_eq {p : Program} (h : p.Made) : p.check = p.nodes.forM Node.checkHere := by
  obtain ⟨roots⟩ := p
  change roots.forM Root.check = checkForest (roots.flatMap Root.tops)
  induction roots with
  | nil => rfl
  | cons root rest ih =>
    obtain ⟨hroot, hrest⟩ := forall_mem_cons.mp h
    change (root.check >>= fun _ => rest.forM Root.check) = _
    rw [hroot.check_eq, ih hrest, List.flatMap_cons, checkForest_append]

/-- The check of a program that was made succeeds if all types of variables and of list elements are known. Otherwise
it names the first one that is not, in the order of the nodes, and never a clash of two types. -/
theorem check_finds_first_open {p : Program} (h : p.Made) :
    (p.check = .ok () ↔ ∀ n ∈ p.nodes, ∀ t id, n.typing? = some (t, id) → t.isConcrete = true) ∧
    ∀ e, p.check = .error e ↔
      ∃ before n after t id, p.nodes = before ++ n :: after ∧
        (∀ m ∈ before, ∀ u id', m.typing? = some (u, id') → u.isConcrete = true) ∧
        n.typing? = some (t, id) ∧ t.isConcrete = false ∧ .unresolved t id = e := by
  rw [h.check_eq]
  constructor
  · simp only [Except.forM_ok_iff, Node.checkHere_eq_ok_iff]
  · intro e
    rw [Except.forM_error_iff]
    simp only [Node.checkHere_eq_ok_iff, Node.checkHere_eq_error_iff]
    constructor
    · rintro ⟨before, n, after, hnodes, hbefore, t, id, hn⟩
      exact ⟨before, n, after, t, id, hnodes, hbefore, hn⟩
    · rintro ⟨before, n, after, t, id, hnodes, hbefore, hn⟩
      exact ⟨before, n, after, hnodes, hbefore, t, id, hn⟩

/-- A text with a variable of no known type inside a branch, and a list of no known elements after it. -/
def openInBranch : Program where
  roots :=
    [.statements
      [.choose [(.boolean true { id := "a" },
          [.print (.join [.text "=" { id := "b" }, .var ⟨"x", .captured, { id := "c" }⟩] { id := "d" }) { id := "e" }])]
        none { id := "f" },
       .assign ⟨"y", .captured, { id := "g" }⟩ (.list .captured [] { id := "h" }) { id := "g" }]]

theorem made_openInBranch : openInBranch.Made := by
  have madeText : (Expr.text "=" { id := "b" }).Made := .text _ _
  have madeVar : (Expr.var ⟨"x", .captured, { id := "c" }⟩).Made := .var ⟨"x", .captured, { id := "c" }, rfl⟩
  have madeJoin : (Expr.join [.text "=" { id := "b" }, .var ⟨"x", .captured, { id := "c" }⟩] { id := "d" }).Made :=
    .join _ (forall_mem_cons.mpr ⟨madeText, forall_mem_singleton.mpr madeVar⟩)
  have madeList : (Expr.list .captured [] { id := "h" }).Made := .list (forall_mem_nil _) rfl
  have madeBranches : ∀ body ∈ [[Stmt.print (.join [.text "=" { id := "b" }, .var ⟨"x", .captured, { id := "c" }⟩]
      { id := "d" }) { id := "e" }]], ∀ part ∈ body, part.Made :=
    forall_mem_singleton.mpr (forall_mem_singleton.mpr (.print _ madeJoin))
  intro root hroot
  obtain rfl := List.mem_singleton.mp hroot
  refine forall_mem_cons.mpr ⟨?_, forall_mem_singleton.mpr ?_⟩
  · exact .choose (forall_mem_singleton.mpr (.boolean true { id := "a" })) madeBranches
      (fun _ h => absurd h (by simp)) rfl
  · exact .assign ⟨"y", .captured, { id := "g" }, rfl⟩ madeList rfl

theorem open_in_branch_found_first :
    openInBranch.check = .error (.unresolved .captured "c") ∧
    ∃ before n after t id, openInBranch.nodes = before ++ n :: after ∧
      (∀ m ∈ before, ∀ u id', m.typing? = some (u, id') → u.isConcrete = true) ∧
      n.typing? = some (t, id) ∧ t.isConcrete = false ∧ Error.unresolved t id = .unresolved .captured "c" := by
  have hcheck : openInBranch.check = .error (.unresolved .captured "c") := rfl
  exact ⟨hcheck, ((check_finds_first_open made_openInBranch).2 _).mp hcheck⟩

end Program

end Blockwork
