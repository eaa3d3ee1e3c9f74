import Blockwork.Proofs.Approximation
import Blockwork.Proofs.Derivation

/-! # Rules on blocks with given parts

What the rules do when the parts of a block are given, and which nodes they make.
-/

namespace Blockwork

set_option autoImplicit false

open Reading (constrain)

theorem Reading.ofExcept_ok {α : Type} (a : α) : ofExcept (.ok a) = pure a := rfl

def Attributes.Informs (a a' : Attributes) : Prop :=
  ∀ key ∈ ["datatype", "list_type"], ∀ kept, a.mutation? key = some kept → a'.mutation? key = some kept

namespace Block

variable {b b' c : Block} {slot : String}

/-! ## Equations -/

theorem read_of_tag {tag : Tag} (h : b.tag = tag.name) : b.read = b.rule (fun child _ => child.read) tag := by
  rw [read, Tag.ofName?_eq_some_iff.mpr h]

theorem read_binary {op : BinaryOp} (h : b.tag = op.tag) :
    b.read = value (b.readBinary fun child _ => child.read) := by
  cases op with
  | add | minus | multiply | divide | power => exact @read_of_tag b .arithmetic h
  | eq | neq | lt | lte | gt | gte => exact @read_of_tag b .compare h
  | and | or => exact @read_of_tag b .logic h

theorem valueIn_of_plugged (h : b.Plugged slot c) (expected : Ty) :
    b.valueIn (fun child _ => child.read) slot expected = (do
      let e ← c.readExpr
      constrain e expected
      return e) := by
  unfold valueIn
  split
  · next hnone =>
    rw [h.value] at hnone
    cases hnone
  · next child hchild =>
    rw [h.value] at hchild
    cases hchild
    rfl

theorem statementsIn_eq (slot : String) :
    b.statementsIn (fun child _ => child.read) slot = (b.body slot).mapM readStmt := by
  unfold statementsIn
  split
  · next h =>
    rw [body, h, chainFrom_none]
    rfl
  · next first h =>
    have hbody : b.body slot = first.chain := by rw [body, h, chainFrom_some]
    rw [hbody]
    change first.chain.attach.mapM (readStmt ∘ Subtype.val) = _
    rw [← List.mapM_map, List.attach_map_subtype_val]

theorem requiredField_of_field {name value : String} (h : b.field? name = some value) :
    b.requiredField name = .ok value := by
  unfold requiredField
  rw [h]

theorem requiredName_of_names {name : String} (h : b.Names name) : b.requiredName = .ok name := by
  unfold requiredName
  rw [requiredField_of_field h.field, Except.ok_bind, h.visible]
  rfl

theorem requiredWord_of_field {α : Type} {field word : String} {ofWord? : String → Option α} {a : α}
    (h : b.field? field = some word) (hword : ofWord? word = some a) :
    b.requiredWord field ofWord? = .ok a := by
  unfold requiredWord
  rw [requiredField_of_field h, Except.ok_bind, hword]
  rfl

theorem read_unary {op : UnaryOp} (h : b.tag = op.tag)
    (hfield : ∀ word, op.word? = some word → b.field? "OP" = some word) :
    b.read = value (b.readUnary (fun child _ => child.read) op) := by
  cases hword : op.word? with
  | none =>
    cases op with
    | not => exact @read_of_tag b .negate h
    | _ => cases hword
  | some word =>
    have htag : b.tag = Tag.function.name := by
      cases op with
      | not => cases hword
      | _ => exact h
    have hop := UnaryOp.ofWord?_eq_some_iff.mpr hword
    rw [read_of_tag htag, rule]
    unfold readFunction
    rw [requiredWord_of_field (hfield word hword) hop, Reading.ofExcept_ok, pure_bind]

theorem Declares.exists_declared {key : String} {t : Ty} (h : b.Declares key t) :
    ∃ declared, b.declaredType key = .ok declared ∧ ∀ u, declared = some u → u = t := by
  rcases h with h | h
  · exact ⟨none, h, fun _ hu => nomatch hu⟩
  · exact ⟨some t, h, fun _ hu => (Option.some.inj hu).symm⟩

theorem declaredType_of_informs {key : String} {t : Ty} {declared : Option Ty} (hkey : key ∈ ["datatype", "list_type"])
    (hinforms : b.nodeAttrs.Informs b'.nodeAttrs) (h : b.declaredType key = .ok (some t))
    (h' : b'.declaredType key = .ok declared) : declared = some t := by
  cases hkept : b.attrs.mutation? key with
  | none => simp [declaredType, writtenAttribute?, hkept] at h
  | some kept =>
    have hsame : b'.attrs.mutation? key = b.attrs.mutation? key := (hinforms key hkey kept hkept).trans hkept.symm
    exact Except.ok.inj (h'.symm.trans (declaredType_congr hsame h))

theorem readNumber_of_field {literal : String} {value : Binary64} (h : b.field? "NUM" = some literal)
    (hvalue : Numeral.value literal = .ok value) :
    b.readNumber = pure (.number literal value b.nodeAttrs) := by
  unfold readNumber Expr.makeNumber
  rw [requiredField_of_field h, Reading.ofExcept_ok, pure_bind, hvalue]
  rfl

theorem readBoolean_of_field {value : Bool} (h : b.field? "BOOL" = some (Expr.truthWord value)) :
    b.readBoolean = pure (.boolean value b.nodeAttrs) := by
  unfold readBoolean
  rw [requiredWord_of_field h (truth?_eq_some_iff.mpr rfl), Reading.ofExcept_ok, pure_bind]

theorem readText_of_field {value : String} (h : b.field? "TEXT" = some value) :
    b.readText = pure (.text value b.nodeAttrs) := by
  unfold readText
  rw [requiredField_of_field h, Reading.ofExcept_ok, pure_bind]

theorem readFlow_of_field {choice : Flow} (h : b.field? "FLOW" = some choice.word) :
    b.readFlow = pure (.flow choice b.nodeAttrs) := by
  unfold readFlow
  rw [requiredWord_of_field h (Flow.ofWord?_eq_some_iff.mpr rfl), Reading.ofExcept_ok, pure_bind]

end Block

/-! ## Made nodes -/

namespace Expr

variable {op : BinaryOp} {e left right : Expr} {element : Ty} {items : List Expr} {attrs : Attributes}

theorem eq_of_makeBinary (h : makeBinary op left right attrs = .ok e) : e = .binary op left right attrs := by
  unfold makeBinary at h
  grind

theorem eq_of_makeUnary {op : UnaryOp} (h : makeUnary op left attrs = .ok e) : e = .unary op left attrs := by
  unfold makeUnary at h
  grind

theorem eq_of_makeList (h : makeList element items attrs = .ok e) : e = .list element items attrs := by
  unfold makeList at h
  obtain ⟨-, -, h⟩ := Except.bind_ok_iff.mp h
  exact (Except.ok.inj h).symm

theorem makeList_of_refines {element : Ty} (h : ∀ e ∈ items, element.Refines e.type)
    (attrs : Attributes) : makeList element items attrs = .ok (.list element items attrs) := by
  unfold makeList
  rw [Block.checkItems_of_refines h]
  rfl

theorem eq_of_makeLength (h : makeLength left attrs = .ok e) : e = .length left attrs := by
  unfold makeLength at h
  grind

end Expr

namespace Stmt

variable {target : Var} {s : Stmt} {value first last step : Expr} {body : List Stmt} {attrs : Attributes}

theorem eq_of_makeAssign (h : makeAssign target value attrs = .ok s) : s = .assign target value attrs := by
  unfold makeAssign at h
  grind

theorem eq_of_makeRepeat (h : makeRepeat value body attrs = .ok s) : s = .repeat value body attrs := by
  unfold makeRepeat at h
  grind

theorem eq_of_makeLoop {mode : LoopMode} (h : makeLoop mode value body attrs = .ok s) :
    s = .loop mode value body attrs := by
  unfold makeLoop at h
  grind

theorem eq_of_makeCount (h : makeCount target first last step body attrs = .ok s) :
    s = .count target first last step body attrs := by
  unfold makeCount at h
  grind

theorem makeCount_of_types {counter : Var} {first last step : Expr} (hcounter : counter.type = .number)
    (hfirst : first.type = .number) (hlast : last.type = .number) (hstep : step.type = .number)
    (body : List Stmt) (attrs : Attributes) :
    makeCount counter first last step body attrs = .ok (.count counter first last step body attrs) := by
  unfold makeCount
  rw [hcounter, hfirst, hlast, hstep]
  rfl

theorem eq_of_makeForEach (h : makeForEach target value body attrs = .ok s) :
    s = .forEach target value body attrs := by
  unfold makeForEach at h
  grind

theorem eq_of_makeWait (h : makeWait value attrs = .ok s) : s = .wait value attrs := by
  unfold makeWait at h
  grind

theorem exists_of_makeChoose {conditions : List Expr} {bodies : List (List Stmt)}
    {otherwise : Option (List Stmt)} (h : makeChoose conditions bodies otherwise attrs = .ok s) :
    s = .choose (conditions.zip bodies) otherwise attrs ∧
      ∃ n, conditions.length = n + 1 ∧ bodies.length = n + 1 := by
  unfold makeChoose at h
  split at h
  · cases h
  · next hne =>
    split at h
    · cases h
    · next hlength =>
      obtain ⟨-, -, h⟩ := Except.bind_ok_iff.mp h
      obtain ⟨n, hn⟩ : ∃ n, conditions.length = n + 1 := by
        refine Nat.exists_eq_add_one.mpr (List.length_pos_iff.mpr ?_)
        rintro rfl
        exact hne rfl
      exact ⟨(Except.ok.inj h).symm, n, hn, by omega⟩

theorem below_choose {R : Attributes → Attributes → Prop} {conditions : List Expr} {bodies : List (List Stmt)}
    {branches : List (Expr × List Stmt)}
    {last last' : Option (List Stmt)} {a a' : Attributes} (hlength : conditions.length = bodies.length)
    (hconditions : List.Forall₂ (Expr.Below R) conditions (branches.map Prod.fst))
    (hbodies : List.Forall₂ (List.Forall₂ (Below R)) bodies (branches.map Prod.snd))
    (hisSome : last.isSome = last'.isSome) (hlast : List.Forall₂ (Below R) (last.getD []) (last'.getD []))
    (hattrs : R a a') : (choose (conditions.zip bodies) last a).Below R (choose branches last' a') := by
  refine .choose ?_ ?_ hisSome hlast hattrs
  · rw [List.map_fst_zip hlength.le]
    exact hconditions
  · rw [List.map_snd_zip hlength.ge]
    exact hbodies

end Stmt

end Blockwork
