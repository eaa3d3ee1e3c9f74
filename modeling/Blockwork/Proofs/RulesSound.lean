import Blockwork.Program.OfBlocks
import Blockwork.Proofs.Provenance

/-! # Rules are sound

Each rule makes nodes that fit together, because what was asked of a value agrees with the type that the
value has when the node is made.
-/

namespace Blockwork

set_option autoImplicit false

open List (forall_mem_cons Forall₂)
open TypeEnv (knows_cons knows_nil knows_append)

namespace Block

open Reading (Sound sound_pure sound_throw sound_ofExcept node_of_ok sound_mapM)

variable {env : TypeEnv} {b : Block}

/-! ## Values without parts -/

theorem makeVar_of_visible {name : String} (h : (Text.strip name.toList).isEmpty = false) (t : Ty)
    (attrs : Attributes) : Var.make name t attrs = .ok { name, type := t, attrs } := by
  unfold Var.make
  rw [h]
  rfl

theorem sound_readVar (htag : b.tag = Tag.var.name) :
    Sound b.ids b.readVar env fun e env' => e.ComesFrom b ∧ env'.Knows e.vars := by
  rw [readVar_eq]
  refine (sound_ofExcept b.sound_requiredName).bind fun name _ _ hname => ?_
  refine (sound_ofExcept (b.sound_declaredType "datatype")).bind fun declared _ _ hdeclared => ?_
  refine (Reading.sound_bindDeclared name declared b.id_mem_ids).bind fun _ env₁ _ hbound => ?_
  refine (Reading.sound_lookup name).bind fun t env₂ hgrow ht => ?_
  rw [node_of_ok (makeVar_of_visible hname.visible t b.nodeAttrs), pure_bind]
  subst ht
  refine sound_pure ⟨.var htag hname (declares_of_refines hdeclared fun u hu => ?_) rfl, ?_⟩
  · exact (hgrow.within name).trans (hbound u hu)
  · exact knows_cons.mpr ⟨.refl _, knows_nil⟩

theorem sound_readNumber (htag : b.tag = Tag.number.name) :
    Sound b.ids b.readNumber env fun e env' => e.ComesFrom b ∧ env'.Knows e.vars := by
  unfold readNumber
  refine (sound_ofExcept (b.sound_requiredField "NUM")).bind fun literal _ _ hfield => ?_
  unfold Expr.makeNumber
  cases hvalue : Numeral.value literal with
  | error d => exact sound_throw ⟨b.id, b.id_mem_ids, rfl⟩
  | ok value => exact sound_pure ⟨.number htag hfield hvalue, knows_nil⟩

theorem sound_readBoolean (htag : b.tag = Tag.boolean.name) :
    Sound b.ids b.readBoolean env fun e env' => e.ComesFrom b ∧ env'.Knows e.vars := by
  unfold readBoolean
  refine (sound_ofExcept (b.sound_requiredWord "BOOL" truth?)).bind fun value _ _ hword => ?_
  obtain ⟨word, hfield, hvalue⟩ := hword
  rw [truth?_eq_some_iff] at hvalue
  exact sound_pure ⟨.boolean htag (hvalue ▸ hfield), knows_nil⟩

theorem sound_readText (htag : b.tag = Tag.text.name) :
    Sound b.ids b.readText env fun e env' => e.ComesFrom b ∧ env'.Knows e.vars := by
  unfold readText
  refine (sound_ofExcept (b.sound_requiredField "TEXT")).bind fun value _ _ hfield => ?_
  exact sound_pure ⟨.text htag hfield, knows_nil⟩

/-! ## Values with parts -/

theorem isConcrete_operandType {op : BinaryOp} (h : op.isEquality = false) : op.operandType.isConcrete = true := by
  cases op <;> first | rfl | cases h

theorem makeBinary_of_accepts {op : BinaryOp} {left right : Expr}
    (hl : op.operandType.accepts left.type = true) (hr : op.operandType.accepts right.type = true)
    (attrs : Attributes) (h : left.type.accepts right.type = true) :
    Expr.makeBinary op left right attrs = .ok (.binary op left right attrs) := by
  unfold Expr.makeBinary
  rw [hl, hr, h]
  rfl

theorem checkItems_of_refines {element : Ty} {index : Nat} {items : List Expr}
    (h : ∀ e ∈ items, element.Refines e.type) : Expr.checkItems element index items = .ok () := by
  induction items generalizing index with
  | nil => rfl
  | cons e rest ih =>
    obtain ⟨he, hrest⟩ := forall_mem_cons.mp h
    rw [Expr.checkItems, if_pos ((Ty.Refines.refl element).accepts he)]
    exact ih hrest

theorem holds_of_plugged {slots : List String} {n : Nat} {children : List Block}
    (hslots : b.itemSlots = .ok slots) (hn : slots = (List.range n).map itemSlot)
    (hplugged : Forall₂ b.Plugged slots children) : b.Holds children := by
  have hlen : children.length = n := by
    rw [← hplugged.length_eq, hn, List.length_map, List.length_range]
  subst hlen hn
  exact ⟨hslots, hplugged⟩

theorem checkConditions_of_accepts {conditions : List Expr}
    (h : ∀ e ∈ conditions, Ty.boolean.accepts e.type = true) :
    Stmt.checkConditions conditions = .ok () := by
  induction conditions with
  | nil => rfl
  | cons e rest ih =>
    obtain ⟨he, hrest⟩ := forall_mem_cons.mp h
    rw [Stmt.checkConditions, if_pos he]
    exact ih hrest

theorem makeChoose_of_accepts {n : Nat} {conditions : List Expr} {bodies : List (List Stmt)}
    (hn : conditions.length = n + 1) (hn' : bodies.length = n + 1)
    (h : ∀ e ∈ conditions, Ty.boolean.accepts e.type = true) (otherwise : Option (List Stmt))
    (attrs : Attributes) :
    Stmt.makeChoose conditions bodies otherwise attrs =
      .ok (.choose (conditions.zip bodies) otherwise attrs) := by
  unfold Stmt.makeChoose
  have hne : conditions.isEmpty = false := by
    cases conditions with
    | nil => cases hn
    | cons => rfl
  rw [hne, hn, hn', checkConditions_of_accepts h]
  simp

section Parts

variable {inner : Inner b} (hinner : ∀ child h env, Sound child.ids (inner child h) env child.Reads)

include hinner

theorem sound_readBinary : Sound b.ids (b.readBinary inner) env fun e env' => e.ComesFrom b ∧ env'.Knows e.vars := by
  rw [readBinary_eq]
  refine (sound_ofExcept (b.sound_requiredWord "OP" _)).bind fun op _ _ hword => ?_
  obtain ⟨word, hfield, hop⟩ := hword
  obtain ⟨rfl, htag⟩ := BinaryOp.ofWord?_eq_some_iff.mp hop
  refine (sound_valueIn hinner "A" op.operandType).bind fun left env₁ _ hleft => ?_
  obtain ⟨⟨l, hl, fromLeft⟩, knownLeft, u, hu⟩ := hleft
  refine (sound_valueIn hinner "B" op.operandType).bind fun right env₂ grow₂ hright => ?_
  obtain ⟨⟨r, hr, fromRight⟩, knownRight, w, hw⟩ := hright
  refine (Reading.sound_share op (fromLeft.among.mono hl.ids) (fromRight.among.mono hr.ids)
    b.id_mem_ids).bind fun _ env₃ grow₃ hshared => ?_
  have hmade : Expr.makeBinary op left right b.nodeAttrs = .ok (.binary op left right b.nodeAttrs) := by
    refine makeBinary_of_accepts (Ty.accepts_of_unify? hu) (Ty.accepts_of_unify? hw) b.nodeAttrs ?_
    cases hop : op.isEquality with
    | true =>
      obtain ⟨v, hv⟩ := hshared hop
      exact Ty.accepts_of_unify? hv
    | false =>
      -- Other operators ask for one type without placeholders on both sides.
      have hconcrete := isConcrete_operandType hop
      exact (Ty.refines_of_unify? hu hconcrete).accepts (Ty.refines_of_unify? hw hconcrete)
  rw [node_of_ok hmade]
  refine sound_pure ⟨.binary htag hfield hl hr fromLeft fromRight, ?_⟩
  exact knows_append.mpr ⟨knownLeft.mono (grow₂.trans grow₃).within, knownRight.mono grow₃.within⟩

theorem sound_readUnary {op : UnaryOp} (htag : b.tag = op.tag)
    (hfield : ∀ word, op.word? = some word → b.field? "OP" = some word) :
    Sound b.ids (b.readUnary inner op) env fun e env' => e.ComesFrom b ∧ env'.Knows e.vars := by
  unfold readUnary
  refine (sound_valueIn hinner op.slot op.operandType).bind fun operand env₁ _ hoperand => ?_
  obtain ⟨⟨c, hc, fromOperand⟩, known, u, hu⟩ := hoperand
  have hmade : Expr.makeUnary op operand b.nodeAttrs = .ok (.unary op operand b.nodeAttrs) :=
    if_pos (Ty.accepts_of_unify? hu)
  rw [node_of_ok hmade]
  exact sound_pure ⟨.unary htag hfield hc fromOperand, known⟩

theorem sound_readFunction (htag : b.tag = Tag.function.name) :
    Sound b.ids (b.readFunction inner) env fun e env' => e.ComesFrom b ∧ env'.Knows e.vars := by
  unfold readFunction
  refine (sound_ofExcept (b.sound_requiredWord "OP" _)).bind fun op _ _ hword => ?_
  obtain ⟨word, hfield, hop⟩ := hword
  rw [UnaryOp.ofWord?_eq_some_iff] at hop
  have hoptag : b.tag = op.tag := by
    rw [htag]
    cases op <;> first | rfl | cases hop
  refine sound_readUnary hinner hoptag fun word' hword' => ?_
  rw [hop] at hword'
  cases hword'
  exact hfield

theorem sound_readElements (element : Ty) (slots : List String) :
    Sound b.ids (b.readElements inner element slots) env fun read env' =>
      (∃ children, Forall₂ b.Plugged slots children ∧
        Forall₂ Expr.ComesFrom read.2 children) ∧
      env'.Knows (Expr.varsIn read.2) ∧ read.1.Refines element ∧
      ∀ e ∈ read.2, read.1.Refines e.type := by
  induction slots generalizing element env with
  | nil =>
    rw [readElements]
    exact sound_pure ⟨⟨[], .nil, .nil⟩, knows_nil, .refl _, fun _ h => absurd h List.not_mem_nil⟩
  | cons slot rest ih =>
    rw [readElements]
    refine (sound_valueIn hinner slot element).bind fun item env₁ _ hitem => ?_
    obtain ⟨⟨c, hc, fromItem⟩, known, -⟩ := hitem
    have hid : item.id ∈ b.ids := hc.ids fromItem.id_mem
    refine (Reading.sound_unify element item.type hid).bind fun t env₂ grow₂ ht => ?_
    refine (ih t).bind fun read env₃ grow₃ hread => ?_
    obtain ⟨final, items⟩ := read
    obtain ⟨⟨children, plugged, fromItems⟩, knownItems, hfinal, hitems⟩ := hread
    refine sound_pure ⟨⟨c :: children, .cons hc plugged, .cons fromItem fromItems⟩, ?_, ?_, ?_⟩
    · exact knows_append.mpr ⟨known.mono (grow₂.trans grow₃).within, knownItems⟩
    · exact hfinal.trans (Ty.unify?_refines_left ht)
    · exact forall_mem_cons.mpr ⟨hfinal.trans (Ty.unify?_refines_right ht), hitems⟩

theorem sound_readList (htag : b.tag = Tag.list.name) :
    Sound b.ids (b.readList inner) env fun e env' => e.ComesFrom b ∧ env'.Knows e.vars := by
  unfold readList
  refine (sound_ofExcept (b.sound_declaredType "list_type")).bind fun declared _ _ hdeclared => ?_
  refine (sound_ofExcept b.sound_itemSlots).bind fun slots _ _ hslots => ?_
  obtain ⟨hslots, n, hn⟩ := hslots
  refine (sound_readElements hinner (declared.getD .captured) slots).bind fun read env₁ _ hread => ?_
  obtain ⟨element, items⟩ := read
  obtain ⟨⟨children, plugged, fromItems⟩, known, helement, hitems⟩ := hread
  have hmade : Expr.makeList element items b.nodeAttrs = .ok (.list element items b.nodeAttrs) := by
    unfold Expr.makeList
    rw [checkItems_of_refines hitems]
    rfl
  dsimp only
  rw [node_of_ok hmade]
  refine sound_pure ⟨.list htag ?_ (holds_of_plugged hslots hn plugged) fromItems, known⟩
  refine declares_of_refines hdeclared fun t ht => ?_
  subst ht
  exact helement

theorem sound_readLength (htag : b.tag = Tag.length.name) :
    Sound b.ids (b.readLength inner) env fun e env' => e.ComesFrom b ∧ env'.Knows e.vars := by
  unfold readLength
  refine (sound_valueIn hinner "VALUE" (.list .captured)).bind fun list env₁ _ hlist => ?_
  obtain ⟨⟨c, hc, fromList⟩, known, u, hu⟩ := hlist
  have hmade : Expr.makeLength list b.nodeAttrs = .ok (.length list b.nodeAttrs) := by
    unfold Expr.makeLength
    cases ht : list.type with
    | list t => rfl
    | captured => rfl
    | _ =>
      rw [ht] at hu
      cases hu
  rw [node_of_ok hmade]
  exact sound_pure ⟨.length htag hc fromList, known⟩

theorem sound_readJoin (htag : b.tag = Tag.join.name) :
    Sound b.ids (b.readJoin inner) env fun e env' => e.ComesFrom b ∧ env'.Knows e.vars := by
  unfold readJoin
  refine (sound_ofExcept b.sound_itemSlots).bind fun slots _ _ hslots => ?_
  obtain ⟨hslots, n, hn⟩ := hslots
  have hpersists : ∀ slot, Reading.Persists fun (e : Expr) env' =>
      (∃ c, b.Plugged slot c ∧ e.ComesFrom c) ∧ env'.Knows e.vars :=
    fun _ _ _ _ hgrow he => ⟨he.1, he.2.mono hgrow⟩
  have hread : ∀ slot ∈ slots, ∀ env, Sound b.ids (b.valueIn inner slot .captured) env fun e env' =>
      (∃ c, b.Plugged slot c ∧ e.ComesFrom c) ∧ env'.Knows e.vars :=
    fun slot _ env => (sound_valueIn hinner slot .captured).imp fun _ _ _ he => ⟨he.1, he.2.1⟩
  refine (sound_mapM hpersists hread).bind fun items env₁ _ hitems => ?_
  obtain ⟨children, plugged, fromItems⟩ := exists_between (hitems.imp fun _ _ => And.left)
  refine sound_pure ⟨.join htag (holds_of_plugged hslots hn plugged) fromItems, ?_⟩
  refine TypeEnv.knows_varsIn.mpr fun e he => ?_
  obtain ⟨slot, -, hslot⟩ := exists_of_mem_left hitems he
  exact hslot.2

/-! ## Statements -/

theorem sound_readAssign (htag : b.tag = Tag.assign.name) :
    Sound b.ids (b.readAssign inner) env fun s env' => s.ComesFrom b ∧ env'.Knows s.vars := by
  rw [readAssign_eq]
  refine (sound_ofExcept b.sound_requiredName).bind fun name _ _ hname => ?_
  refine (sound_ofExcept (b.sound_declaredType "datatype")).bind fun declared _ _ hdeclared => ?_
  refine (sound_valueIn hinner "VALUE" .captured).bind fun value env₁ _ hvalue => ?_
  obtain ⟨⟨c, hc, fromValue⟩, known, -⟩ := hvalue
  refine (Reading.sound_bindDeclared name declared b.id_mem_ids).bind fun _ env₂ grow₂ hbound => ?_
  refine (Reading.sound_lookup name).bind fun target env₃ grow₃ htarget => ?_
  refine (Reading.sound_unify target value.type b.id_mem_ids).bind fun t env₄ grow₄ ht => ?_
  refine (Reading.sound_bindType name t b.id_mem_ids).bind fun u env₅ grow₅ hu => ?_
  refine (Reading.sound_constrain (fromValue.among.mono hc.ids) t).bind fun _ env₆ grow₆ haccepts => ?_
  refine (Reading.sound_linkTo name value t b.id_mem_ids).bind fun _ env₇ grow₇ _ => ?_
  rw [node_of_ok (makeVar_of_visible hname.visible t b.varAttrs), pure_bind]
  obtain ⟨v, hv⟩ := haccepts
  have hmade : Stmt.makeAssign { name, type := t, attrs := b.varAttrs } value b.nodeAttrs =
      .ok (.assign { name, type := t, attrs := b.varAttrs } value b.nodeAttrs) :=
    if_pos (Ty.accepts_of_unify? hv)
  rw [node_of_ok hmade]
  refine sound_pure ⟨.assign htag hname (declares_of_refines hdeclared fun d hd => ?_) rfl hc fromValue, ?_⟩
  · have htarget' : target.Refines (env₂.lookup name) := htarget ▸ grow₃.within name
    exact (Ty.unify?_refines_left ht).trans (htarget'.trans (hbound d hd))
  · refine knows_cons.mpr ⟨?_, ?_⟩
    · exact ((grow₆.trans grow₇).within name).trans (hu.2 ▸ hu.1)
    · exact known.mono (grow₂.trans (grow₃.trans (grow₄.trans (grow₅.trans (grow₆.trans grow₇))))).within

theorem sound_readRepeat (htag : b.tag = Tag.repeat.name) :
    Sound b.ids (b.readRepeat inner) env fun s env' => s.ComesFrom b ∧ env'.Knows s.vars := by
  unfold readRepeat
  refine (sound_valueIn hinner "TIMES" .number).bind fun times env₁ _ htimes => ?_
  obtain ⟨⟨c, hc, fromTimes⟩, known, u, hu⟩ := htimes
  refine (sound_statementsIn hinner "DO").bind fun body env₂ grow₂ hbody => ?_
  have hmade : Stmt.makeRepeat times body b.nodeAttrs = .ok (.repeat times body b.nodeAttrs) :=
    if_pos (Ty.accepts_of_unify? hu)
  rw [node_of_ok hmade]
  refine sound_pure ⟨.repeat' htag hc fromTimes hbody.1, ?_⟩
  exact knows_append.mpr ⟨known.mono grow₂.within, hbody.2⟩

theorem sound_readLoop (htag : b.tag = Tag.loop.name) :
    Sound b.ids (b.readLoop inner) env fun s env' => s.ComesFrom b ∧ env'.Knows s.vars := by
  unfold readLoop
  refine (sound_ofExcept (b.sound_requiredWord "MODE" _)).bind fun mode _ _ hword => ?_
  obtain ⟨word, hfield, hmode⟩ := hword
  rw [LoopMode.ofWord?_eq_some_iff] at hmode
  refine (sound_valueIn hinner "BOOL" .boolean).bind fun condition env₁ _ hcondition => ?_
  obtain ⟨⟨c, hc, fromCondition⟩, known, u, hu⟩ := hcondition
  refine (sound_statementsIn hinner "DO").bind fun body env₂ grow₂ hbody => ?_
  have hmade : Stmt.makeLoop mode condition body b.nodeAttrs =
      .ok (.loop mode condition body b.nodeAttrs) := if_pos (Ty.accepts_of_unify? hu)
  rw [node_of_ok hmade]
  refine sound_pure ⟨.loop htag (hmode ▸ hfield) hc fromCondition hbody.1, ?_⟩
  exact knows_append.mpr ⟨known.mono grow₂.within, hbody.2⟩

theorem sound_readCount (htag : b.tag = Tag.count.name) :
    Sound b.ids (b.readCount inner) env fun s env' => s.ComesFrom b ∧ env'.Knows s.vars := by
  unfold readCount
  refine (sound_ofExcept b.sound_requiredName).bind fun name _ _ hname => ?_
  refine (Reading.sound_bindType name .number b.id_mem_ids).bind fun t env₁ _ ht => ?_
  refine (sound_valueIn hinner "FROM" .number).bind fun first env₂ grow₂ hfirst => ?_
  obtain ⟨⟨c₁, hc₁, fromFirst⟩, knownFirst, u₁, hu₁⟩ := hfirst
  refine (sound_valueIn hinner "TO" .number).bind fun last env₃ grow₃ hlast => ?_
  obtain ⟨⟨c₂, hc₂, fromLast⟩, knownLast, u₂, hu₂⟩ := hlast
  refine (sound_valueIn hinner "BY" .number).bind fun step env₄ grow₄ hstep => ?_
  obtain ⟨⟨c₃, hc₃, fromStep⟩, knownStep, u₃, hu₃⟩ := hstep
  refine (sound_statementsIn hinner "DO").bind fun body env₅ grow₅ hbody => ?_
  have hnumber : t = .number := ht.1.eq_of_isConcrete rfl
  subst hnumber
  rw [node_of_ok (makeVar_of_visible hname.visible .number b.varAttrs), pure_bind]
  have hmade : Stmt.makeCount { name, type := .number, attrs := b.varAttrs } first last step body
      b.nodeAttrs = .ok (.count { name, type := .number, attrs := b.varAttrs } first last step body
        b.nodeAttrs) := by
    unfold Stmt.makeCount
    rw [Ty.accepts_of_unify? hu₁, Ty.accepts_of_unify? hu₂, Ty.accepts_of_unify? hu₃]
    rfl
  rw [node_of_ok hmade]
  refine sound_pure ⟨.count htag hname rfl rfl hc₁ hc₂ hc₃ fromFirst fromLast fromStep hbody.1, ?_⟩
  simp only [Stmt.vars, knows_cons, knows_append]
  refine ⟨?_, ⟨⟨?_, ?_⟩, ?_⟩, hbody.2⟩
  · exact ((grow₂.trans (grow₃.trans (grow₄.trans grow₅))).within name).trans (.of_eq ht.2)
  · exact knownFirst.mono (grow₃.trans (grow₄.trans grow₅)).within
  · exact knownLast.mono (grow₄.trans grow₅).within
  · exact knownStep.mono grow₅.within

theorem sound_readForEach (htag : b.tag = Tag.forEach.name) :
    Sound b.ids (b.readForEach inner) env fun s env' => s.ComesFrom b ∧ env'.Knows s.vars := by
  rw [readForEach_eq]
  refine (sound_ofExcept b.sound_requiredName).bind fun name _ _ hname => ?_
  refine (Reading.sound_lookup name).bind fun known env₁ _ hknown => ?_
  refine (sound_valueIn hinner "LIST" (.list known)).bind fun list env₂ grow₂ hlist => ?_
  obtain ⟨⟨c, hc, fromList⟩, knownList, u, hu⟩ := hlist
  refine (Reading.sound_bindType name list.type.elementOrCaptured b.id_mem_ids).bind fun t env₃ grow₃ ht => ?_
  refine (Reading.sound_linkElements name list t b.id_mem_ids).bind fun _ env₄ grow₄ _ => ?_
  refine (sound_statementsIn hinner "DO").bind fun body env₅ grow₅ hbody => ?_
  rw [node_of_ok (makeVar_of_visible hname.visible t b.varAttrs), pure_bind]
  have hmade : Stmt.makeForEach { name, type := t, attrs := b.varAttrs } list body b.nodeAttrs =
      .ok (.forEach { name, type := t, attrs := b.varAttrs } list body b.nodeAttrs) :=
    if_pos ((Ty.Refines.refl _).accepts (Ty.list_refines hu ht.1))
  rw [node_of_ok hmade]
  refine sound_pure ⟨.forEach htag hname rfl hc fromList hbody.1, ?_⟩
  simp only [Stmt.vars, knows_cons, knows_append]
  refine ⟨?_, ?_, hbody.2⟩
  · exact ((grow₄.trans grow₅).within name).trans (.of_eq ht.2)
  · exact knownList.mono (grow₃.trans (grow₄.trans grow₅)).within

omit hinner in
theorem sound_readFlow (htag : b.tag = Tag.flow.name) :
    Sound b.ids b.readFlow env fun s env' => s.ComesFrom b ∧ env'.Knows s.vars := by
  unfold readFlow
  refine (sound_ofExcept (b.sound_requiredWord "FLOW" _)).bind fun choice _ _ hword => ?_
  obtain ⟨word, hfield, hflow⟩ := hword
  rw [Flow.ofWord?_eq_some_iff] at hflow
  exact sound_pure ⟨.flow htag (hflow ▸ hfield), knows_nil⟩

theorem sound_readWait (htag : b.tag = Tag.wait.name) :
    Sound b.ids (b.readWait inner) env fun s env' => s.ComesFrom b ∧ env'.Knows s.vars := by
  unfold readWait
  refine (sound_valueIn hinner "WAIT" .number).bind fun time env₁ _ htime => ?_
  obtain ⟨⟨c, hc, fromTime⟩, known, u, hu⟩ := htime
  have hmade : Stmt.makeWait time b.nodeAttrs = .ok (.wait time b.nodeAttrs) :=
    if_pos (Ty.accepts_of_unify? hu)
  rw [node_of_ok hmade]
  exact sound_pure ⟨.wait htag hc fromTime, known⟩

theorem sound_readPrint (htag : b.tag = Tag.print.name) :
    Sound b.ids (b.readPrint inner) env fun s env' => s.ComesFrom b ∧ env'.Knows s.vars := by
  unfold readPrint
  refine (sound_valueIn hinner "TEXT" .captured).bind fun text env₁ _ htext => ?_
  obtain ⟨⟨c, hc, fromText⟩, known, -⟩ := htext
  exact sound_pure ⟨.print htag hc fromText, known⟩

/-! ## Choices -/

/-- The conditions and branches of a choice from an index on, and where they come from. -/
structure ReadBranches (b : Block) (indices : List Nat) (conditions : List Expr)
    (bodies : List (List Stmt)) (env : TypeEnv) : Prop where
  fromConditions : ∃ children, Forall₂ b.Plugged (indices.map conditionSlot) children ∧
    Forall₂ Expr.ComesFrom conditions children
  fromBodies : Forall₂ (Forall₂ Stmt.ComesFrom) bodies
    (indices.map fun i => b.body (branchSlot i))
  knownConditions : ∀ e ∈ conditions, env.Knows e.vars
  knownBodies : ∀ body ∈ bodies, env.Knows (Stmt.varsIn body)
  boolean : ∀ e ∈ conditions, Ty.boolean.accepts e.type = true

theorem sound_readBranches (indices : List Nat) :
    Sound b.ids (b.readBranches inner indices) env fun read env' =>
      b.ReadBranches indices read.1 read.2 env' := by
  induction indices generalizing env with
  | nil =>
    rw [readBranches]
    refine sound_pure ⟨⟨[], .nil, .nil⟩, .nil, ?_, ?_, ?_⟩ <;> exact fun _ h => absurd h List.not_mem_nil
  | cons i rest ih =>
    rw [readBranches]
    refine (sound_valueIn hinner (conditionSlot i) .boolean).bind fun condition env₁ _ hcondition => ?_
    obtain ⟨⟨c, hc, fromCondition⟩, known, u, hu⟩ := hcondition
    refine (sound_statementsIn hinner (branchSlot i)).bind fun body env₂ grow₂ hbody => ?_
    refine ih.bind fun read env₃ grow₃ hread => ?_
    obtain ⟨conditions, bodies⟩ := read
    obtain ⟨children, plugged, fromConditions⟩ := hread.fromConditions
    refine sound_pure ⟨⟨c :: children, .cons hc plugged, .cons fromCondition fromConditions⟩,
      .cons hbody.1 hread.fromBodies, ?_, ?_, ?_⟩
    · exact forall_mem_cons.mpr ⟨known.mono (grow₂.trans grow₃).within, hread.knownConditions⟩
    · exact forall_mem_cons.mpr ⟨hbody.2.mono grow₃.within, hread.knownBodies⟩
    · exact forall_mem_cons.mpr ⟨Ty.accepts_of_unify? hu, hread.boolean⟩

theorem sound_readLast (hasElse : Bool) (helse : (b.statement? "ELSE").isSome = true → hasElse = true) :
    Sound b.ids (b.readLast inner hasElse) env fun last env' =>
      last.isSome = hasElse ∧ Forall₂ Stmt.ComesFrom (last.getD []) (b.body "ELSE") ∧
        env'.Knows (Stmt.varsIn (last.getD [])) := by
  unfold readLast
  cases hasElse with
  | true =>
    refine (sound_statementsIn hinner "ELSE").bind fun body env₁ _ hbody => ?_
    exact sound_pure ⟨rfl, hbody⟩
  | false =>
    have hnone : b.statement? "ELSE" = none := by
      cases h : b.statement? "ELSE" with
      | none => rfl
      | some first =>
        rw [h] at helse
        cases helse rfl
    have hbody : b.body "ELSE" = [] := by rw [Block.body, hnone, chainFrom_none]
    exact sound_pure ⟨rfl, hbody ▸ .nil, knows_nil⟩

theorem sound_readChoose (htag : b.tag = Tag.choose.name) :
    Sound b.ids (b.readChoose inner) env fun s env' => s.ComesFrom b ∧ env'.Knows s.vars := by
  rw [readChoose_eq]
  refine (sound_ofExcept (b.sound_boundedCount "elseif" _)).bind fun further _ _ hfurther => ?_
  refine (sound_ofExcept (b.sound_declaredCount "else")).bind fun otherwise _ _ hotherwise => ?_
  refine (sound_readBranches hinner (List.range (further.getD 0 + 1))).bind fun read env₁ _ hread => ?_
  obtain ⟨conditions, bodies⟩ := read
  refine (sound_readLast hinner _ fun h => ?_).bind fun last env₂ grow₂ hlast => ?_
  · rw [h, Bool.or_true]
  refine (sound_ofExcept (b.sound_refuseOthers _ _)).bind fun _ env₃ grow₃ hslots => ?_
  obtain ⟨children, plugged, fromConditions⟩ := hread.fromConditions
  have hconditions : conditions.length = further.getD 0 + 1 := by
    rw [fromConditions.length_eq, ← plugged.length_eq, List.length_map, List.length_range]
  have hbodies : bodies.length = further.getD 0 + 1 := by
    rw [hread.fromBodies.length_eq, List.length_map, List.length_range]
  rw [node_of_ok (makeChoose_of_accepts hconditions hbodies hread.boolean last b.nodeAttrs)]
  have has : b.Branches (further.getD 0 + 1) last.isSome :=
    ⟨⟨further, hfurther, rfl⟩, ⟨otherwise, hotherwise, hlast.1⟩, hslots⟩
  refine sound_pure ⟨Stmt.comesFrom_choose htag has plugged fromConditions hread.fromBodies hlast.2.1, ?_⟩
  refine knows_append.mpr ⟨TypeEnv.knows_varsInBranches.mpr fun branch hbranch => ?_, ?_⟩
  · obtain ⟨hcondition, hbody⟩ := List.of_mem_zip hbranch
    exact ⟨(hread.knownConditions _ hcondition).mono (grow₂.trans grow₃).within,
      (hread.knownBodies _ hbody).mono (grow₂.trans grow₃).within⟩
  · exact TypeEnv.knows_varsInOtherwise.mpr (hlast.2.2.mono grow₃.within)

/-! ## Blocks -/

omit hinner in
theorem sound_statement {r : Reading Stmt}
    (h : Sound b.ids r env fun s env' => s.ComesFrom b ∧ env'.Knows s.vars) :
    Sound b.ids (statement r) env b.Reads := by
  unfold statement
  exact h.bind fun s _ _ hs => sound_pure hs

omit hinner in
theorem sound_value {r : Reading Expr}
    (h : Sound b.ids r env fun e env' => e.ComesFrom b ∧ env'.Knows e.vars) :
    Sound b.ids (value r) env b.Reads := by
  unfold value
  exact h.bind fun e _ _ he => sound_pure he

theorem sound_rule (tag : Tag) (htag : b.tag = tag.name) : Sound b.ids (b.rule inner tag) env b.Reads := by
  cases tag with
  | assign => exact sound_statement (sound_readAssign hinner htag)
  | choose => exact sound_statement (sound_readChoose hinner htag)
  | «repeat» => exact sound_statement (sound_readRepeat hinner htag)
  | loop => exact sound_statement (sound_readLoop hinner htag)
  | count => exact sound_statement (sound_readCount hinner htag)
  | forEach => exact sound_statement (sound_readForEach hinner htag)
  | flow => exact sound_statement (sound_readFlow htag)
  | wait => exact sound_statement (sound_readWait hinner htag)
  | print => exact sound_statement (sound_readPrint hinner htag)
  | var => exact sound_value (sound_readVar htag)
  | number => exact sound_value (sound_readNumber htag)
  | boolean => exact sound_value (sound_readBoolean htag)
  | text => exact sound_value (sound_readText htag)
  | arithmetic => exact sound_value (sound_readBinary hinner)
  | compare => exact sound_value (sound_readBinary hinner)
  | logic => exact sound_value (sound_readBinary hinner)
  | negate => exact sound_value (sound_readUnary hinner htag fun _ h => nomatch h)
  | function => exact sound_value (sound_readFunction hinner htag)
  | list => exact sound_value (sound_readList hinner htag)
  | length => exact sound_value (sound_readLength hinner htag)
  | join => exact sound_value (sound_readJoin hinner htag)

end Parts

theorem sound_read (b : Block) (env : TypeEnv) : Sound b.ids b.read env b.Reads := by
  rw [read]
  split
  · exact sound_throw ⟨b.id, b.id_mem_ids, rfl⟩
  · next tag htag =>
    exact sound_rule (fun child _ env => sound_read child env) tag (Tag.ofName?_eq_some_iff.mp htag)
termination_by sizeOf b

theorem sound_readStmt (b : Block) (env : TypeEnv) :
    Sound b.ids b.readStmt env fun s env' => s.ComesFrom b ∧ env'.Knows s.vars :=
  sound_asStmt (sound_read b env)

/-! ## Workspaces -/

theorem sound_readRoot (allowFloating : Bool) (b : Block) (env : TypeEnv) :
    Sound b.ids (b.readRoot allowFloating) env fun root env' =>
      root.ComesFrom b ∧ env'.Knows root.vars := by
  unfold readRoot
  refine (sound_read b env).bind fun p env₁ _ hp => ?_
  cases p with
  | statement first =>
    have hrest : ∀ c ∈ chainFrom b.next, ∀ env, Sound b.ids c.readStmt env fun s env' =>
        s.ComesFrom c ∧ env'.Knows s.vars := by
      intro c hc env
      have hmem : c ∈ b.chain := by
        rw [chain_eq]
        exact List.mem_cons_of_mem b hc
      exact (sound_readStmt c env).mono (ids_subset (reached_of_mem_chain hmem))
    refine (sound_stmts (fun c => c) hrest).bind fun rest env₂ grow₂ hrest => ?_
    rw [List.map_id'] at hrest
    refine sound_pure ⟨?_, ?_⟩
    · change Forall₂ Stmt.ComesFrom (first :: rest) b.chain
      rw [chain_eq]
      exact .cons hp.1 hrest.1
    · exact knows_append.mpr ⟨hp.2.mono grow₂.within, hrest.2⟩
  | value e =>
    dsimp only
    split
    · exact sound_throw ⟨b.id, b.id_mem_ids, rfl⟩
    · next halone =>
      split
      · refine sound_pure ⟨⟨hp.1, ?_⟩, hp.2⟩
        exact Option.not_isSome_iff_eq_none.mp halone
      · exact sound_throw ⟨b.id, b.id_mem_ids, rfl⟩

def allIds (blocks : List Block) : List String :=
  blocks.flatMap ids

theorem ids_subset_allIds {b : Block} {blocks : List Block} (hb : b ∈ blocks) : b.ids ⊆ allIds blocks :=
  fun _ hid => List.mem_flatMap.mpr ⟨b, hb, hid⟩

theorem sound_readRoots (allowFloating : Bool) (blocks : List Block) (env : TypeEnv) :
    Sound (allIds blocks) (readRoots allowFloating blocks) env fun roots env' =>
      Forall₂ (fun root b => root.ComesFrom b ∧ env'.Knows root.vars) roots blocks := by
  unfold readRoots
  refine sound_mapM (fun b root env env' hgrow h => ⟨h.1, h.2.mono hgrow⟩) fun b hb env => ?_
  exact (sound_readRoot allowFloating b env).mono (ids_subset_allIds hb)

end Block

end Blockwork
