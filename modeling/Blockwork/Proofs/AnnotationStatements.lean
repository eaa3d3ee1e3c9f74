import Blockwork.Proofs.Annotation

/-! # Statements with the attributes they are rendered with

* `Stmt.Annotates` relates a statement and the one with the attributes it is rendered with.
* `Stmt.exists_annotates` and `Root.exists_annotates` say that there is one.
-/

namespace Blockwork

set_option autoImplicit false

open List (Forall₂ range)
open Block (varAttrs conditionSlot branchSlot)
open Attributes (Informs)

namespace Stmt

attribute [local simp] toBlock branchesToBlock otherwiseToBlocks toBlocks

/-! ## Chains -/

variable {b r : Block} {body body' : List Stmt} {slot : String} {branches : List (Expr × List Stmt)}

theorem ComesFrom.withNext {s : Stmt} (h : s.ComesFrom b) (next : Option Block) : s.ComesFrom { b with next } := by
  cases h with
  | assign htag hname hdeclares hattrs hplug hfrom =>
    exact .assign (b := { b with next }) htag ⟨hname.field, hname.visible⟩ hdeclares hattrs ⟨hplug.value, hplug.alone⟩ hfrom
  | choose htag has hplugged hfrom hfromBodies hfromLast =>
    exact .choose (b := { b with next }) htag ⟨has.further, has.last, has.slots⟩
      (hplugged.imp fun _ _ hplug => ⟨hplug.value, hplug.alone⟩) hfrom hfromBodies hfromLast
  | repeat' htag hplug hfrom hfromBody => exact .repeat' (b := { b with next }) htag ⟨hplug.value, hplug.alone⟩ hfrom hfromBody
  | loop htag hfield hplug hfrom hfromBody =>
    exact .loop (b := { b with next }) htag hfield ⟨hplug.value, hplug.alone⟩ hfrom hfromBody
  | count htag hname htype hattrs hplug₁ hplug₂ hplug₃ hfrom₁ hfrom₂ hfrom₃ hfromBody =>
    exact .count (b := { b with next }) htag ⟨hname.field, hname.visible⟩ htype hattrs ⟨hplug₁.value, hplug₁.alone⟩
      ⟨hplug₂.value, hplug₂.alone⟩ ⟨hplug₃.value, hplug₃.alone⟩ hfrom₁ hfrom₂ hfrom₃ hfromBody
  | forEach htag hname hattrs hplug hfrom hfromBody =>
    exact .forEach (b := { b with next }) htag ⟨hname.field, hname.visible⟩ hattrs ⟨hplug.value, hplug.alone⟩ hfrom hfromBody
  | flow htag hfield => exact .flow (b := { b with next }) htag hfield
  | wait htag hplug hfrom => exact .wait (b := { b with next }) htag ⟨hplug.value, hplug.alone⟩ hfrom
  | print htag hplug hfrom => exact .print (b := { b with next }) htag ⟨hplug.value, hplug.alone⟩ hfrom

theorem comesFrom_link {blocks : List Block} (h : Forall₂ ComesFrom body blocks) :
    Forall₂ ComesFrom body (Block.chainFrom (Block.link blocks)) := by
  induction h with
  | nil =>
    rw [Block.link_nil, Block.chainFrom_none]
    exact .nil
  | cons hhead _ ih =>
    rw [Block.link_cons, Block.chainFrom_some, Block.chain_eq]
    exact .cons (hhead.withNext _) ih

/-! ## Annotated statements -/

structure Annotates (q' q : Stmt) : Prop where
  comesFrom : q'.ComesFrom q.toBlock
  toBlock_eq : q'.toBlock = q.toBlock
  informs : q.Below Informs q'

def Annotable (q : Stmt) : Prop :=
  ∀ b : Block, q.ComesFrom b → b.Countable → ∃ q' : Stmt, q'.Annotates q

theorem comesFrom_of_written {a : Attributes} {f : Attributes → Stmt} (hattrs : r.attrs = a)
    (ha : a.Written) (h : (f r.nodeAttrs).ComesFrom r) : (f a).ComesFrom r := by
  rwa [Block.nodeAttrs_of_written hattrs ha] at h

theorem exists_annotates_body {blocks : List Block} (hfrom : Forall₂ ComesFrom body blocks)
    (hblocks : ∀ c ∈ blocks, c.Countable) (hbody : ∀ s ∈ body, s.Annotable) :
    ∃ body' : List Stmt, Forall₂ Annotates body' body := by
  induction hfrom with
  | nil => exact ⟨[], .nil⟩
  | cons hfrom _ ih =>
    obtain ⟨hblock, hblocks⟩ := List.forall_mem_cons.mp hblocks
    obtain ⟨hstmt, hbody⟩ := List.forall_mem_cons.mp hbody
    obtain ⟨s', hs'⟩ := hstmt _ hfrom hblock
    obtain ⟨rest', hrest'⟩ := ih hblocks hbody
    exact ⟨s' :: rest', .cons hs' hrest'⟩

theorem toBlocks_of_annotates (h : Forall₂ Annotates body' body) : toBlocks body' = toBlocks body := by
  induction h with
  | nil => rfl
  | cons hhead _ ih => rw [toBlocks, toBlocks, hhead.toBlock_eq, ih]

theorem informs_of_annotates (h : Forall₂ Annotates body' body) : Forall₂ (Below Informs) body body' :=
  h.flip.imp fun _ _ => Annotates.informs

theorem comesFrom_chain (h : Forall₂ Annotates body' body) :
    Forall₂ ComesFrom body' (Block.chainFrom (Block.link (toBlocks body))) := by
  refine comesFrom_link ?_
  rw [toBlocks_eq_map, List.forall₂_map_right_iff]
  exact h.imp fun _ _ => Annotates.comesFrom

theorem comesFrom_body (hr : r.statement? slot = Block.link (toBlocks body)) (h : Forall₂ Annotates body' body) :
    Forall₂ ComesFrom body' (r.body slot) := by
  rw [Block.body, hr]
  exact comesFrom_chain h

theorem plugged_withBody {base : Block} {slot' : String} {e : Expr} (body : List Block)
    (h : base.value? slot = some e.toBlock) : (base.withBody slot' body).Plugged slot e.toBlock := by
  refine ⟨?_, e.next_toBlock⟩
  rw [Block.value?, Block.values_withBody]
  exact h

theorem annotable_assign (target : Var) (value : Expr) (attrs : Attributes) :
    (assign target value attrs).Annotable := by
  intro b hfrom hb
  cases hfrom with | assign htag hname hdeclares hattrs hplug hfrom => ?_
  obtain ⟨value', hvalue'⟩ := value.exists_annotates _ hfrom (hb.value hplug)
  have hinforms : b.nodeAttrs.Informs (b.nodeAttrs.deriveType "datatype" target.type) :=
    (Informs.refl _).deriveType (.inl rfl) hdeclares rfl
  have hwritten := b.written_nodeAttrs.deriveType "datatype" target.type
  have hsame := @Block.deriveType_deriveType "datatype" b.nodeAttrs target.type (.inl rfl)
  have hdeclares' : ∀ r : Block, r.attrs = b.nodeAttrs.deriveType "datatype" target.type →
      r.Declares "datatype" target.type := by
    intro r hr
    exact hdeclares.deriveType (a := b.nodeAttrs) (.inl rfl) rfl (congrArg (Attributes.mutation? · "datatype") hr)
  generalize hderived : b.nodeAttrs.deriveType "datatype" target.type = derived at *
  refine ⟨assign { target with attrs := { derived with comment := none } } value' derived, ?_, ?_,
    .assign ⟨rfl, .refl _, hattrs ▸ hinforms⟩ hvalue'.informs hinforms⟩
  · rw [toBlock, hderived]
    refine comesFrom_of_written (f := assign { target with attrs := { derived with comment := none } } value')
      rfl hwritten ?_
    exact .assign rfl ⟨rfl, hname.visible⟩ (hdeclares' _ rfl) rfl ⟨rfl, value.next_toBlock⟩ hvalue'.comesFrom
  · rw [toBlock, toBlock, hsame, hderived, hvalue'.toBlock_eq]

theorem annotable_repeat (times : Expr) (attrs : Attributes)
    (hbody : ∀ s ∈ body, s.Annotable) : (Stmt.repeat times body attrs).Annotable := by
  intro b hfrom hb
  cases hfrom with | repeat' htag hplug hfrom hfromBody => ?_
  obtain ⟨times', htimes'⟩ := times.exists_annotates _ hfrom (hb.value hplug)
  obtain ⟨body', hbody'⟩ := exists_annotates_body hfromBody (hb.body _) hbody
  refine ⟨.repeat times' body' b.nodeAttrs, ?_, ?_, .repeat' htimes'.informs (informs_of_annotates hbody') (.refl _)⟩
  · rw [toBlock]
    have hextends := Block.extends_withBody
      { tag := Tag.repeat.name, attrs := b.nodeAttrs, values := [("TIMES", times.toBlock)] } "DO" (toBlocks body)
    refine comesFrom_of_written (f := Stmt.repeat times' body') hextends.attrs b.written_nodeAttrs ?_
    exact .repeat' hextends.tag (plugged_withBody _ rfl) htimes'.comesFrom
      (comesFrom_body ((Block.statement?_withBody rfl _).trans (if_pos rfl)) hbody')
  · rw [toBlock, toBlock, htimes'.toBlock_eq, toBlocks_of_annotates hbody']

theorem annotable_loop (mode : LoopMode) (condition : Expr) (attrs : Attributes)
    (hbody : ∀ s ∈ body, s.Annotable) : (loop mode condition body attrs).Annotable := by
  intro b hfrom hb
  cases hfrom with | loop htag hfield hplug hfrom hfromBody => ?_
  obtain ⟨condition', hcondition'⟩ :=
    condition.exists_annotates _ hfrom (hb.value hplug)
  obtain ⟨body', hbody'⟩ := exists_annotates_body hfromBody (hb.body _) hbody
  refine ⟨loop mode condition' body' b.nodeAttrs, ?_, ?_,
    .loop hcondition'.informs (informs_of_annotates hbody') (.refl _)⟩
  · rw [toBlock]
    have hextends := Block.extends_withBody
      { tag := Tag.loop.name, attrs := b.nodeAttrs, fields := [("MODE", mode.word)],
        values := [("BOOL", condition.toBlock)] } "DO" (toBlocks body)
    refine comesFrom_of_written (f := loop mode condition' body') hextends.attrs b.written_nodeAttrs ?_
    refine .loop hextends.tag ?_ (plugged_withBody _ rfl) hcondition'.comesFrom
      (comesFrom_body ((Block.statement?_withBody rfl _).trans (if_pos rfl)) hbody')
    rw [Block.field?, hextends.fields]
    rfl
  · rw [toBlock, toBlock, hcondition'.toBlock_eq, toBlocks_of_annotates hbody']

theorem annotable_count (counter : Var) (first last step : Expr) (attrs : Attributes)
    (hbody : ∀ s ∈ body, s.Annotable) : (count counter first last step body attrs).Annotable := by
  intro b hfrom hb
  cases hfrom with | count htag hname htype hattrs hplug₁ hplug₂ hplug₃ hfrom₁ hfrom₂ hfrom₃ hfromBody => ?_
  obtain ⟨first', hfirst'⟩ := first.exists_annotates _ hfrom₁ (hb.value hplug₁)
  obtain ⟨last', hlast'⟩ := last.exists_annotates _ hfrom₂ (hb.value hplug₂)
  obtain ⟨step', hstep'⟩ := step.exists_annotates _ hfrom₃ (hb.value hplug₃)
  obtain ⟨body', hbody'⟩ := exists_annotates_body hfromBody (hb.body _) hbody
  refine ⟨count counter first' last' step' body' b.nodeAttrs, ?_, ?_, .count ⟨rfl, .refl _, .refl _⟩
    hfirst'.informs hlast'.informs hstep'.informs (informs_of_annotates hbody') (.refl _)⟩
  · rw [toBlock]
    have hextends := Block.extends_withBody
      { tag := Tag.count.name, attrs := b.nodeAttrs, fields := [("VAR", counter.name)],
        values := [("BY", step.toBlock), ("FROM", first.toBlock), ("TO", last.toBlock)] } "DO" (toBlocks body)
    refine comesFrom_of_written (f := count counter first' last' step' body') hextends.attrs b.written_nodeAttrs ?_
    refine .count hextends.tag ⟨?_, hname.visible⟩ htype ?_ (plugged_withBody _ rfl) (plugged_withBody _ rfl)
      (plugged_withBody _ rfl) hfirst'.comesFrom hlast'.comesFrom hstep'.comesFrom
      (comesFrom_body ((Block.statement?_withBody rfl _).trans (if_pos rfl)) hbody')
    · rw [Block.field?, hextends.fields]
      rfl
    · rw [hattrs, varAttrs, varAttrs, hextends.attrs]
      rfl
  · rw [toBlock, toBlock, hfirst'.toBlock_eq, hlast'.toBlock_eq, hstep'.toBlock_eq, toBlocks_of_annotates hbody']

theorem annotable_forEach (item : Var) (list : Expr) (attrs : Attributes)
    (hbody : ∀ s ∈ body, s.Annotable) : (forEach item list body attrs).Annotable := by
  intro b hfrom hb
  cases hfrom with | forEach htag hname hattrs hplug hfrom hfromBody => ?_
  obtain ⟨list', hlist'⟩ := list.exists_annotates _ hfrom (hb.value hplug)
  obtain ⟨body', hbody'⟩ := exists_annotates_body hfromBody (hb.body _) hbody
  refine ⟨forEach item list' body' b.nodeAttrs, ?_, ?_,
    .forEach ⟨rfl, .refl _, .refl _⟩ hlist'.informs (informs_of_annotates hbody') (.refl _)⟩
  · rw [toBlock]
    have hextends := Block.extends_withBody
      { tag := Tag.forEach.name, attrs := b.nodeAttrs, fields := [("VAR", item.name)],
        values := [("LIST", list.toBlock)] } "DO" (toBlocks body)
    refine comesFrom_of_written (f := forEach item list' body') hextends.attrs b.written_nodeAttrs ?_
    refine .forEach hextends.tag ⟨?_, hname.visible⟩ ?_ (plugged_withBody _ rfl) hlist'.comesFrom
      (comesFrom_body ((Block.statement?_withBody rfl _).trans (if_pos rfl)) hbody')
    · rw [Block.field?, hextends.fields]
      rfl
    · rw [hattrs, varAttrs, varAttrs, hextends.attrs]
      rfl
  · rw [toBlock, toBlock, hlist'.toBlock_eq, toBlocks_of_annotates hbody']

theorem annotable_wait (time : Expr) (attrs : Attributes) : (wait time attrs).Annotable := by
  intro b hfrom hb
  cases hfrom with | wait htag hplug hfrom => ?_
  obtain ⟨time', htime'⟩ := time.exists_annotates _ hfrom (hb.value hplug)
  refine ⟨wait time' b.nodeAttrs, ?_, ?_, .wait htime'.informs (.refl _)⟩
  · rw [toBlock]
    exact comesFrom_of_written (f := wait time') rfl b.written_nodeAttrs
      (.wait rfl ⟨rfl, time.next_toBlock⟩ htime'.comesFrom)
  · rw [toBlock, toBlock, htime'.toBlock_eq]

theorem annotable_print (text : Expr) (attrs : Attributes) : (print text attrs).Annotable := by
  intro b hfrom hb
  cases hfrom with | print htag hplug hfrom => ?_
  obtain ⟨text', htext'⟩ := text.exists_annotates _ hfrom (hb.value hplug)
  refine ⟨print text' b.nodeAttrs, ?_, ?_, .print htext'.informs (.refl _)⟩
  · rw [toBlock]
    exact comesFrom_of_written (f := print text') rfl b.written_nodeAttrs
      (.print rfl ⟨rfl, text.next_toBlock⟩ htext'.comesFrom)
  · rw [toBlock, toBlock, htext'.toBlock_eq]

/-! ## Attributes of choices -/

section ChooseAttrs

variable (a : Attributes) {n : Nat} (hasElse : Bool)

theorem mutation?_chooseAttrs_further :
    (chooseAttrs a n hasElse).mutation? "elseif" =
      (if 1 < n then a.derive "elseif" (Text.natText (n - 1)) else a).mutation? "elseif" := by
  unfold chooseAttrs
  cases hasElse with
  | false => rfl
  | true => exact Attributes.mutation?_derive_of_ne _ _ (by decide)

theorem mutation?_further_last :
    (if 1 < n then a.derive "elseif" (Text.natText (n - 1)) else a).mutation? "else" = a.mutation? "else" := by
  split
  · exact Attributes.mutation?_derive_of_ne _ _ (by decide)
  · rfl

theorem mutation?_chooseAttrs_last :
    (chooseAttrs a n hasElse).mutation? "else" = a.mutation? "else" ∨
      hasElse = true ∧ (chooseAttrs a n hasElse).mutation? "else" = some "1" := by
  rw [← mutation?_further_last a (n := n)]
  unfold chooseAttrs
  generalize (if 1 < n then a.derive "elseif" (Text.natText (n - 1)) else a) = further
  cases hasElse with
  | false => exact .inl rfl
  | true =>
    rcases further.derive_cases "else" "1" with ⟨kept, -, -, e⟩ | ⟨-, e⟩
    · exact .inl (congrArg (Attributes.mutation? · "else") e)
    · refine .inr ⟨rfl, ?_⟩
      dsimp only
      rw [if_pos rfl, e, Attributes.mutation?_eq, Option.getD_some, Dict.get?_insert, if_pos rfl]

theorem written_chooseAttrs (h : a.Written) : (chooseAttrs a n hasElse).Written := by
  have hfurther : (if 1 < n then a.derive "elseif" (Text.natText (n - 1)) else a).Written := by
    split
    · exact h.derive _ _
    · exact h
  unfold chooseAttrs
  dsimp only
  split
  · exact hfurther.derive _ _
  · exact hfurther

theorem informs_chooseAttrs : a.Informs (chooseAttrs a n hasElse) := by
  have hfurther : a.Informs (if 1 < n then a.derive "elseif" (Text.natText (n - 1)) else a) := by
    split
    · exact (Informs.refl a).derive (by decide) _
    · exact .refl a
  unfold chooseAttrs
  dsimp only
  split
  · exact hfurther.derive (by decide) _
  · exact hfurther

theorem chooseAttrs_chooseAttrs (hn : n < UInt64.size) :
    chooseAttrs (chooseAttrs a n hasElse) n hasElse = chooseAttrs a n hasElse := by
  have hfurther : (if 1 < n then (chooseAttrs a n hasElse).derive "elseif" (Text.natText (n - 1))
      else chooseAttrs a n hasElse) = chooseAttrs a n hasElse := by
    split
    · next hmany =>
      have hself : keeps "elseif" (Text.natText (n - 1)) (Text.natText (n - 1)) = true :=
        Block.keeps_natText_self (by decide) (by decide) (by omega)
      obtain ⟨kept, hkept, hkeeps⟩ := a.exists_mutation?_derive hself
      refine Attributes.derive_of_keeps ?_ hkeeps
      rw [mutation?_chooseAttrs_further, if_pos hmany, hkept]
    · rfl
  rw [chooseAttrs, hfurther]
  cases hasElse with
  | false => rfl
  | true =>
    have hself : keeps "else" "1" "1" = true := by decide +kernel
    exact Attributes.derive_derive _ hself

end ChooseAttrs

/-! ## Choices -/

theorem branches_of_chooseAttrs {n : Nat} {hasElse : Bool} (h : b.Branches n hasElse)
    (hn : n < UInt64.size) (hattrs : r.attrs = chooseAttrs b.nodeAttrs n hasElse) (hvalues : n ≤ r.values.length)
    (hlast : (r.statement? "ELSE").isSome = (b.statement? "ELSE").isSome)
    (hslots : r.refuseOthers ((range n).map conditionSlot)
      ((range n).map branchSlot ++ ["ELSE"]) = .ok ()) : r.Branches n hasElse := by
  refine ⟨?_, ?_, hslots⟩
  · obtain ⟨count, hcount, hcountN⟩ := h.further
    have hdeclared := (Block.boundedCount_ok_iff.mp hcount).1
    have hmutation : r.attrs.mutation? "elseif" = _ :=
      hattrs ▸ mutation?_chooseAttrs_further b.nodeAttrs hasElse
    by_cases hmany : 1 < n
    · rw [if_pos hmany] at hmutation
      refine ⟨some (n - 1), Block.boundedCount_ok_iff.mpr ⟨?_, fun m hm => ?_⟩, by simp; omega⟩
      · exact Block.declaredCount_of_derive (by decide) (by decide) (by omega) hmutation
      · cases hm
        omega
    · rw [if_neg hmany] at hmutation
      refine ⟨count, Block.boundedCount_ok_iff.mpr ⟨Block.declaredCount_congr hmutation hdeclared, ?_⟩, hcountN⟩
      rintro m rfl
      rw [Option.getD_some] at hcountN
      omega
  · obtain ⟨count, hcount, hhas⟩ := h.last
    rcases mutation?_chooseAttrs_last b.nodeAttrs (n := n) hasElse with hkept | ⟨hset, hone⟩
    · refine ⟨count, Block.declaredCount_congr (hattrs ▸ hkept) hcount, ?_⟩
      rw [hlast]
      exact hhas
    · refine ⟨some 1, ?_, hset⟩
      have hvisible : (Text.strip "1".toList).isEmpty = false := by decide +kernel
      have hread : countOf? "1" = some 1 := by decide +kernel
      rw [Block.declaredCount_of_mutation? (hattrs ▸ hone), hvisible, hread]
      rfl

structure BranchAnnotates (branch' branch : Expr × List Stmt) : Prop where
  condition : branch'.1.Annotates branch.1
  body : Forall₂ Annotates branch'.2 branch.2

theorem exists_annotates_branches {children : List Block}
    {chains : List (List Block)} (hfrom : Forall₂ Expr.ComesFrom (branches.map Prod.fst) children)
    (hchildren : ∀ c ∈ children, c.Countable)
    (hfromBodies : Forall₂ (Forall₂ ComesFrom) (branches.map Prod.snd) chains)
    (hchains : ∀ chain ∈ chains, ∀ c ∈ chain, c.Countable)
    (hbodies : ∀ branch ∈ branches, ∀ s ∈ branch.2, s.Annotable) :
    ∃ branches' : List (Expr × List Stmt), Forall₂ BranchAnnotates branches' branches := by
  induction branches generalizing children chains with
  | nil => exact ⟨[], .nil⟩
  | cons branch rest ih =>
    cases hfrom with | cons hfrom hfroms => ?_
    cases hfromBodies with | cons hfromBody hfromBodies => ?_
    obtain ⟨hchild, hchildren⟩ := List.forall_mem_cons.mp hchildren
    obtain ⟨hchain, hchains⟩ := List.forall_mem_cons.mp hchains
    obtain ⟨hbody, hbodies⟩ := List.forall_mem_cons.mp hbodies
    obtain ⟨condition', hcondition'⟩ := Expr.exists_annotates _ _ hfrom hchild
    obtain ⟨body', hbody'⟩ := exists_annotates_body hfromBody hchain hbody
    obtain ⟨rest', hrest'⟩ := ih hfroms hchildren hfromBodies hchains hbodies
    exact ⟨(condition', body') :: rest', .cons ⟨hcondition', hbody'⟩ hrest'⟩

theorem branchesToBlock_of_annotates {branches' : List (Expr × List Stmt)}
    (h : Forall₂ BranchAnnotates branches' branches) (b : Block) (index : Nat) :
    branchesToBlock b index branches' = branchesToBlock b index branches := by
  induction h generalizing b index with
  | nil => rfl
  | @cons branch' branch _ _ hhead _ ih =>
    obtain ⟨condition', body'⟩ := branch'
    obtain ⟨condition, body⟩ := branch
    rw [branchesToBlock_cons, branchesToBlock_cons, hhead.condition.toBlock_eq, toBlocks_of_annotates hhead.body, ih]

theorem exists_annotates_otherwise {otherwise : Option (List Stmt)}
    (hfrom : Forall₂ ComesFrom (otherwise.getD []) (b.body "ELSE")) (hb : b.Countable)
    (hotherwise : ∀ body, otherwise = some body → ∀ s ∈ body, s.Annotable) :
    ∃ otherwise' : Option (List Stmt), otherwise.isSome = otherwise'.isSome ∧
      Forall₂ Annotates (otherwise'.getD []) (otherwise.getD []) := by
  cases otherwise with
  | none => exact ⟨none, rfl, .nil⟩
  | some body =>
    obtain ⟨body', hbody'⟩ := exists_annotates_body hfrom
      (hb.body _) (hotherwise body rfl)
    exact ⟨some body', rfl, hbody'⟩

theorem isSome_link (h : Forall₂ ComesFrom body (b.body slot)) :
    (Block.link (toBlocks body)).isSome = (b.statement? slot).isSome := by
  rw [Block.body] at h
  cases hfirst : b.statement? slot with
  | none =>
    rw [hfirst, Block.chainFrom_none] at h
    cases h
    rfl
  | some first =>
    rw [hfirst, Block.chainFrom_some, Block.chain_eq] at h
    cases h with
    | cons => rw [toBlocks, Block.link_cons, Option.isSome_some, Option.isSome_some]

section Rendered

variable {base r : Block} {branches branches' : List (Expr × List Stmt)} {otherwise : Option (List Stmt)}
  (hr : r = (branchesToBlock base 0 branches).withBody "ELSE" (otherwiseToBlocks otherwise))

include hr

theorem values_choose :
    r.values = (base.withValues (numbered conditionSlot 0 (branches.map fun branch =>
      branch.1.toBlock))).values := by
  rw [hr, Block.values_withBody, values_branchesToBlock]

theorem plugged_choose :
    Forall₂ r.Plugged ((range branches.length).map conditionSlot)
      (branches.map fun branch => branch.1.toBlock) := by
  have halone : ∀ c ∈ branches.map fun branch => branch.1.toBlock, c.next = none := by
    intro c hc
    obtain ⟨branch, -, rfl⟩ := List.mem_map.mp hc
    exact branch.1.next_toBlock
  have hplugged := Block.plugged_numbered (values_choose hr) Block.conditionSlot_injective halone
  rwa [List.length_map] at hplugged

theorem last_choose (hstatements : base.statements = []) :
    r.statement? "ELSE" = Block.link (toBlocks (otherwise.getD [])) := by
  rw [hr, statement?_choose hstatements, if_pos rfl]

theorem slots_choose (hvalues : base.values = []) (hstatements : base.statements = []) :
    r.refuseOthers ((range branches.length).map conditionSlot)
      ((range branches.length).map branchSlot ++ ["ELSE"]) = .ok () := by
  refine Block.refuseOthers_ok_iff.mpr ⟨?_, fun slot hslot => ?_⟩
  · have hkeys := Block.keys_numbered (values_choose hr) hvalues
    rwa [List.length_map] at hkeys
  · by_contra hne
    rw [List.mem_append, not_or] at hne
    have helse : "ELSE" ≠ slot := fun e => hne.2 (List.mem_singleton.mpr e.symm)
    have hbranch : ∀ k < branches.length, slot ≠ branchSlot k := by
      rintro k hk rfl
      exact hne.1 (List.mem_map_of_mem (List.mem_range.mpr hk))
    have hnone : r.statement? slot = none := by
      rw [hr]
      exact statement?_choose_of_ne hstatements branches otherwise helse hbranch
    rw [← Dict.isSome_get?_iff] at hslot
    rw [Block.statement?] at hnone
    rw [hnone] at hslot
    cases hslot

theorem comesFrom_bodies (hstatements : base.statements = []) (h : Forall₂ BranchAnnotates branches' branches) :
    Forall₂ (Forall₂ ComesFrom) (branches'.map Prod.snd)
      ((range branches'.length).map fun i => r.body (branchSlot i)) := by
  refine List.forall₂_iff_get.mpr ⟨by simp, fun k hk hk' => ?_⟩
  have hk₁ : k < branches'.length := by simpa using hk
  have hk₂ : k < branches.length := h.length_eq ▸ hk₁
  have hbranch := statement?_choose_branch hstatements branches otherwise (List.getElem?_eq_getElem hk₂)
  rw [← hr] at hbranch
  simpa using comesFrom_body hbranch (h.get hk₁ hk₂).body

end Rendered

theorem annotable_choose {otherwise : Option (List Stmt)} (attrs : Attributes)
    (hbranches : ∀ branch ∈ branches, ∀ s ∈ branch.2, s.Annotable)
    (hotherwise : ∀ body, otherwise = some body → ∀ s ∈ body, s.Annotable) :
    (choose branches otherwise attrs).Annotable := by
  intro b hfrom hb
  cases hfrom with | @choose _ children _ _ htag has hplugged hfrom hfromBodies hfromLast => ?_
  have hchildren : ∀ c ∈ children, c.Countable := by
    intro c hc
    obtain ⟨slot, -, hplug⟩ := exists_of_mem_right hplugged hc
    exact hb.value hplug
  have hchains : ∀ chain ∈ (range branches.length).map fun i => b.body (branchSlot i), ∀ c ∈ chain, c.Countable := by
    intro chain hchain c hc
    obtain ⟨i, -, rfl⟩ := List.mem_map.mp hchain
    exact hb.body _ c hc
  obtain ⟨branches', hbranches'⟩ := exists_annotates_branches hfrom hchildren hfromBodies hchains hbranches
  obtain ⟨otherwise', hsome, hotherwise'⟩ := exists_annotates_otherwise hfromLast hb hotherwise
  have hlength : branches'.length = branches.length := hbranches'.length_eq
  have hsize : branches.length < UInt64.size :=
    Nat.lt_of_le_of_lt (Block.length_le_values Block.conditionSlot_injective hplugged) (hb b b.mem_reached_self)
  refine ⟨choose branches' otherwise' (chooseAttrs b.nodeAttrs branches.length otherwise.isSome), ?_, ?_,
    .choose ?_ ?_ hsome (informs_of_annotates hotherwise') (informs_chooseAttrs _ _)⟩
  · rw [toBlock]
    have hextends := extends_choose
      { tag := Tag.choose.name, attrs := chooseAttrs b.nodeAttrs branches.length otherwise.isSome } branches
      (otherwiseToBlocks otherwise)
    refine comesFrom_of_written (f := choose branches' otherwise') hextends.attrs
      (written_chooseAttrs _ _ b.written_nodeAttrs) ?_
    refine @ComesFrom.choose _ (branches.map fun branch => branch.1.toBlock) _ _ hextends.tag ?_ ?_ ?_
      (comesFrom_bodies rfl rfl hbranches') (comesFrom_body (last_choose rfl rfl) hotherwise')
    · rw [hlength, ← hsome]
      refine branches_of_chooseAttrs has hsize hextends.attrs
        (Block.length_le_values Block.conditionSlot_injective (plugged_choose rfl)) ?_ (slots_choose rfl rfl rfl)
      exact (congrArg Option.isSome (last_choose rfl rfl)).trans (isSome_link hfromLast)
    · rw [hlength]
      exact plugged_choose rfl
    · rw [List.forall₂_map_left_iff, List.forall₂_map_right_iff]
      exact hbranches'.imp fun _ _ h => h.condition.comesFrom
  · rw [toBlock, toBlock, hlength, ← hsome, chooseAttrs_chooseAttrs _ _ hsize,
      branchesToBlock_of_annotates hbranches', otherwiseToBlocks_eq, otherwiseToBlocks_eq,
      toBlocks_of_annotates hotherwise']
  · rw [List.forall₂_map_left_iff, List.forall₂_map_right_iff]
    exact hbranches'.flip.imp fun _ _ h => h.condition.informs
  · rw [List.forall₂_map_left_iff, List.forall₂_map_right_iff]
    exact hbranches'.flip.imp fun _ _ h => informs_of_annotates h.body

theorem exists_annotates (q : Stmt) : q.Annotable := by
  induction q with
  | assign target value attrs => exact annotable_assign target value attrs
  | choose _ _ attrs hbranches hotherwise => exact annotable_choose attrs hbranches hotherwise
  | repeat' times _ attrs hbody => exact annotable_repeat times attrs hbody
  | loop mode condition _ attrs hbody => exact annotable_loop mode condition attrs hbody
  | count counter first last step _ attrs hbody => exact annotable_count counter first last step attrs hbody
  | forEach item list _ attrs hbody => exact annotable_forEach item list attrs hbody
  | flow choice attrs =>
    intro b hfrom _
    cases hfrom with
    | flow htag hfield =>
      refine ⟨flow choice b.nodeAttrs, ?_, rfl, .flow (.refl _)⟩
      rw [toBlock]
      exact comesFrom_of_written (f := flow choice) rfl b.written_nodeAttrs (.flow rfl rfl)
  | wait time attrs => exact annotable_wait time attrs
  | print text attrs => exact annotable_print text attrs

end Stmt

/-! ## Workspaces -/

namespace Root

structure Annotates (q' q : Root) : Prop where
  comesFrom : ∃ r, q.toBlock? = some r ∧ q'.ComesFrom r
  toBlock?_eq : q'.toBlock? = q.toBlock?
  informs : q.Below Informs q'

theorem exists_annotates {q : Root} {b : Block} (hfrom : q.ComesFrom b) (hb : b.Countable) :
    ∃ q' : Root, q'.Annotates q := by
  cases q with
  | statements body =>
    have hblocks : ∀ c ∈ b.chain, c.Countable := fun c hc => hb.mono (Block.reached_of_mem_chain hc)
    obtain ⟨body', hbody'⟩ := Stmt.exists_annotates_body hfrom hblocks fun s _ => s.exists_annotates
    refine ⟨.statements body', ?_, ?_, Stmt.informs_of_annotates hbody'⟩
    · have hchain := Stmt.comesFrom_chain hbody'
      rw [toBlock?]
      cases body with
      | nil =>
        change Forall₂ Stmt.ComesFrom [] b.chain at hfrom
        rw [Block.chain_eq] at hfrom
        cases hfrom
      | cons first rest =>
        rw [Stmt.toBlocks, Block.link_cons] at hchain ⊢
        rw [Block.chainFrom_some] at hchain
        exact ⟨_, rfl, hchain⟩
    · rw [toBlock?, toBlock?, Stmt.toBlocks_of_annotates hbody']
  | value e =>
    obtain ⟨e', he'⟩ := e.exists_annotates b hfrom.1 hb
    refine ⟨.value e', ⟨e.toBlock, rfl, he'.comesFrom, e.next_toBlock⟩, ?_, he'.informs⟩
    rw [toBlock?, toBlock?, he'.toBlock_eq]

end Root

end Blockwork
