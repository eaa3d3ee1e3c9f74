import Blockwork.Proofs.Factories

/-! # Placeholders that are filled in

Resolving makes every node of a program anew. All that can change is how much is known about the types of variables
and of the elements of list literals.
-/

namespace Blockwork

set_option autoImplicit false

open List (Forall₂ rel_append)

/-! ## Types in a program -/

/-- The variable without its type. -/
def Var.erased (v : Var) : Var :=
  { v with type := .captured }

namespace Expr

mutual

/-- The expression without the types of its variables and list literals. -/
def erased : Expr → Expr
  | .var v => .var v.erased
  | .number literal value attrs => .number literal value attrs
  | .boolean value attrs => .boolean value attrs
  | .text value attrs => .text value attrs
  | .binary op left right attrs => .binary op (erased left) (erased right) attrs
  | .unary op operand attrs => .unary op (erased operand) attrs
  | .list _ items attrs => .list .captured (erasedIn items) attrs
  | .length operand attrs => .length (erased operand) attrs
  | .join items attrs => .join (erasedIn items) attrs

def erasedIn : List Expr → List Expr
  | [] => []
  | e :: rest => erased e :: erasedIn rest

end

mutual

/-- The types of the variables and of the elements of the list literals of an expression, in their order. -/
def knownTypes : Expr → List Ty
  | .var v => [v.type]
  | .number .. | .boolean .. | .text .. => []
  | .binary _ left right _ => knownTypes left ++ knownTypes right
  | .unary _ operand _ => knownTypes operand
  | .list element items _ => element :: knownTypesIn items
  | .length operand _ => knownTypes operand
  | .join items _ => knownTypesIn items

def knownTypesIn : List Expr → List Ty
  | [] => []
  | e :: rest => knownTypes e ++ knownTypesIn rest

end

end Expr

namespace Stmt

mutual

def erased : Stmt → Stmt
  | .assign target value attrs => .assign target.erased value.erased attrs
  | .choose branches otherwise attrs => .choose (erasedInBranches branches) (erasedInOtherwise otherwise) attrs
  | .repeat times body attrs => .repeat times.erased (erasedIn body) attrs
  | .loop mode condition body attrs => .loop mode condition.erased (erasedIn body) attrs
  | .count counter first last step body attrs =>
    .count counter.erased first.erased last.erased step.erased (erasedIn body) attrs
  | .forEach item list body attrs => .forEach item.erased list.erased (erasedIn body) attrs
  | .flow choice attrs => .flow choice attrs
  | .wait time attrs => .wait time.erased attrs
  | .print text attrs => .print text.erased attrs

def erasedInBranches : List (Expr × List Stmt) → List (Expr × List Stmt)
  | [] => []
  | (condition, body) :: rest => (condition.erased, erasedIn body) :: erasedInBranches rest

def erasedInOtherwise : Option (List Stmt) → Option (List Stmt)
  | none => none
  | some body => some (erasedIn body)

def erasedIn : List Stmt → List Stmt
  | [] => []
  | s :: rest => erased s :: erasedIn rest

end

mutual

def knownTypes : Stmt → List Ty
  | .assign target value _ => target.type :: value.knownTypes
  | .choose branches otherwise _ => knownTypesInBranches branches ++ knownTypesInOtherwise otherwise
  | .repeat times body _ => times.knownTypes ++ knownTypesIn body
  | .loop _ condition body _ => condition.knownTypes ++ knownTypesIn body
  | .count counter first last step body _ =>
    counter.type :: (first.knownTypes ++ last.knownTypes ++ step.knownTypes ++ knownTypesIn body)
  | .forEach item list body _ => item.type :: (list.knownTypes ++ knownTypesIn body)
  | .flow .. => []
  | .wait time _ => time.knownTypes
  | .print text _ => text.knownTypes

def knownTypesInBranches : List (Expr × List Stmt) → List Ty
  | [] => []
  | (condition, body) :: rest => condition.knownTypes ++ knownTypesIn body ++ knownTypesInBranches rest

def knownTypesInOtherwise : Option (List Stmt) → List Ty
  | none => []
  | some body => knownTypesIn body

def knownTypesIn : List Stmt → List Ty
  | [] => []
  | s :: rest => knownTypes s ++ knownTypesIn rest

end

end Stmt

namespace Root

def erased : Root → Root
  | .statements body => .statements (Stmt.erasedIn body)
  | .value e => .value e.erased

def knownTypes : Root → List Ty
  | .statements body => Stmt.knownTypesIn body
  | .value e => e.knownTypes

end Root

namespace Program

def erased (p : Program) : Program :=
  { roots := p.roots.map Root.erased }

def knownTypes (p : Program) : List Ty :=
  p.roots.flatMap Root.knownTypes

end Program

/-! ## Nodes that know less -/

/-- The types of a list, each refined by the type at its place in another list. -/
abbrev Ty.AllRefined (ts us : List Ty) : Prop :=
  Forall₂ (fun t u => u.Refines t) ts us

theorem Var.Below.erased {v w : Var} (h : v.Below Eq w) : w.erased = v.erased := by
  unfold Var.erased
  rw [h.name, h.attrs]

namespace Expr

def Fills (e q : Expr) : Prop :=
  q.erased = e.erased ∧ Ty.AllRefined e.knownTypes q.knownTypes

theorem fillsIn_of_below {items items' : List Expr} (h : Forall₂ (Below Eq) items items')
    (ih : ∀ e ∈ items, ∀ q, e.Below Eq q → e.Fills q) :
    erasedIn items' = erasedIn items ∧ Ty.AllRefined (knownTypesIn items) (knownTypesIn items') := by
  induction h with
  | nil => exact ⟨rfl, .nil⟩
  | cons hfirst _ ihrest =>
    obtain ⟨ihfirst, ih⟩ := List.forall_mem_cons.mp ih
    obtain ⟨herased, htypes⟩ := ihfirst _ hfirst
    obtain ⟨herasedRest, htypesRest⟩ := ihrest ih
    simp only [erasedIn, knownTypesIn]
    exact ⟨by rw [herased, herasedRest], rel_append htypes htypesRest⟩

theorem Below.fills {e q : Expr} (h : e.Below Eq q) : e.Fills q := by
  induction e generalizing q with
  | var v =>
    cases h with
    | var h => exact ⟨congrArg Expr.var h.erased, .cons h.type .nil⟩
  | number literal value attrs =>
    cases h with
    | number hattrs => exact ⟨by rw [hattrs], .nil⟩
  | boolean value attrs =>
    cases h with
    | boolean hattrs => exact ⟨by rw [hattrs], .nil⟩
  | text value attrs =>
    cases h with
    | text hattrs => exact ⟨by rw [hattrs], .nil⟩
  | binary op left right attrs ihl ihr =>
    cases h with | binary hl hr hattrs => ?_
    obtain ⟨herasedLeft, htypesLeft⟩ := ihl hl
    obtain ⟨herasedRight, htypesRight⟩ := ihr hr
    exact ⟨by rw [erased, erased, herasedLeft, herasedRight, hattrs], rel_append htypesLeft htypesRight⟩
  | unary op operand attrs ih =>
    cases h with
    | unary hoperand hattrs =>
      obtain ⟨herased, htypes⟩ := ih hoperand
      exact ⟨by rw [erased, erased, herased, hattrs], htypes⟩
  | list element items attrs ih =>
    cases h with
    | list helement hitems hattrs =>
      obtain ⟨herased, htypes⟩ := fillsIn_of_below hitems fun e he q => ih e he
      exact ⟨by rw [erased, erased, herased, hattrs], .cons helement htypes⟩
  | length operand attrs ih =>
    cases h with
    | length hoperand hattrs =>
      obtain ⟨herased, htypes⟩ := ih hoperand
      exact ⟨by rw [erased, erased, herased, hattrs], htypes⟩
  | join items attrs ih =>
    cases h with
    | join hitems hattrs =>
      obtain ⟨herased, htypes⟩ := fillsIn_of_below hitems fun e he q => ih e he
      exact ⟨by rw [erased, erased, herased, hattrs], htypes⟩

end Expr

namespace Stmt

def Fills (s q : Stmt) : Prop :=
  q.erased = s.erased ∧ Ty.AllRefined s.knownTypes q.knownTypes

theorem fillsIn_of_below {body body' : List Stmt} (h : Forall₂ (Below Eq) body body')
    (ih : ∀ s ∈ body, ∀ q, s.Below Eq q → s.Fills q) :
    erasedIn body' = erasedIn body ∧ Ty.AllRefined (knownTypesIn body) (knownTypesIn body') := by
  induction h with
  | nil => exact ⟨rfl, .nil⟩
  | cons hfirst _ ihrest =>
    obtain ⟨ihfirst, ih⟩ := List.forall_mem_cons.mp ih
    obtain ⟨herased, htypes⟩ := ihfirst _ hfirst
    obtain ⟨herasedRest, htypesRest⟩ := ihrest ih
    simp only [erasedIn, knownTypesIn]
    exact ⟨by rw [herased, herasedRest], rel_append htypes htypesRest⟩

theorem fillsInBranches_of_below {branches branches' : List (Expr × List Stmt)}
    (hconditions : Forall₂ (Expr.Below Eq) (branches.map Prod.fst) (branches'.map Prod.fst))
    (hbodies : Forall₂ (Forall₂ (Below Eq)) (branches.map Prod.snd) (branches'.map Prod.snd))
    (ih : ∀ branch ∈ branches, ∀ s ∈ branch.2, ∀ q, s.Below Eq q → s.Fills q) :
    erasedInBranches branches' = erasedInBranches branches ∧
      Ty.AllRefined (knownTypesInBranches branches) (knownTypesInBranches branches') := by
  induction branches generalizing branches' with
  | nil =>
    obtain rfl : branches' = [] := by simpa using hconditions
    exact ⟨rfl, .nil⟩
  | cons branch rest ihrest =>
    cases branches' with
    | nil => cases hconditions
    | cons branch' rest' =>
      obtain ⟨hcondition, hconditions⟩ := List.forall₂_cons.mp hconditions
      obtain ⟨hbody, hbodies⟩ := List.forall₂_cons.mp hbodies
      obtain ⟨ihbranch, ih⟩ := List.forall_mem_cons.mp ih
      obtain ⟨herased, htypes⟩ := hcondition.fills
      obtain ⟨herasedBody, htypesBody⟩ := fillsIn_of_below hbody ihbranch
      obtain ⟨herasedRest, htypesRest⟩ := ihrest hconditions hbodies ih
      simp only [erasedInBranches, knownTypesInBranches]
      exact ⟨by rw [herased, herasedBody, herasedRest], rel_append (rel_append htypes htypesBody) htypesRest⟩

theorem fillsInOtherwise_of_below {last last' : Option (List Stmt)} (hsome : last.isSome = last'.isSome)
    (h : Forall₂ (Below Eq) (last.getD []) (last'.getD []))
    (ih : ∀ body, last = some body → ∀ s ∈ body, ∀ q, s.Below Eq q → s.Fills q) :
    erasedInOtherwise last' = erasedInOtherwise last ∧
      Ty.AllRefined (knownTypesInOtherwise last) (knownTypesInOtherwise last') := by
  cases last with
  | none =>
    cases last' with
    | none => exact ⟨rfl, .nil⟩
    | some body' => cases hsome
  | some body =>
    cases last' with
    | none => cases hsome
    | some body' =>
      obtain ⟨herased, htypes⟩ := fillsIn_of_below h (ih body rfl)
      exact ⟨congrArg some herased, htypes⟩

theorem Below.fills {s q : Stmt} (h : s.Below Eq q) : s.Fills q := by
  induction s generalizing q with
  | assign target value attrs =>
    cases h with
    | assign htarget hvalue hattrs =>
      obtain ⟨herased, htypes⟩ := hvalue.fills
      exact ⟨by rw [erased, erased, htarget.erased, herased, hattrs], .cons htarget.type htypes⟩
  | choose branches otherwise attrs ih ih' =>
    cases h with | choose hconditions hbodies hsome hotherwise hattrs => ?_
    obtain ⟨herased, htypes⟩ := fillsInBranches_of_below hconditions hbodies fun branch hb s hs q => ih branch hb s hs
    obtain ⟨herasedLast, htypesLast⟩ :=
      fillsInOtherwise_of_below hsome hotherwise fun body hbody s hs q => ih' body hbody s hs
    exact ⟨by rw [erased, erased, herased, herasedLast, hattrs], rel_append htypes htypesLast⟩
  | repeat' times body attrs ih =>
    cases h with | repeat' htimes hbody hattrs => ?_
    obtain ⟨herased, htypes⟩ := htimes.fills
    obtain ⟨herasedBody, htypesBody⟩ := fillsIn_of_below hbody fun s hs q => ih s hs
    exact ⟨by rw [erased, erased, herased, herasedBody, hattrs], rel_append htypes htypesBody⟩
  | loop mode condition body attrs ih =>
    cases h with | loop hcondition hbody hattrs => ?_
    obtain ⟨herased, htypes⟩ := hcondition.fills
    obtain ⟨herasedBody, htypesBody⟩ := fillsIn_of_below hbody fun s hs q => ih s hs
    exact ⟨by rw [erased, erased, herased, herasedBody, hattrs], rel_append htypes htypesBody⟩
  | count counter first last step body attrs ih =>
    cases h with | count hcounter hfirst hlast hstep hbody hattrs => ?_
    obtain ⟨herasedFirst, htypesFirst⟩ := hfirst.fills
    obtain ⟨herasedLast, htypesLast⟩ := hlast.fills
    obtain ⟨herasedStep, htypesStep⟩ := hstep.fills
    obtain ⟨herasedBody, htypesBody⟩ := fillsIn_of_below hbody fun s hs q => ih s hs
    refine ⟨by rw [erased, erased, hcounter.erased, herasedFirst, herasedLast, herasedStep, herasedBody, hattrs], ?_⟩
    exact .cons hcounter.type (rel_append (rel_append (rel_append htypesFirst htypesLast) htypesStep) htypesBody)
  | forEach item list body attrs ih =>
    cases h with | forEach hitem hlist hbody hattrs => ?_
    obtain ⟨herased, htypes⟩ := hlist.fills
    obtain ⟨herasedBody, htypesBody⟩ := fillsIn_of_below hbody fun s hs q => ih s hs
    exact ⟨by rw [erased, erased, hitem.erased, herased, herasedBody, hattrs],
      .cons hitem.type (rel_append htypes htypesBody)⟩
  | flow choice attrs =>
    cases h with
    | flow hattrs => exact ⟨by rw [hattrs], .nil⟩
  | wait time attrs =>
    cases h with
    | wait htime hattrs =>
      obtain ⟨herased, htypes⟩ := htime.fills
      exact ⟨by rw [erased, erased, herased, hattrs], htypes⟩
  | print text attrs =>
    cases h with
    | print htext hattrs =>
      obtain ⟨herased, htypes⟩ := htext.fills
      exact ⟨by rw [erased, erased, herased, hattrs], htypes⟩

end Stmt

theorem Root.Below.fills {root q : Root} (h : root.Below Eq q) :
    q.erased = root.erased ∧ Ty.AllRefined root.knownTypes q.knownTypes := by
  cases root with
  | statements body =>
    cases q with
    | statements body' =>
      obtain ⟨herased, htypes⟩ := Stmt.fillsIn_of_below h fun s _ q hq => hq.fills
      exact ⟨congrArg Root.statements herased, htypes⟩
    | value e' => exact h.elim
  | value e =>
    cases q with
    | statements body' => exact h.elim
    | value e' =>
      have hfills : e.Fills e' := Expr.Below.fills h
      exact ⟨congrArg Root.value hfills.1, hfills.2⟩

namespace Program

theorem fills_of_below {roots roots' : List Root} (h : Forall₂ (Root.Below Eq) roots roots') :
    roots'.map Root.erased = roots.map Root.erased ∧
      Ty.AllRefined (roots.flatMap Root.knownTypes) (roots'.flatMap Root.knownTypes) := by
  induction h with
  | nil => exact ⟨rfl, .nil⟩
  | cons hroot _ ih =>
    obtain ⟨herased, htypes⟩ := hroot.fills
    simp only [List.map_cons, List.flatMap_cons]
    exact ⟨by rw [herased, ih.1], rel_append htypes ih.2⟩

/-- Resolving changes nothing but the types of variables and of the elements of list literals, and each of them is
refined where it stands. -/
theorem resolve_fills {env : TypeEnv} {p q : Program} (h : p.resolve env = .ok q) :
    q.erased = p.erased ∧ Ty.AllRefined p.knownTypes q.knownTypes := by
  obtain ⟨settled, -, hroots⟩ := resolve_eq_ok_iff.mp h
  have hbelow : List.Forall₂ (Root.Below Eq) p.roots q.roots := hroots.imp fun _ _ h => (Root.outcome_of_resolve h).below
  obtain ⟨herased, htypes⟩ := fills_of_below hbelow
  exact ⟨congrArg Program.mk herased, htypes⟩

/-- A list of an empty list and of a list with a variable is assigned, with a comment and a mutation. -/
def nesting (target outer inner item : Ty) : Program where
  roots := [.statements [.assign ⟨"y", target, { id := "s" }⟩
    (.list outer [.list inner [] { id := "a" }, .list inner [.var ⟨"x", item, { id := "v" }⟩] { id := "b" }]
      { id := "l", mutation := some [("items", "2")] })
    { id := "s", comment := some { text := "fill in" } }]]

theorem resolve_fills_nesting :
    (nesting .captured (.list .captured) .captured .captured).resolve
          ((({} : TypeEnv).assign "x" .text).assign "y" (.list (.list .text))) =
        .ok (nesting (.list (.list .text)) (.list .text) .text .text) ∧
      (nesting (.list (.list .text)) (.list .text) .text .text).erased =
        (nesting .captured (.list .captured) .captured .captured).erased ∧
      Ty.AllRefined [.captured, .list .captured, .captured, .captured, .captured]
        [.list (.list .text), .list .text, .text, .text, .text] := by
  have hresolve : (nesting .captured (.list .captured) .captured .captured).resolve
      ((({} : TypeEnv).assign "x" .text).assign "y" (.list (.list .text))) =
      .ok (nesting (.list (.list .text)) (.list .text) .text .text) := rfl
  obtain ⟨herased, htypes⟩ := resolve_fills hresolve
  exact ⟨hresolve, herased, htypes⟩

end Program

end Blockwork
