import Mathlib.Algebra.Order.BigOperators.Group.List
import Mathlib.Algebra.Order.Ring.Nat
import Mathlib.Data.Finset.Card
import Blockwork.Proofs.Dictionary
import Blockwork.Proofs.Environment
import Blockwork.Proofs.Outcomes

/-! # Settling

Carrying types over links computes the least solution of the links above what is known at the start.
-/

namespace Blockwork

set_option autoImplicit false

open Blockwork.Except (bind_ok_iff bind_error_iff)

/-! ## Height and depth of types -/

def Ty.height : Ty → Nat
  | .captured => 0
  | .list element => element.height + 1
  | _ => 1

namespace TypeEnv

variable {a b : Ty}

theorem height_mono (h : a.Refines b) : b.height ≤ a.height := by
  induction h with
  | captured a => exact Nat.zero_le _
  | list _ ih => exact Nat.succ_le_succ ih
  | _ => exact Nat.le_refl _

theorem eq_of_height_le (h : a.Refines b) (hh : a.height ≤ b.height) : a = b := by
  induction h with
  | captured a =>
    cases a with
    | captured => rfl
    | _ => simp [Ty.height] at hh
  | list _ ih => rw [ih (Nat.le_of_succ_le_succ hh)]
  | _ => rfl

theorem height_le_depth (t : Ty) : t.height ≤ depth t + 1 := by
  induction t with
  | list element ih => exact Nat.succ_le_succ ih
  | _ => simp [Ty.height, depth]

theorem depth_unify? {c : Ty} (h : Ty.unify? a b = some c) : depth c ≤ max (depth a) (depth b) := by
  induction a generalizing b c with
  | captured =>
    rw [Ty.unify?_captured_left] at h
    cases h
    exact Nat.le_max_right _ _
  | list a ih =>
    cases b with
    | captured =>
      cases h
      exact Nat.le_max_left _ _
    | list b =>
      obtain ⟨d, hd, rfl⟩ := Option.map_eq_some_iff.mp h
      have := ih hd
      simp only [depth]
      omega
    | _ => cases h
  | _ => cases b <;> cases h <;> simp [depth]

theorem unify?_list_self {t u : Ty} (h : Ty.unify? t (.list t) = some u) : u = .list t := by
  induction t generalizing u with
  | captured =>
    cases h
    rfl
  | list t ih =>
    obtain ⟨d, hd, rfl⟩ := Option.map_eq_some_iff.mp h
    rw [ih hd]
  | _ => cases h

/-! ## One link -/

end TypeEnv

def Alias.names (link : Alias) : List String :=
  [link.target, link.source]

def Alias.HoldsOf (link : Alias) (σ : String → Ty) : Prop :=
  σ link.target = σ link.source

def ElementLink.names (link : ElementLink) : List String :=
  [link.list, link.item]

def ElementLink.HoldsOf (link : ElementLink) (σ : String → Ty) : Prop :=
  σ link.list = .list (σ link.item)

namespace TypeEnv

variable {env env' : TypeEnv} {link : Alias}

/-- What carrying types over links does: `names` are the linked variables, and `eqn` is what the links
ask of an assignment. Knowledge grows, but not beyond any assignment that does what the links ask. If
nothing changes then the environment does what the links ask, and otherwise a linked variable changes. -/
structure Carries (names : List String) (eqn : (String → Ty) → Prop) (env env' : TypeEnv) : Prop where
  aliases : env'.aliases = env.aliases
  elements : env'.elements = env.elements
  within : env.Within env'.lookup
  least : ∀ σ, env.Within σ → eqn σ → env'.Within σ
  fixed : env' = env → eqn env.lookup
  changed : env' ≠ env → ∃ name ∈ names, env'.lookup name ≠ env.lookup name

@[simp] theorem aliases_update (env : TypeEnv) (name : String) (old new : Ty) :
    (env.update name old new).aliases = env.aliases := by
  unfold update
  split <;> rfl

@[simp] theorem elements_update (env : TypeEnv) (name : String) (old new : Ty) :
    (env.update name old new).elements = env.elements := by
  unfold update
  split <;> rfl

theorem lookup_update {name : String} (new : Ty) (name' : String) :
    (env.update name (env.lookup name) new).lookup name' =
      if name = name' then new else env.lookup name' := by
  unfold update
  split
  · next e =>
    split
    · next e' => rw [e, e']
    · rfl
  · exact lookup_assign env name name' new

theorem update_self (env : TypeEnv) (name : String) (t : Ty) : env.update name t t = env :=
  if_pos rfl

theorem carryAlias_ok (h : env.carryAlias link = .ok env') :
    ∃ u, Ty.unify? (env.lookup link.target) (env.lookup link.source) = some u ∧
      (u = env.lookup link.target → u = env.lookup link.source → env' = env) ∧
      ∀ name, env'.lookup name =
        if name = link.target ∨ name = link.source then u else env.lookup name := by
  unfold carryAlias at h
  cases hu : Ty.unify? (env.lookup link.target) (env.lookup link.source) with
  | none => simp [hu] at h
  | some u =>
    simp only [hu, Except.ok.injEq] at h
    refine ⟨u, rfl, fun ht hs => ?_, fun name => ?_⟩
    · rw [← h, ht, update_self, ← ht, hs, update_self]
    · by_cases e : link.target = link.source
      · have hu' : u = env.lookup link.source := by
          rw [e, Ty.unify?_eq_left (.refl _)] at hu
          exact (Option.some.inj hu).symm
        rw [← h, e, ← hu', update_self, update_self]
        split
        · next hn =>
          rcases hn with rfl | rfl <;> exact hu'.symm
        · rfl
      · have hs : (env.update link.target (env.lookup link.target) u).lookup link.source =
            env.lookup link.source := by
          rw [lookup_update, if_neg e]
        rw [← h, ← hs, lookup_update, lookup_update]
        by_cases h₁ : link.source = name
        · simp [h₁]
        · by_cases h₂ : link.target = name
          · simp [h₂]
          · have h₁' : name ≠ link.source := fun e => h₁ e.symm
            have h₂' : name ≠ link.target := fun e => h₂ e.symm
            simp [h₁, h₂, h₁', h₂']

theorem carryAlias_carries (env env' : TypeEnv) (link : Alias) (h : env.carryAlias link = .ok env') :
    Carries link.names link.HoldsOf env env' := by
  obtain ⟨u, hu, hsame, hlookup⟩ := carryAlias_ok h
  have hlinks : env'.aliases = env.aliases ∧ env'.elements = env.elements := by
    unfold carryAlias at h
    simp only [hu, Except.ok.injEq] at h
    rw [← h]
    simp
  have htarget : env'.lookup link.target = u := by
    rw [hlookup, if_pos (.inl rfl)]
  have hsource : env'.lookup link.source = u := by
    rw [hlookup, if_pos (.inr rfl)]
  refine ⟨hlinks.1, hlinks.2, fun name => ?_, fun σ hσ e name => ?_, fun e => ?_, fun hne => ?_⟩
  · rw [hlookup]
    split
    · next hn =>
      rcases hn with rfl | rfl
      · exact Ty.unify?_refines_left hu
      · exact Ty.unify?_refines_right hu
    · exact .refl _
  · rw [hlookup]
    split
    · next hn =>
      have hle : (σ link.target).Refines u :=
        (hσ link.target).of_unify? (Ty.Refines.trans (.of_eq e) (hσ link.source)) hu
      rcases hn with rfl | rfl
      · exact hle
      · exact Ty.Refines.trans (.of_eq e.symm) hle
    · exact hσ name
  · unfold Alias.HoldsOf
    rw [← e, htarget, hsource]
  · by_contra hno
    push Not at hno
    refine hne (hsame ?_ ?_)
    · rw [← hno link.target (by simp [Alias.names]), htarget]
    · rw [← hno link.source (by simp [Alias.names]), hsource]

theorem carryElement_ok {link : ElementLink} (h : env.carryElement link = .ok env') :
    ∃ u, Ty.unify? (env.lookup link.list) (.list (env.lookup link.item)) = some (.list u) ∧
      (link.item = link.list → u = env.lookup link.item) ∧
      (.list u = env.lookup link.list → u = env.lookup link.item → env' = env) ∧
      ∀ name, env'.lookup name =
        if name = link.list then .list u else if name = link.item then u else env.lookup name := by
  unfold carryElement at h
  cases hv : Ty.unify? (env.lookup link.list) (.list (env.lookup link.item)) with
  | none => simp [hv] at h
  | some v =>
    obtain ⟨u, rfl, -⟩ := (Ty.unify?_refines_right hv).exists_list
    simp only [hv, Except.ok.injEq] at h
    have helement : (Ty.list u).elementOrCaptured = u := rfl
    have hself : link.item = link.list → u = env.lookup link.item := by
      intro e
      rw [← e] at hv
      exact Ty.list.inj (unify?_list_self hv)
    refine ⟨u, rfl, hself, fun hl hi => ?_, fun name => ?_⟩
    · rw [← h, helement, hl, update_self, ← hi, update_self]
    · by_cases e : link.item = link.list
      · rw [← h, helement, ← hself e, update_self, lookup_update]
        by_cases hn : link.list = name
        · simp [hn]
        · have hn' : name ≠ link.list := fun e => hn e.symm
          simp [hn, hn', e]
      · have hi : (env.update link.list (env.lookup link.list) (.list u)).lookup link.item =
            env.lookup link.item := by
          rw [lookup_update, if_neg fun e' => e e'.symm]
        rw [← h, helement, ← hi, lookup_update, lookup_update]
        by_cases h₁ : link.list = name
        · have h₂ : link.item ≠ name := fun e' => e (e'.trans h₁.symm)
          simp [h₁, h₂]
        · have h₁' : name ≠ link.list := fun e => h₁ e.symm
          by_cases h₂ : link.item = name
          · simp [h₁', h₂]
          · have h₂' : name ≠ link.item := fun e => h₂ e.symm
            simp [h₁, h₁', h₂, h₂']

theorem carryElement_carries (env env' : TypeEnv) (link : ElementLink)
    (h : env.carryElement link = .ok env') :
    Carries link.names link.HoldsOf env env' := by
  obtain ⟨u, hu, hself, hsame, hlookup⟩ := carryElement_ok h
  have hlinks : env'.aliases = env.aliases ∧ env'.elements = env.elements := by
    unfold carryElement at h
    simp only [hu, Except.ok.injEq] at h
    rw [← h]
    simp
  have hlist : env'.lookup link.list = .list u := by
    rw [hlookup, if_pos rfl]
  have hitem : link.item ≠ link.list → env'.lookup link.item = u := by
    intro ne
    rw [hlookup, if_neg ne, if_pos rfl]
  refine ⟨hlinks.1, hlinks.2, fun name => ?_, fun σ hσ e name => ?_, fun e => ?_, fun hne => ?_⟩
  · rw [hlookup]
    split
    · next hn => exact hn ▸ Ty.unify?_refines_left hu
    · split
      · next hn => exact hn ▸ Ty.refines_list_iff.mp (Ty.unify?_refines_right hu)
      · exact .refl _
  · have hle : (σ link.list).Refines (.list u) :=
      (hσ link.list).of_unify? (Ty.Refines.trans (.of_eq e) (.list (hσ link.item))) hu
    rw [hlookup]
    split
    · next hn => exact hn ▸ hle
    · split
      · next hn =>
        exact hn ▸ Ty.refines_list_iff.mp (Ty.Refines.trans (.of_eq e.symm) hle)
      · exact hσ name
  · unfold ElementLink.HoldsOf
    by_cases ne : link.item = link.list
    · rw [← hself ne, ← hlist, e]
    · have hi := hitem ne
      rw [e] at hi hlist
      rw [hlist, hi]
  · by_contra hno
    push Not at hno
    have hl : .list u = env.lookup link.list := by
      rw [← hno link.list (by simp [ElementLink.names]), hlist]
    refine hne (hsame hl ?_)
    by_cases ne : link.item = link.list
    · exact hself ne
    · rw [← hno link.item (by simp [ElementLink.names]), hitem ne]

/-! ## Passes -/

theorem Carries.refl (env : TypeEnv) : Carries [] (fun _ => True) env env :=
  ⟨rfl, rfl, .refl env, fun _ h _ => h, fun _ => trivial, fun h => absurd rfl h⟩

theorem Within.lookup_ne {env₁ env₂ : TypeEnv} (h : env.Within env₁.lookup) (h' : env₁.Within env₂.lookup)
    {name : String} (hne : env₁.lookup name ≠ env.lookup name) : env₂.lookup name ≠ env.lookup name := by
  intro e
  have hback := h' name
  rw [e] at hback
  exact hne ((h name).antisymm hback)

variable {names : List String} {σ : String → Ty} {e : Error} {n bound : Nat}

theorem Carries.trans {names' : List String} {eqn eqn' : (String → Ty) → Prop} {env₁ env₂ : TypeEnv}
    (h : Carries names eqn env env₁) (h' : Carries names' eqn' env₁ env₂) :
    Carries (names ++ names') (fun σ => eqn σ ∧ eqn' σ) env env₂ := by
  refine ⟨h'.aliases.trans h.aliases, h'.elements.trans h.elements, h.within.trans h'.within,
    fun σ hσ e => h'.least σ (h.least σ hσ e.1) e.2, fun e => ?_, fun hne => ?_⟩
  · have e₁ : env₁ = env := by
      by_contra hne
      obtain ⟨name, -, hname⟩ := h.changed hne
      exact h.within.lookup_ne h'.within hname (by rw [e])
    subst e₁
    exact ⟨h.fixed rfl, h'.fixed e⟩
  · by_cases e₁ : env₁ = env
    · subst e₁
      obtain ⟨name, hmem, hname⟩ := h'.changed hne
      exact ⟨name, List.mem_append_right _ hmem, hname⟩
    · obtain ⟨name, hmem, hname⟩ := h.changed e₁
      exact ⟨name, List.mem_append_left _ hmem, h.within.lookup_ne h'.within hname⟩

section Folds

variable {α : Type} {names : α → List String} {eqn : α → (String → Ty) → Prop}
  {carry : TypeEnv → α → Except Error TypeEnv}

variable {links : List α}

theorem foldlM_carries
    (hcarry : ∀ env env' link, carry env link = .ok env' → Carries (names link) (eqn link) env env')
    (h : links.foldlM carry env = .ok env') :
    Carries (links.flatMap names) (fun σ => ∀ link ∈ links, eqn link σ) env env' := by
  induction links generalizing env with
  | nil =>
    have e : env = env' := Except.ok.inj h
    subst e
    have hrefl := Carries.refl env
    exact ⟨rfl, rfl, hrefl.within, fun σ hσ _ => hσ, fun _ _ hl => absurd hl List.not_mem_nil, hrefl.changed⟩
  | cons link links ih =>
    rw [List.foldlM_cons] at h
    obtain ⟨env₁, h₁, h₂⟩ := bind_ok_iff.mp h
    have hboth := (hcarry env env₁ link h₁).trans (ih h₂)
    rw [List.flatMap_cons]
    refine ⟨hboth.aliases, hboth.elements, hboth.within, fun σ hσ e => hboth.least σ hσ ?_,
      fun e => ?_, hboth.changed⟩
    · exact ⟨e link List.mem_cons_self, fun l hl => e l (List.mem_cons_of_mem _ hl)⟩
    · obtain ⟨hlink, hlinks⟩ := hboth.fixed e
      intro l hl
      rcases List.mem_cons.mp hl with rfl | hl
      · exact hlink
      · exact hlinks l hl

theorem foldlM_invariant (Inv : TypeEnv → Prop)
    (hstep : ∀ env env', ∀ link ∈ links, Inv env → carry env link = .ok env' → Inv env') (hinv : Inv env)
    (h : links.foldlM carry env = .ok env') : Inv env' := by
  induction links generalizing env with
  | nil =>
    cases h
    exact hinv
  | cons link links ih =>
    rw [List.foldlM_cons] at h
    obtain ⟨env₁, h₁, h₂⟩ := bind_ok_iff.mp h
    refine ih (fun e e' l hl => hstep e e' l (List.mem_cons_of_mem _ hl)) ?_ h₂
    exact hstep env env₁ link List.mem_cons_self hinv h₁

theorem foldlM_error {e : Error} (h : links.foldlM carry env = .error e) :
    ∃ link ∈ links, ∃ env₁, carry env₁ link = .error e := by
  induction links generalizing env with
  | nil => cases h
  | cons link links ih =>
    rw [List.foldlM_cons] at h
    rcases bind_error_iff.mp h with h | ⟨env₁, -, h⟩
    · exact ⟨link, List.mem_cons_self, env, h⟩
    · obtain ⟨l, hl, env₂, h₂⟩ := ih h
      exact ⟨l, List.mem_cons_of_mem _ hl, env₂, h₂⟩

theorem foldlM_of_solved {σ : String → Ty}
    (hcarry : ∀ env env' link, carry env link = .ok env' → Carries (names link) (eqn link) env env')
    (hok : ∀ env link, env.Within σ → eqn link σ → ∃ env', carry env link = .ok env') (hσ : env.Within σ)
    (hlinks : ∀ link ∈ links, eqn link σ) : ∃ env', links.foldlM carry env = .ok env' ∧ env'.Within σ := by
  induction links generalizing env with
  | nil => exact ⟨env, rfl, hσ⟩
  | cons link links ih =>
    have hlink := hlinks link List.mem_cons_self
    obtain ⟨env₁, h₁⟩ := hok env link hσ hlink
    obtain ⟨env₂, h₂, hσ₂⟩ := ih ((hcarry env env₁ link h₁).least σ hσ hlink)
      (fun l hl => hlinks l (List.mem_cons_of_mem _ hl))
    exact ⟨env₂, by rw [List.foldlM_cons, h₁]; exact h₂, hσ₂⟩

end Folds

theorem carryAlias_of_solved (env : TypeEnv) (link : Alias) (hσ : env.Within σ)
    (e : link.HoldsOf σ) : ∃ env', env.carryAlias link = .ok env' := by
  obtain ⟨u, hu, -⟩ :=
    (hσ link.target).unify? (Ty.Refines.trans (.of_eq e) (hσ link.source))
  unfold carryAlias
  simp only [hu]
  exact ⟨_, rfl⟩

theorem carryElement_of_solved (env : TypeEnv) (link : ElementLink)
    (hσ : env.Within σ) (e : link.HoldsOf σ) : ∃ env', env.carryElement link = .ok env' := by
  obtain ⟨u, hu, -⟩ :=
    (hσ link.list).unify? (Ty.Refines.trans (.of_eq e) (.list (hσ link.item)))
  unfold carryElement
  simp only [hu]
  exact ⟨_, rfl⟩

theorem carryAlias_error (h : env.carryAlias link = .error e) : ∃ a b, e = .mismatch a b link.blockId := by
  simp only [carryAlias] at h
  split at h
  · cases h
    exact ⟨_, _, rfl⟩
  · cases h

theorem carryElement_error {link : ElementLink} (h : env.carryElement link = .error e) :
    ∃ a b, e = .mismatch a b link.blockId := by
  simp only [carryElement] at h
  split at h
  · cases h
    exact ⟨_, _, rfl⟩
  · cases h

def linkNames (env : TypeEnv) : List String :=
  env.elements.flatMap ElementLink.names ++ env.aliases.flatMap Alias.names

theorem length_linkNames (env : TypeEnv) : env.linkNames.length = 2 * (env.aliases.length + env.elements.length) := by
  simp only [linkNames, ElementLink.names, Alias.names, List.length_append, List.length_flatMap,
    List.length_cons, List.length_nil, List.map_const', List.sum_replicate_nat]
  omega

theorem pass_carries (h : env.pass = .ok env') : Carries env.linkNames env.SolvedBy env env' := by
  obtain ⟨env₁, h₁, h₂⟩ := bind_ok_iff.mp h
  have c₁ := foldlM_carries carryElement_carries h₁
  have c₂ := foldlM_carries carryAlias_carries h₂
  have c := c₁.trans c₂
  refine ⟨c.aliases, c.elements, c.within, fun σ hσ hs => c.least σ hσ ⟨hs.elements, hs.aliases⟩,
    fun e => ?_, c.changed⟩
  obtain ⟨helements, haliases⟩ := c.fixed e
  exact ⟨haliases, helements⟩

theorem pass_of_solvedBy (hσ : env.Within σ) (hs : env.SolvedBy σ) : ∃ env', env.pass = .ok env' := by
  obtain ⟨env₁, h₁, hσ₁⟩ := foldlM_of_solved carryElement_carries carryElement_of_solved hσ hs.elements
  obtain ⟨env₂, h₂, -⟩ := foldlM_of_solved carryAlias_carries carryAlias_of_solved hσ₁ hs.aliases
  exact ⟨env₂, bind_ok_iff.mpr ⟨env₁, h₁, h₂⟩⟩

theorem pass_error (h : env.pass = .error e) :
    ∃ a b id, e = .mismatch a b id ∧
      ((∃ link ∈ env.aliases, link.blockId = id) ∨ ∃ link ∈ env.elements, link.blockId = id) := by
  rcases bind_error_iff.mp h with h | ⟨env₁, -, h⟩
  · obtain ⟨link, hl, env₁, hcarry⟩ := foldlM_error h
    obtain ⟨a, b, rfl⟩ := carryElement_error hcarry
    exact ⟨a, b, _, rfl, .inr ⟨link, hl, rfl⟩⟩
  · obtain ⟨link, hl, env₁, hcarry⟩ := foldlM_error h
    obtain ⟨a, b, rfl⟩ := carryAlias_error hcarry
    exact ⟨a, b, _, rfl, .inl ⟨link, hl, rfl⟩⟩

/-! ## Settled environments -/

/-- `env'` is the least solution of the links of `env` above what `env` knows. -/
structure LeastSolution (env env' : TypeEnv) : Prop where
  aliases : env'.aliases = env.aliases
  elements : env'.elements = env.elements
  within : env.Within env'.lookup
  solved : env.SolvedBy env'.lookup
  least : ∀ σ, env.Within σ → env.SolvedBy σ → env'.Within σ

theorem SolvedBy.congr (h : env.SolvedBy σ) (ha : env'.aliases = env.aliases) (he : env'.elements = env.elements) :
    env'.SolvedBy σ :=
  ⟨ha ▸ h.aliases, he ▸ h.elements⟩

theorem settleWithin_ok (h : settleWithin n env = .ok env') : LeastSolution env env' := by
  induction n generalizing env with
  | zero => cases h
  | succ n ih =>
    obtain ⟨env₁, hpass, h⟩ := bind_ok_iff.mp h
    have c := pass_carries hpass
    split at h
    · next e =>
      have e' : env = env' := Except.ok.inj h
      subst e'
      exact ⟨rfl, rfl, .refl env, c.fixed e, fun σ hσ _ => hσ⟩
    · have l := ih h
      refine ⟨l.aliases.trans c.aliases, l.elements.trans c.elements, c.within.trans l.within,
        l.solved.congr c.aliases.symm c.elements.symm, fun σ hσ hs => ?_⟩
      exact l.least σ (c.least σ hσ hs) (hs.congr c.aliases c.elements)

theorem settle_ok (h : env.settle = .ok env') : LeastSolution env env' :=
  settleWithin_ok h

theorem settleWithin_error_of_solvedBy (hσ : env.Within σ) (hs : env.SolvedBy σ) (h : settleWithin n env = .error e) :
    ∃ id, e = .unsettled id := by
  induction n generalizing env with
  | zero =>
    cases h
    exact ⟨_, rfl⟩
  | succ n ih =>
    rcases bind_error_iff.mp h with h | ⟨env₁, h₁, h⟩
    · obtain ⟨env', hpass⟩ := pass_of_solvedBy hσ hs
      rw [hpass] at h
      cases h
    · have c := pass_carries h₁
      split at h
      · cases h
      · exact ih (c.least σ hσ hs) (hs.congr c.aliases c.elements) h

/-! ## Enough passes -/

def potential (names : List String) (env : TypeEnv) : Nat :=
  (names.map fun name => (env.lookup name).height).sum

theorem potential_le (h : ∀ name, (env.lookup name).height ≤ bound) : potential names env ≤ names.length * bound := by
  induction names with
  | nil => exact Nat.zero_le _
  | cons name names ih =>
    have := h name
    simp only [potential, List.map_cons, List.sum_cons, List.length_cons, Nat.succ_mul] at ih ⊢
    omega

theorem potential_lt (h : env.Within env'.lookup) (hne : ∃ name ∈ names, env'.lookup name ≠ env.lookup name) :
    potential names env < potential names env' := by
  obtain ⟨name, hmem, hne⟩ := hne
  refine List.sum_lt_sum _ _ (fun x _ => height_mono (h x)) ⟨name, hmem, ?_⟩
  exact Nat.lt_of_not_le fun hle => hne (eq_of_height_le (h name) hle)

theorem linkNames_congr (ha : env'.aliases = env.aliases) (he : env'.elements = env.elements) :
    env'.linkNames = env.linkNames := by
  unfold linkNames
  rw [ha, he]

/-- Passes that keep all types below a height do not go on for ever: every pass but the last adds to
what is known about the linked variables. -/
theorem settleWithin_ne_unsettled (Inv : TypeEnv → Prop)
    (hbound : ∀ env, Inv env → ∀ name, (env.lookup name).height ≤ bound)
    (hpass : ∀ env env', Inv env → env.pass = .ok env' → Inv env') (hinv : Inv env)
    (hn : env.linkNames.length * bound < potential env.linkNames env + n) (id : String) :
    settleWithin n env ≠ .error (.unsettled id) := by
  induction n generalizing env with
  | zero =>
    have hle : potential env.linkNames env ≤ env.linkNames.length * bound :=
      potential_le (hbound env hinv)
    omega
  | succ n ih =>
    intro h
    rcases bind_error_iff.mp h with h | ⟨env₁, h₁, h⟩
    · obtain ⟨a, b, id', e, -⟩ := pass_error h
      cases e
    · have c := pass_carries h₁
      split at h
      · cases h
      · next hne =>
        have hlt := potential_lt c.within (c.changed hne)
        have hnames := linkNames_congr c.aliases c.elements
        refine ih (hpass env env₁ hinv h₁) ?_ h
        rw [hnames]
        omega

def deepest (env : TypeEnv) : Nat :=
  (env.bindings.map fun (_, t) => depth t).foldl max 0

theorem le_foldl_max {start : Nat} {l : List Nat} (h : n ≤ start ∨ n ∈ l) : n ≤ l.foldl max start := by
  induction l generalizing start with
  | nil =>
    rcases h with h | h
    · exact h
    · cases h
  | cons m l ih =>
    rw [List.foldl_cons]
    apply ih
    rcases h with h | h
    · exact .inl (Nat.le_trans h (Nat.le_max_left _ _))
    · rcases List.mem_cons.mp h with rfl | h
      · exact .inl (Nat.le_max_right _ _)
      · exact .inr h

theorem depth_lookup_le (env : TypeEnv) (name : String) : depth (env.lookup name) ≤ env.deepest := by
  unfold lookup deepest
  cases h : Dict.get? name env.bindings with
  | none => exact Nat.zero_le _
  | some t =>
    refine le_foldl_max (.inr (List.mem_map.mpr ⟨(name, t), ?_, rfl⟩))
    exact Dict.mem_of_get? h

theorem lt_passes (h : bound ≤ env.deepest + env.elements.length + 1) :
    env.linkNames.length * bound < potential env.linkNames env + env.passes := by
  have hlen := length_linkNames env
  have hmul : env.linkNames.length * bound ≤
      (env.bindings.length + 2 * (env.aliases.length + env.elements.length))
        * (env.deepest + env.elements.length + 2) :=
    Nat.mul_le_mul (by omega) (by omega)
  have hpasses : env.passes = (env.bindings.length + 2 * (env.aliases.length + env.elements.length))
      * (env.deepest + env.elements.length + 2) + 1 := rfl
  omega

/-! ## Levels bound the depth -/

/-- The variables have levels that fit their links: two variables of one type are on one level, and a
list is one level above its elements. -/
structure Stratified (env : TypeEnv) (level : String → Nat) : Prop where
  aliases : ∀ link ∈ env.aliases, level link.target = level link.source
  elements : ∀ link ∈ env.elements, level link.list = level link.item + 1

theorem SolvedBy.stratified (h : env.SolvedBy σ) : env.Stratified fun name => depth (σ name) := by
  refine ⟨fun link hl => ?_, fun link hl => ?_⟩
  · rw [h.aliases link hl]
  · rw [h.elements link hl]
    rfl

def levelsBelow (levels : Finset Nat) (k : Nat) : Nat :=
  (levels.filter fun l => l < k).card

theorem levelsBelow_succ {levels : Finset Nat} {k : Nat} (hk : k ∈ levels) :
    levelsBelow levels (k + 1) = levelsBelow levels k + 1 := by
  have hins : (levels.filter fun l => l < k + 1) = insert k (levels.filter fun l => l < k) := by
    ext l
    simp only [Finset.mem_filter, Finset.mem_insert]
    constructor
    · rintro ⟨hl, hlt⟩
      by_cases e : l = k
      · exact .inl e
      · exact .inr ⟨hl, by omega⟩
    · rintro (rfl | ⟨hl, hlt⟩)
      · exact ⟨hk, Nat.lt_succ_self _⟩
      · exact ⟨hl, by omega⟩
  unfold levelsBelow
  rw [hins, Finset.card_insert_of_notMem]
  simp

theorem levelsBelow_le (levels : Finset Nat) (k : Nat) : levelsBelow levels k ≤ levels.card :=
  Finset.card_filter_le _ _

/-- No type is deeper than the deepest one at the start and one list for each level below its variable on
which there are elements of a list. -/
structure Bounded (level : String → Nat) (levels : Finset Nat) (start : Nat) (env : TypeEnv) : Prop where
  stratified : env.Stratified level
  joined : ∀ link ∈ env.elements, level link.item ∈ levels
  depth_le : ∀ name, depth (env.lookup name) ≤ start + levelsBelow levels (level name)

section Bounded

variable {level : String → Nat} {levels : Finset Nat} {start : Nat}

theorem Bounded.of_carries {names : List String} {eqn : (String → Ty) → Prop} (h : Bounded level levels start env)
    (c : Carries names eqn env env')
    (hdepth : ∀ name, depth (env'.lookup name) ≤ start + levelsBelow levels (level name)) :
    Bounded level levels start env' :=
  ⟨⟨c.aliases ▸ h.stratified.aliases, c.elements ▸ h.stratified.elements⟩, c.elements ▸ h.joined, hdepth⟩

theorem Bounded.carryAlias (h : Bounded level levels start env) (e : level link.target = level link.source)
    (hcarry : env.carryAlias link = .ok env') : Bounded level levels start env' := by
  refine h.of_carries (carryAlias_carries env env' link hcarry) fun name => ?_
  obtain ⟨u, hu, -, hlookup⟩ := carryAlias_ok hcarry
  have hdepth := depth_unify? hu
  have ht := h.depth_le link.target
  have hs := h.depth_le link.source
  rw [← e] at hs
  rw [hlookup]
  split
  · next hn =>
    have hname : level name = level link.target := by
      rcases hn with rfl | rfl
      · rfl
      · exact e.symm
    rw [hname]
    omega
  · exact h.depth_le name

theorem Bounded.carryElement {link : ElementLink} (h : Bounded level levels start env) (hmem : link ∈ env.elements)
    (hcarry : env.carryElement link = .ok env') : Bounded level levels start env' := by
  refine h.of_carries (carryElement_carries env env' link hcarry) fun name => ?_
  obtain ⟨u, hu, -, -, hlookup⟩ := carryElement_ok hcarry
  have hdepth := depth_unify? hu
  have hl := h.depth_le link.list
  have hi := h.depth_le link.item
  have hstep : levelsBelow levels (level link.list) = levelsBelow levels (level link.item) + 1 := by
    rw [h.stratified.elements link hmem]
    exact levelsBelow_succ (h.joined link hmem)
  simp only [depth] at hdepth
  rw [hlookup]
  split
  · next hn =>
    rw [hn]
    simp only [depth]
    omega
  · split
    · next hn =>
      rw [hn]
      omega
    · exact h.depth_le name

theorem Bounded.pass (h : Bounded level levels start env) (hpass : env.pass = .ok env') :
    Bounded level levels start env' := by
  obtain ⟨env₁, h₁, h₂⟩ := bind_ok_iff.mp hpass
  have b₁ : Bounded level levels start env₁ ∧ env₁.elements = env.elements := by
    refine foldlM_invariant (fun env' => Bounded level levels start env' ∧ env'.elements = env.elements)
      (fun e e' link hl hinv hcarry => ?_) ⟨h, rfl⟩ h₁
    refine ⟨hinv.1.carryElement (hinv.2 ▸ hl) hcarry, ?_⟩
    exact (carryElement_carries e e' link hcarry).elements.trans hinv.2
  refine foldlM_invariant (Bounded level levels start) (fun e e' link hl hinv hcarry => ?_) b₁.1 h₂
  exact hinv.carryAlias (h.stratified.aliases link hl) hcarry

end Bounded

theorem Stratified.settle_ne_unsettled {level : String → Nat} (h : env.Stratified level) (id : String) :
    env.settle ≠ .error (.unsettled id) := by
  let levels : Finset Nat := (env.elements.map fun link => level link.item).toFinset
  have hcard : levels.card ≤ env.elements.length :=
    Nat.le_trans (List.toFinset_card_le _) (Nat.le_of_eq (List.length_map _))
  have hstart : Bounded level levels env.deepest env := by
    refine ⟨h, fun link hl => ?_, fun name => ?_⟩
    · exact List.mem_toFinset.mpr (List.mem_map.mpr ⟨link, hl, rfl⟩)
    · exact Nat.le_add_right_of_le (depth_lookup_le env name)
  have hbound : ∀ env', Bounded level levels env.deepest env' → ∀ name,
      (env'.lookup name).height ≤ env.deepest + env.elements.length + 1 := by
    intro env' h name
    have h₁ := height_le_depth (env'.lookup name)
    have h₂ := h.depth_le name
    have h₃ := levelsBelow_le levels (level name)
    omega
  exact settleWithin_ne_unsettled _ hbound (fun _ _ h => h.pass) hstart (lt_passes (Nat.le_refl _)) id

theorem settle_of_solvedBy (hσ : env.Within σ) (hs : env.SolvedBy σ) : ∃ env', env.settle = .ok env' := by
  cases h : env.settle with
  | ok env' => exact ⟨env', rfl⟩
  | error e =>
    obtain ⟨id, rfl⟩ := settleWithin_error_of_solvedBy hσ hs h
    exact absurd h (hs.stratified.settle_ne_unsettled id)

/-! ## Failures -/

theorem settleWithin_error (h : settleWithin n env = .error e) :
    (∃ a b id, e = .mismatch a b id ∧
      ((∃ link ∈ env.aliases, link.blockId = id) ∨ ∃ link ∈ env.elements, link.blockId = id)) ∨
    e = .unsettled env.linkId := by
  induction n generalizing env with
  | zero =>
    cases h
    exact .inr rfl
  | succ n ih =>
    rcases bind_error_iff.mp h with h | ⟨env₁, h₁, h⟩
    · exact .inl (pass_error h)
    · have c := pass_carries h₁
      split at h
      · cases h
      · have hid : env₁.linkId = env.linkId := by
          unfold linkId
          rw [c.elements]
        have := ih h
        rwa [c.aliases, c.elements, hid] at this

theorem settle_error (h : env.settle = .error e) :
    ∃ id, ((∃ a b, e = .mismatch a b id) ∨ e = .unsettled id) ∧
      ((∃ link ∈ env.aliases, link.blockId = id) ∨ ∃ link ∈ env.elements, link.blockId = id) := by
  rcases settleWithin_error h with ⟨a, b, id, rfl, hlink⟩ | rfl
  · exact ⟨id, .inl ⟨a, b, rfl⟩, hlink⟩
  · refine ⟨env.linkId, .inr rfl, .inr ?_⟩
    cases he : env.elements with
    | nil =>
      have hlevel : env.Stratified fun _ => 0 :=
        ⟨fun _ _ => rfl, fun _ hl => absurd (he ▸ hl) List.not_mem_nil⟩
      exact absurd h (hlevel.settle_ne_unsettled _)
    | cons link links =>
      refine ⟨link, List.mem_cons_self, ?_⟩
      unfold linkId
      rw [he]

end TypeEnv

end Blockwork
