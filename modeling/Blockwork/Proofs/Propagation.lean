import Mathlib
import Blockwork.Proofs.Acceptance

/-! # Types are carried to the end

Settling is a loop over passes, with a limit on their number. The limit changes nothing: a loop that is
still going when it is reached goes on for ever. Such loops exist, because a variable may be asked to be a
list of itself. They are ruled out by levels.
-/

namespace Blockwork

set_option autoImplicit false

variable {env : TypeEnv}

namespace TypeEnv

variable {env' : TypeEnv}

/-! ## Least solutions -/

theorem SolvedBy.of_subset {σ : String → Ty} (h : env.SolvedBy σ) (ha : env'.aliases ⊆ env.aliases)
    (he : env'.elements ⊆ env.elements) : env'.SolvedBy σ :=
  ⟨fun link hl => h.aliases link (ha hl), fun link hl => h.elements link (he hl)⟩

theorem LeastSolution.lookup_eq {other other' : TypeEnv} (h : LeastSolution env env')
    (h' : LeastSolution other other') (hlookup : other.lookup = env.lookup) (ha : other.aliases.Perm env.aliases)
    (he : other.elements.Perm env.elements) : other'.lookup = env'.lookup := by
  have hbelow : other'.Within env'.lookup := by
    refine h'.least _ (fun name => ?_) (h.solved.of_subset ha.subset he.subset)
    rw [hlookup]
    exact h.within name
  have habove : env'.Within other'.lookup := by
    refine h.least _ (fun name => ?_) (h'.solved.of_subset ha.symm.subset he.symm.subset)
    rw [← hlookup]
    exact h'.within name
  exact habove.lookup_eq hbelow

/-- A settled environment is the least solution of the links above what was known, so that the order of the
links does not matter. If types do not settle then the links have no solution above what was known. -/
theorem settle_least (env : TypeEnv) :
    (∀ env', env.settle = .ok env' →
      env.SolvedBy env'.lookup ∧ env.Within env'.lookup ∧
      (∀ σ, env.SolvedBy σ → env.Within σ → env'.Within σ) ∧
      ∀ other : TypeEnv, other.lookup = env.lookup → other.aliases.Perm env.aliases →
        other.elements.Perm env.elements →
          ∃ other', other.settle = .ok other' ∧ other'.lookup = env'.lookup) ∧
    ∀ e, env.settle = .error e → ¬∃ σ, env.SolvedBy σ ∧ env.Within σ := by
  refine ⟨fun env' h => ?_, fun e h => ?_⟩
  · have hleast := settle_ok h
    refine ⟨hleast.solved, hleast.within, fun σ hs hσ => hleast.least σ hσ hs, ?_⟩
    intro other hlookup ha he
    have hwithin : other.Within env'.lookup := by
      intro name
      rw [hlookup]
      exact hleast.within name
    obtain ⟨other', hother⟩ :=
      settle_of_solvedBy hwithin (hleast.solved.of_subset ha.subset he.subset)
    exact ⟨other', hother, hleast.lookup_eq (settle_ok hother) hlookup ha he⟩
  · rintro ⟨σ, hs, hσ⟩
    obtain ⟨env', hok⟩ := settle_of_solvedBy hσ hs
    rw [hok] at h
    cases h

/-- A variable that runs over a list and agrees with another one, where only the list is known. -/
def crossed : TypeEnv :=
  (((({} : TypeEnv).equate "a" "b" "s").elementOf "b" "c" "f").equate "d" "c" "t").assign "c"
    (.list .boolean)

/-- The same variables, where the two that agree are a text and an element of the list. -/
def contradicting : TypeEnv :=
  crossed.assign "a" .text

theorem crossed_settle_least :
    (∃ env', crossed.settle = .ok env' ∧ env'.lookup "a" = .boolean ∧ env'.lookup "d" = .list .boolean ∧
      crossed.SolvedBy env'.lookup ∧ ∀ σ, crossed.SolvedBy σ → crossed.Within σ → env'.Within σ) ∧
    contradicting.settle = .error (.mismatch .text .boolean "s") ∧
    ¬∃ σ, contradicting.SolvedBy σ ∧ contradicting.Within σ := by
  have hok : crossed.settle.toOption.map (fun env' => (env'.lookup "a", env'.lookup "d")) =
      some (.boolean, .list .boolean) := by decide
  have herror : contradicting.settle = .error (.mismatch .text .boolean "s") := by decide
  refine ⟨?_, herror, (settle_least contradicting).2 _ herror⟩
  cases h : crossed.settle with
  | error e =>
    rw [h] at hok
    cases hok
  | ok env' =>
    rw [h] at hok
    obtain ⟨ha, hd⟩ := Prod.mk.inj (Option.some.inj hok)
    obtain ⟨hsolved, -, hleast, -⟩ := (settle_least crossed).1 env' h
    exact ⟨env', rfl, ha, hd, hsolved, hleast⟩

/-! ## Types with and without placeholders -/

theorem list_ne_self (t : Ty) : Ty.list t ≠ t := by
  intro h
  have hdepth := congrArg depth h
  simp only [depth] at hdepth
  omega

theorem unify?_of_open {a b : Ty} (ha : a.isConcrete = false) (hb : b.isConcrete = false) :
    ∃ c, Ty.unify? a b = some c ∧ c.isConcrete = false := by
  induction a generalizing b with
  | captured => exact ⟨b, Ty.unify?_captured_left b, hb⟩
  | list a ih =>
    cases b with
    | captured => exact ⟨.list a, rfl, ha⟩
    | list b =>
      obtain ⟨c, hc, hopen⟩ := @ih b ha hb
      exact ⟨.list c, by rw [Ty.unify?_list, hc]; rfl, hopen⟩
    | _ => cases hb
  | _ => cases ha

/-- Knowledge grows, but no type loses its last placeholder. -/
structure StaysOpen (env env' : TypeEnv) : Prop where
  within : env.Within env'.lookup
  isOpen : ∀ name, (env.lookup name).isConcrete = false → (env'.lookup name).isConcrete = false

theorem StaysOpen.refl (env : TypeEnv) : env.StaysOpen env :=
  ⟨.refl env, fun _ h => h⟩

theorem StaysOpen.trans {env₁ env₂ : TypeEnv} (h : env.StaysOpen env₁) (h' : env₁.StaysOpen env₂) :
    env.StaysOpen env₂ :=
  ⟨h.within.trans h'.within, fun name hn => h'.isOpen name (h.isOpen name hn)⟩

/-- The ends of a link have types without placeholders that do what the link asks, or all of them have
types with placeholders. -/
def SteadyAt (names : List String) (eqn : (String → Ty) → Prop) (env : TypeEnv) : Prop :=
  ((∀ name ∈ names, (env.lookup name).isConcrete = true) ∧ eqn env.lookup) ∨
    ∀ name ∈ names, (env.lookup name).isConcrete = false

/-- Types without placeholders have come as far as the links take them. -/
structure Steady (env : TypeEnv) : Prop where
  aliases : ∀ link ∈ env.aliases, SteadyAt link.names link.HoldsOf env
  elements : ∀ link ∈ env.elements, SteadyAt link.names link.HoldsOf env

/-! ## One link -/

theorem Within.eq_of_concrete (h : env.Within env'.lookup) {name : String}
    (hname : (env.lookup name).isConcrete = true) : env'.lookup name = env.lookup name :=
  (h name).eq_of_isConcrete hname

theorem carryAlias_spreads {link : Alias} (h : env.carryAlias link = .ok env')
    (hsome : ∃ name ∈ link.names, (env.lookup name).isConcrete = true) :
    (∀ name ∈ link.names, (env'.lookup name).isConcrete = true) ∧ link.HoldsOf env'.lookup := by
  obtain ⟨u, hu, -, hlookup⟩ := carryAlias_ok h
  have hends : ∀ name ∈ link.names, env'.lookup name = u := by
    intro name hname
    rw [hlookup, if_pos (by simpa [Alias.names] using hname)]
  have hconcrete : u.isConcrete = true := by
    obtain ⟨name, hname, hknown⟩ := hsome
    have hrefines : u.Refines (env.lookup name) := by
      rw [← hends name hname]
      exact (carryAlias_carries env env' link h).within name
    exact hrefines.isConcrete hknown
  refine ⟨fun name hname => ?_, ?_⟩
  · rw [hends name hname]
    exact hconcrete
  · unfold Alias.HoldsOf
    rw [hends link.target (by simp [Alias.names]), hends link.source (by simp [Alias.names])]

theorem carryElement_spreads {link : ElementLink} (h : env.carryElement link = .ok env')
    (hsome : ∃ name ∈ link.names, (env.lookup name).isConcrete = true) :
    (∀ name ∈ link.names, (env'.lookup name).isConcrete = true) ∧ link.HoldsOf env'.lookup := by
  obtain ⟨u, hu, hself, -, hlookup⟩ := carryElement_ok h
  have hlist : env'.lookup link.list = .list u := by
    rw [hlookup, if_pos rfl]
  have hwithin := (carryElement_carries env env' link h).within
  -- A list that is its own element would keep its type, and a type is not the list of itself.
  have hne : link.item ≠ link.list := by
    intro e
    obtain ⟨name, hname, hknown⟩ := hsome
    have hname' : name = link.list := by
      simpa [ElementLink.names, e] using hname
    rw [hname'] at hknown
    have hsame := hwithin.eq_of_concrete hknown
    rw [hlist, hself e, e] at hsame
    exact list_ne_self _ hsame
  have hitem : env'.lookup link.item = u := by
    rw [hlookup, if_neg hne, if_pos rfl]
  have hconcrete : u.isConcrete = true := by
    obtain ⟨name, hname, hknown⟩ := hsome
    have hafter := (hwithin name).isConcrete hknown
    simp only [ElementLink.names, List.mem_cons, List.not_mem_nil, or_false] at hname
    rcases hname with rfl | rfl
    · rw [hlist] at hafter
      exact hafter
    · rw [hitem] at hafter
      exact hafter
  refine ⟨fun name hname => ?_, ?_⟩
  · simp only [ElementLink.names, List.mem_cons, List.not_mem_nil, or_false] at hname
    rcases hname with rfl | rfl
    · rw [hlist]
      exact hconcrete
    · rw [hitem]
      exact hconcrete
  · unfold ElementLink.HoldsOf
    rw [hlist, hitem]

theorem Carries.staysOpen_of_holds {names : List String} {eqn : (String → Ty) → Prop}
    (c : Carries names eqn env env') (h : eqn env.lookup) : env.StaysOpen env' := by
  have hback : env'.Within env.lookup := c.least _ (.refl env) h
  refine ⟨c.within, fun name hopen => ?_⟩
  rw [c.within.lookup_eq hback]
  exact hopen

theorem carryAlias_of_steadyAt (env : TypeEnv) (link : Alias) (h : SteadyAt link.names link.HoldsOf env) :
    ∃ env', env.carryAlias link = .ok env' ∧ env.StaysOpen env' := by
  rcases h with ⟨-, hholds⟩ | hopen
  · obtain ⟨env', hcarry⟩ := carryAlias_of_solved env link (.refl env) hholds
    exact ⟨env', hcarry, (carryAlias_carries env env' link hcarry).staysOpen_of_holds hholds⟩
  · obtain ⟨u, hu, huopen⟩ := unify?_of_open (hopen link.target (by simp [Alias.names]))
      (hopen link.source (by simp [Alias.names]))
    have hcarry : ∃ env', env.carryAlias link = .ok env' := by
      unfold carryAlias
      simp only [hu]
      exact ⟨_, rfl⟩
    obtain ⟨env', hcarry⟩ := hcarry
    refine ⟨env', hcarry, (carryAlias_carries env env' link hcarry).within, fun name hname => ?_⟩
    obtain ⟨v, hv, -, hlookup⟩ := carryAlias_ok hcarry
    cases hu.symm.trans hv
    rw [hlookup]
    split
    · exact huopen
    · exact hname

theorem carryElement_of_steadyAt (env : TypeEnv) (link : ElementLink)
    (h : SteadyAt link.names link.HoldsOf env) :
    ∃ env', env.carryElement link = .ok env' ∧ env.StaysOpen env' := by
  rcases h with ⟨-, hholds⟩ | hopen
  · obtain ⟨env', hcarry⟩ := carryElement_of_solved env link (.refl env) hholds
    exact ⟨env', hcarry, (carryElement_carries env env' link hcarry).staysOpen_of_holds hholds⟩
  · have hitem : (Ty.list (env.lookup link.item)).isConcrete = false :=
      hopen link.item (by simp [ElementLink.names])
    obtain ⟨t, ht, htopen⟩ := unify?_of_open (hopen link.list (by simp [ElementLink.names])) hitem
    have hcarry : ∃ env', env.carryElement link = .ok env' := by
      unfold carryElement
      simp only [ht]
      exact ⟨_, rfl⟩
    obtain ⟨env', hcarry⟩ := hcarry
    refine ⟨env', hcarry, (carryElement_carries env env' link hcarry).within, fun name hname => ?_⟩
    obtain ⟨u, hu, -, -, hlookup⟩ := carryElement_ok hcarry
    cases ht.symm.trans hu
    rw [hlookup]
    split
    · exact htopen
    · split
      · exact htopen
      · exact hname

/-! ## Passes over steady links -/

section Folds

variable {α : Type} {names : α → List String} {eqn : α → (String → Ty) → Prop}
variable {links : List α}
  {carry : TypeEnv → α → Except Error TypeEnv}

theorem SteadyAt.staysOpen {ends : List String} {holds : (String → Ty) → Prop}
    (hlocal : ∀ σ σ' : String → Ty, (∀ name ∈ ends, σ' name = σ name) → holds σ → holds σ')
    (h : SteadyAt ends holds env) (hopen : env.StaysOpen env') : SteadyAt ends holds env' := by
  rcases h with ⟨hknown, hholds⟩ | hunknown
  · have hsame : ∀ name ∈ ends, env'.lookup name = env.lookup name :=
      fun name hname => hopen.within.eq_of_concrete (hknown name hname)
    refine .inl ⟨fun name hname => ?_, hlocal _ _ hsame hholds⟩
    rw [hsame name hname]
    exact hknown name hname
  · exact .inr fun name hname => hopen.isOpen name (hunknown name hname)

theorem foldlM_of_steadyAt
    (hlocal : ∀ link σ σ', (∀ name ∈ names link, σ' name = σ name) → eqn link σ → eqn link σ')
    (hcarry : ∀ env link, SteadyAt (names link) (eqn link) env →
      ∃ env', carry env link = .ok env' ∧ env.StaysOpen env')
    (h : ∀ link ∈ links, SteadyAt (names link) (eqn link) env) :
    ∃ env', links.foldlM carry env = .ok env' ∧ env.StaysOpen env' := by
  induction links generalizing env with
  | nil => exact ⟨env, rfl, .refl env⟩
  | cons link links ih =>
    obtain ⟨env₁, h₁, hopen₁⟩ := hcarry env link (h link List.mem_cons_self)
    have hrest : ∀ l ∈ links, SteadyAt (names l) (eqn l) env₁ :=
      fun l hl => (h l (List.mem_cons_of_mem _ hl)).staysOpen (hlocal l) hopen₁
    obtain ⟨env₂, h₂, hopen₂⟩ := ih hrest
    exact ⟨env₂, by rw [List.foldlM_cons, h₁]; exact h₂, hopen₁.trans hopen₂⟩

theorem foldlM_mem (hcarry : ∀ env env' link, carry env link = .ok env' → Carries (names link) (eqn link) env env')
    (h : links.foldlM carry env = .ok env') {link : α} (hl : link ∈ links) :
    ∃ before after, carry before link = .ok after ∧ env.Within before.lookup ∧
      after.Within env'.lookup := by
  induction links generalizing env with
  | nil => cases hl
  | cons first links ih =>
    rw [List.foldlM_cons] at h
    obtain ⟨env₁, h₁, h₂⟩ := Except.bind_ok_iff.mp h
    rcases List.mem_cons.mp hl with rfl | hl
    · exact ⟨env, env₁, h₁, .refl env, (foldlM_carries hcarry h₂).within⟩
    · obtain ⟨before, after, hlink, hbefore, hafter⟩ := ih h₂ hl
      exact ⟨before, after, hlink, (hcarry env env₁ first h₁).within.trans hbefore, hafter⟩

theorem steadyAt_of_foldlM
    (hlocal : ∀ link σ σ', (∀ name ∈ names link, σ' name = σ name) → eqn link σ → eqn link σ')
    (hcarry : ∀ env env' link, carry env link = .ok env' → Carries (names link) (eqn link) env env')
    (hspreads : ∀ env env' link, carry env link = .ok env' →
      (∃ name ∈ names link, (env.lookup name).isConcrete = true) →
      (∀ name ∈ names link, (env'.lookup name).isConcrete = true) ∧ eqn link env'.lookup)
    {final : TypeEnv} (h : links.foldlM carry env = .ok env')
    (hfinal : env'.Within final.lookup) {link : α} (hl : link ∈ links)
    (hsame : ∀ name ∈ names link, (final.lookup name).isConcrete = true →
      (env.lookup name).isConcrete = true) :
    SteadyAt (names link) (eqn link) final := by
  by_cases hsome : ∃ name ∈ names link, (final.lookup name).isConcrete = true
  · obtain ⟨before, after, hlink, hbefore, hafter⟩ := foldlM_mem hcarry h hl
    obtain ⟨name, hname, hknown⟩ := hsome
    obtain ⟨hall, hholds⟩ := hspreads before after link hlink
      ⟨name, hname, (hbefore name).isConcrete (hsame name hname hknown)⟩
    have hwithin : after.Within final.lookup := hafter.trans hfinal
    refine .inl ⟨fun n hn => (hwithin n).isConcrete (hall n hn), ?_⟩
    exact hlocal link _ _ (fun n hn => hwithin.eq_of_concrete (hall n hn)) hholds
  · refine .inr fun name hname => ?_
    by_contra hknown
    exact hsome ⟨name, hname, by simpa using hknown⟩

end Folds

theorem alias_holdsOf_congr (link : Alias) (σ σ' : String → Ty)
    (hσ : ∀ name ∈ link.names, σ' name = σ name) (h : link.HoldsOf σ) : link.HoldsOf σ' := by
  unfold Alias.HoldsOf at h ⊢
  rw [hσ link.target (by simp [Alias.names]), hσ link.source (by simp [Alias.names])]
  exact h

theorem element_holdsOf_congr (link : ElementLink) (σ σ' : String → Ty)
    (hσ : ∀ name ∈ link.names, σ' name = σ name) (h : link.HoldsOf σ) : link.HoldsOf σ' := by
  unfold ElementLink.HoldsOf at h ⊢
  rw [hσ link.list (by simp [ElementLink.names]), hσ link.item (by simp [ElementLink.names])]
  exact h

theorem Steady.pass (h : env.Steady) : ∃ env', env.pass = .ok env' ∧ env'.Steady := by
  obtain ⟨env₁, h₁, hopen₁⟩ := foldlM_of_steadyAt element_holdsOf_congr carryElement_of_steadyAt h.elements
  have haliases : ∀ link ∈ env.aliases, SteadyAt link.names link.HoldsOf env₁ :=
    fun link hl => (h.aliases link hl).staysOpen (alias_holdsOf_congr link) hopen₁
  obtain ⟨env₂, h₂, hopen₂⟩ := foldlM_of_steadyAt alias_holdsOf_congr carryAlias_of_steadyAt haliases
  have hpass : env.pass = .ok env₂ := Except.bind_ok_iff.mpr ⟨env₁, h₁, h₂⟩
  have c := pass_carries hpass
  have hopen := hopen₁.trans hopen₂
  refine ⟨env₂, hpass, fun link hl => ?_, fun link hl => ?_⟩
  · rw [c.aliases] at hl
    exact (h.aliases link hl).staysOpen (alias_holdsOf_congr link) hopen
  · rw [c.elements] at hl
    exact (h.elements link hl).staysOpen (element_holdsOf_congr link) hopen

theorem Steady.settleWithin_ne_mismatch (h : env.Steady) (n : Nat) (a b : Ty) (id : String) :
    settleWithin n env ≠ .error (.mismatch a b id) := by
  induction n generalizing env with
  | zero => exact fun hn => nomatch hn
  | succ n ih =>
    intro hn
    obtain ⟨env', hpass, hsteady⟩ := h.pass
    rw [settleWithin, hpass, Except.ok_bind] at hn
    split at hn
    · cases hn
    · exact ih hsteady hn

def openNames (env : TypeEnv) : Finset String :=
  env.linkNames.toFinset.filter fun name => (env.lookup name).isConcrete = false

theorem card_openNames_le (env : TypeEnv) : env.openNames.card ≤ env.linkNames.length :=
  Nat.le_trans (Finset.card_filter_le _ _) (List.toFinset_card_le _)

theorem pass_openNames (h : env.pass = .ok env') : env'.openNames.card < env.openNames.card ∨ env'.Steady := by
  have c := pass_carries h
  have hnames := linkNames_congr c.aliases c.elements
  by_cases hsame : ∀ name ∈ env.linkNames, (env'.lookup name).isConcrete = true →
      (env.lookup name).isConcrete = true
  · right
    obtain ⟨env₁, h₁, h₂⟩ := Except.bind_ok_iff.mp h
    have c₁ := foldlM_carries carryElement_carries h₁
    have c₂ := foldlM_carries carryAlias_carries h₂
    refine ⟨fun link hl => ?_, fun link hl => ?_⟩
    · rw [c.aliases] at hl
      refine steadyAt_of_foldlM alias_holdsOf_congr carryAlias_carries (fun _ _ _ => carryAlias_spreads) h₂
        (.refl env') hl fun name hname hknown => ?_
      have hmem : name ∈ env.linkNames :=
        List.mem_append_right _ (List.mem_flatMap.mpr ⟨link, hl, hname⟩)
      exact (c₁.within name).isConcrete (hsame name hmem hknown)
    · rw [c.elements] at hl
      refine steadyAt_of_foldlM element_holdsOf_congr carryElement_carries
        (fun _ _ _ => carryElement_spreads) h₁ c₂.within hl fun name hname hknown => ?_
      have hmem : name ∈ env.linkNames :=
        List.mem_append_left _ (List.mem_flatMap.mpr ⟨link, hl, hname⟩)
      exact hsame name hmem hknown
  · left
    push Not at hsame
    obtain ⟨name, hmem, hafter, hbefore⟩ := hsame
    apply Finset.card_lt_card
    refine Finset.ssubset_iff_subset_ne.mpr ⟨fun n hn => ?_, fun e => ?_⟩
    · simp only [openNames, Finset.mem_filter, List.mem_toFinset, hnames] at hn ⊢
      refine ⟨hn.1, ?_⟩
      by_contra hknown
      have := (c.within n).isConcrete (by simpa using hknown)
      rw [hn.2] at this
      cases this
    · have hin : name ∈ env.openNames := by
        simp only [openNames, Finset.mem_filter, List.mem_toFinset]
        exact ⟨hmem, by simpa using hbefore⟩
      rw [← e] at hin
      simp only [openNames, Finset.mem_filter] at hin
      rw [hin.2] at hafter
      cases hafter

/-! ## Loops without end -/

theorem settleWithin_mismatch {n m : Nat} {a b : Ty} {id : String}
    (h : settleWithin n env = .error (.mismatch a b id)) (hm : env.openNames.card < m) :
    settleWithin m env = .error (.mismatch a b id) := by
  induction n generalizing m env with
  | zero => cases h
  | succ n ih =>
    obtain ⟨m, rfl⟩ : ∃ k, m = k + 1 := ⟨m - 1, by omega⟩
    rcases Except.bind_error_iff.mp h with hpass | ⟨env₁, hpass, h⟩
    · exact Except.bind_error_iff.mpr (.inl hpass)
    · refine Except.bind_error_iff.mpr (.inr ⟨env₁, hpass, ?_⟩)
      split at h
      · cases h
      · next hne =>
        rw [if_neg hne]
        rcases pass_openNames hpass with hlt | hsteady
        · exact ih h (by omega)
        · exact absurd h (hsteady.settleWithin_ne_mismatch n a b id)

theorem length_linkNames_lt_passes (env : TypeEnv) : env.linkNames.length < env.passes := by
  have hlt := @lt_passes env 0 (Nat.zero_le _)
  have hlen := length_linkNames env
  have hmul : env.bindings.length + 2 * (env.aliases.length + env.elements.length) ≤
      (env.bindings.length + 2 * (env.aliases.length + env.elements.length))
        * (env.deepest + env.elements.length + 2) :=
    Nat.le_mul_of_pos_right _ (by omega)
  have hpasses : env.passes = (env.bindings.length + 2 * (env.aliases.length + env.elements.length))
      * (env.deepest + env.elements.length + 2) + 1 := rfl
  omega

/-- The loop comes to an end within `n` passes: the last one changes nothing, or fails because types
clash. -/
def EndsWithin (n : Nat) (env : TypeEnv) : Prop :=
  (∃ env', settleWithin n env = .ok env') ∨ ∃ a b id, settleWithin n env = .error (.mismatch a b id)

theorem settleWithin_unsettled {id : String} (h : env.settle = .error (.unsettled id)) (n : Nat) :
    ¬env.EndsWithin n := by
  rintro (⟨env', hn⟩ | ⟨a, b, id', hn⟩)
  · have hleast := settleWithin_ok hn
    obtain ⟨env'', hok⟩ := settle_of_solvedBy hleast.within hleast.solved
    rw [hok] at h
    cases h
  · have hcard : env.openNames.card < env.passes :=
      Nat.lt_of_le_of_lt (card_openNames_le env) (length_linkNames_lt_passes env)
    have hclash : env.settle = .error (.mismatch a b id') := settleWithin_mismatch hn hcard
    rw [hclash] at h
    cases h

theorem settle_unsettled_iff (env : TypeEnv) :
    (∃ id, env.settle = .error (.unsettled id)) ↔ ∀ n, ¬env.EndsWithin n := by
  refine ⟨fun ⟨id, h⟩ => settleWithin_unsettled h, fun h => ?_⟩
  cases hsettle : env.settle with
  | ok env' => exact absurd (.inl ⟨env', hsettle⟩) (h env.passes)
  | error e =>
    obtain ⟨id, ⟨a, b, rfl⟩ | rfl, -⟩ := settle_error hsettle
    · exact absurd (.inr ⟨a, b, id, hsettle⟩) (h env.passes)
    · exact ⟨id, rfl⟩

theorem Stratified.exists_endsWithin {level : String → Nat} (h : env.Stratified level) : ∃ n, env.EndsWithin n := by
  by_contra hno
  push Not at hno
  obtain ⟨id, hsettle⟩ := (settle_unsettled_iff env).mpr hno
  exact h.settle_ne_unsettled id hsettle

theorem exists_stratified_of_settleWithin {n : Nat} (h : settleWithin n env = .ok env') :
    ∃ level, env.Stratified level :=
  ⟨_, (settleWithin_ok h).solved.stratified⟩

end TypeEnv

namespace Program

theorem ofBlocks_of_stratified {blocks : List Block} {allowFloating : Bool} {roots : List Root}
    {level : String → Nat} (hread : (Block.readRoots allowFloating blocks).runFrom {} = (.ok roots, env))
    (h : env.Stratified level) :
    (∃ settled, env.settle = .ok settled ∧
      ofBlocks blocks allowFloating = (roots.mapM (Root.resolve settled)).map Program.mk) ∨
    ∃ a b id, ofBlocks blocks allowFloating = .error (.mismatch a b id) := by
  have hresolve : ofBlocks blocks allowFloating = Program.resolve env { roots } := by
    unfold ofBlocks readFrom
    rw [hread]
  rw [hresolve]
  unfold Program.resolve
  cases hsettle : env.settle with
  | ok settled =>
    refine .inl ⟨settled, rfl, ?_⟩
    rw [Except.ok_bind]
    cases roots.mapM (Root.resolve settled) <;> rfl
  | error e =>
    obtain ⟨id, ⟨a, b, rfl⟩ | rfl, -⟩ := TypeEnv.settle_error hsettle
    · exact .inr ⟨a, b, id, rfl⟩
    · exact absurd hsettle (h.settle_ne_unsettled id)

/-- The loop ends for variables that have levels, and only with clashing types for others. The limit on the
passes is reached by the loops without an end alone. So there is an outcome for every workspace that links
its variables in such a way that they have levels. -/
theorem ofBlocks_ends (env : TypeEnv) :
    ((∃ level, env.Stratified level) → ∃ n, env.EndsWithin n) ∧
    ((¬∃ level, env.Stratified level) → ∀ n env', TypeEnv.settleWithin n env ≠ .ok env') ∧
    ((∃ id, env.settle = .error (.unsettled id)) ↔ ∀ n, ¬env.EndsWithin n) ∧
    ∀ (blocks : List Block) (allowFloating : Bool) (roots : List Root),
      (Block.readRoots allowFloating blocks).runFrom {} = (.ok roots, env) →
      (∃ level, env.Stratified level) →
        (∃ settled, env.settle = .ok settled ∧
          ofBlocks blocks allowFloating = (roots.mapM (Root.resolve settled)).map Program.mk) ∨
        ∃ a b id, ofBlocks blocks allowFloating = .error (.mismatch a b id) := by
  refine ⟨?_, ?_, TypeEnv.settle_unsettled_iff env, ?_⟩
  · rintro ⟨level, h⟩
    exact h.exists_endsWithin
  · intro hno n env' h
    exact hno (TypeEnv.exists_stratified_of_settleWithin h)
  · rintro blocks allowFloating roots hread ⟨level, h⟩
    exact ofBlocks_of_stratified hread h

def loopingBlock (id item list : String) : Block :=
  { tag := Tag.forEach.name, attrs := { id }, fields := [("VAR", item)],
    values := [("LIST", readingBlock "list" list)] }

/-- A loop over a list whose elements are known only from what comes after it. -/
def loopOverList : List Block :=
  [loopingBlock "f" "i" "xs", settingBlock "s" "i" (truthBlock "t")]

theorem loopOverList_ends :
    ∃ roots env, (Block.readRoots false loopOverList).runFrom {} = (.ok roots, env) ∧
      env.elements = [⟨"i", "xs", "f"⟩] ∧ (env.Stratified fun name => if name = "xs" then 1 else 0) ∧
      (∃ n, env.EndsWithin n) ∧
      ((∃ settled, env.settle = .ok settled ∧
        ofBlocks loopOverList false = (roots.mapM (Root.resolve settled)).map Program.mk) ∨
      ∃ a b id, ofBlocks loopOverList false = .error (.mismatch a b id)) := by
  have hok : ((Block.readRoots false loopOverList).runFrom {}).1.isOk = true := by cbv
  have hlinks : ((Block.readRoots false loopOverList).runFrom {}).2.aliases = [] ∧
      ((Block.readRoots false loopOverList).runFrom {}).2.elements = [⟨"i", "xs", "f"⟩] := by
    constructor <;> cbv
  cases hrun : (Block.readRoots false loopOverList).runFrom {} with
  | mk result env =>
    rw [hrun] at hok hlinks
    cases result with
    | error e => cases hok
    | ok roots =>
      have hlevel : env.Stratified fun name => if name = "xs" then 1 else 0 := by
        refine ⟨fun link hl => ?_, fun link hl => ?_⟩
        · rw [show env.aliases = [] from hlinks.1] at hl
          cases hl
        · rw [show env.elements = [⟨"i", "xs", "f"⟩] from hlinks.2] at hl
          cases List.mem_singleton.mp hl
          decide
      obtain ⟨hends, -, -, houtcome⟩ := ofBlocks_ends env
      exact ⟨roots, env, rfl, hlinks.2, hlevel, hends ⟨_, hlevel⟩, houtcome loopOverList false roots hrun ⟨_, hlevel⟩⟩

/-- The variable of a loop over itself is asked to be a list of itself, and every pass makes its type
deeper. -/
theorem loopOverItself_never_ends :
    ofBlocks [loopingBlock "f" "x" "x"] false = .error (.unsettled "f") ∧
    ∃ roots env, (Block.readRoots false [loopingBlock "f" "x" "x"]).runFrom {} = (.ok roots, env) ∧
      ∀ n, ¬env.EndsWithin n := by
  have houtcome : ofBlocks [loopingBlock "f" "x" "x"] false = .error (.unsettled "f") := by cbv
  have hok : ((Block.readRoots false [loopingBlock "f" "x" "x"]).runFrom {}).1.isOk = true := by cbv
  have hsettle : ((Block.readRoots false [loopingBlock "f" "x" "x"]).runFrom {}).2.settle =
      .error (.unsettled "f") := by cbv
  refine ⟨houtcome, ?_⟩
  cases hrun : (Block.readRoots false [loopingBlock "f" "x" "x"]).runFrom {} with
  | mk result env =>
    rw [hrun] at hok hsettle
    cases result with
    | error e => cases hok
    | ok roots => exact ⟨roots, env, rfl, TypeEnv.settleWithin_unsettled hsettle⟩

end Program

end Blockwork
