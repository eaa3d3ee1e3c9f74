import Blockwork.Proofs.Refinement
import Blockwork.TypeEnv

/-! # What an environment knows

An environment is compared with assignments of types to names: it is within an assignment that
refines every type in it. Knowledge grows from one environment to another if the first is within the
look-up of the second.
-/

namespace Blockwork.TypeEnv

set_option autoImplicit false

variable {env env' : TypeEnv}

/-! ## Look-ups -/

@[simp] theorem lookup_assign (env : TypeEnv) (name name' : String) (t : Ty) :
    (env.assign name t).lookup name' = if name = name' then t else env.lookup name' := by
  simp only [lookup, assign, Dict.get?_insert]
  split <;> rfl

@[simp] theorem lookup_equate (env : TypeEnv) (target source blockId name : String) :
    (env.equate target source blockId).lookup name = env.lookup name := by
  unfold equate
  split <;> rfl

@[simp] theorem elements_equate (env : TypeEnv) (target source blockId : String) :
    (env.equate target source blockId).elements = env.elements := by
  unfold equate
  split <;> rfl

@[simp] theorem lookup_empty (name : String) : ({} : TypeEnv).lookup name = .captured := rfl

variable {name blockId : String} {t : Ty} {σ : String → Ty} {ids : List String}

theorem bind_of_unify? {u : Ty} (blockId : String) (h : Ty.unify? (env.lookup name) t = some u) :
    env.bind name t blockId = .ok (u, env.assign name u) := by
  unfold bind
  rw [h]

theorem bind_of_unify?_none (blockId : String) (h : Ty.unify? (env.lookup name) t = none) :
    env.bind name t blockId = .error (.mismatch (env.lookup name) t blockId) := by
  unfold bind
  rw [h]

/-! ## Environments and assignments -/

/-- Everything that is known holds of the assignment. -/
def Within (env : TypeEnv) (σ : String → Ty) : Prop :=
  ∀ name, (σ name).Refines (env.lookup name)

theorem Within.refl (env : TypeEnv) : env.Within env.lookup :=
  fun name => .refl (env.lookup name)

theorem Within.trans (h : env.Within env'.lookup) (h' : env'.Within σ) : env.Within σ :=
  fun name => (h' name).trans (h name)

theorem Within.assign (h : env.Within σ) (ht : (σ name).Refines t) : (env.assign name t).Within σ := by
  intro name'
  rw [lookup_assign]
  split
  · next e => exact e ▸ ht
  · exact h name'

theorem within_assign (h : t.Refines (env.lookup name)) : env.Within (env.assign name t).lookup := by
  intro name'
  rw [lookup_assign]
  split
  · next e => exact e ▸ h
  · exact .refl _

theorem Within.lookup_eq (h : env.Within env'.lookup) (h' : env'.Within env.lookup) : env'.lookup = env.lookup := by
  funext name
  exact (h name).antisymm (h' name)

/-- The assignment gives linked variables the types that their links ask for. -/
structure SolvedBy (env : TypeEnv) (σ : String → Ty) : Prop where
  aliases : ∀ link ∈ env.aliases, σ link.target = σ link.source
  elements : ∀ link ∈ env.elements, σ link.list = .list (σ link.item)

theorem solvedBy_empty (σ : String → Ty) : ({} : TypeEnv).SolvedBy σ :=
  ⟨fun _ h => absurd h List.not_mem_nil, fun _ h => absurd h List.not_mem_nil⟩

@[simp] theorem solvedBy_assign : (env.assign name t).SolvedBy σ ↔ env.SolvedBy σ :=
  ⟨fun h => ⟨h.aliases, h.elements⟩, fun h => ⟨h.aliases, h.elements⟩⟩

theorem solvedBy_iff : env.SolvedBy σ ↔ (∀ link ∈ env.aliases, σ link.target = σ link.source) ∧
      ∀ link ∈ env.elements, σ link.list = .list (σ link.item) :=
  ⟨fun h => ⟨h.aliases, h.elements⟩, fun h => ⟨h.1, h.2⟩⟩

theorem solvedBy_equate {target source : String} :
    (env.equate target source blockId).SolvedBy σ ↔ env.SolvedBy σ ∧ σ target = σ source := by
  unfold equate
  split
  · next e => exact ⟨fun h => ⟨h, congrArg σ e⟩, And.left⟩
  · simp only [solvedBy_iff, List.forall_mem_append, List.forall_mem_singleton]
    exact and_right_comm

theorem solvedBy_elementOf {item list : String} :
    (env.elementOf item list blockId).SolvedBy σ ↔ env.SolvedBy σ ∧ σ list = .list (σ item) := by
  simp only [solvedBy_iff, elementOf, List.forall_mem_append, List.forall_mem_singleton, and_assoc]

/-! ## Growth -/

/-- Knowledge and links only grow, and every new link names a block out of `ids`. -/
structure GrowsTo (ids : List String) (env env' : TypeEnv) : Prop where
  within : env.Within env'.lookup
  aliases : ∃ new, env'.aliases = env.aliases ++ new ∧ ∀ link ∈ new, link.blockId ∈ ids
  elements : ∃ new, env'.elements = env.elements ++ new ∧ ∀ link ∈ new, link.blockId ∈ ids

theorem GrowsTo.refl (ids : List String) (env : TypeEnv) : GrowsTo ids env env :=
  ⟨.refl env, ⟨[], (List.append_nil _).symm, fun _ h => nomatch h⟩,
    ⟨[], (List.append_nil _).symm, fun _ h => nomatch h⟩⟩

theorem extension_trans {α : Type} {P : α → Prop} {xs ys zs : List α}
    (h : ∃ new, ys = xs ++ new ∧ ∀ x ∈ new, P x) (h' : ∃ new, zs = ys ++ new ∧ ∀ x ∈ new, P x) :
    ∃ new, zs = xs ++ new ∧ ∀ x ∈ new, P x := by
  obtain ⟨new, rfl, hnew⟩ := h
  obtain ⟨new', rfl, hnew'⟩ := h'
  refine ⟨new ++ new', List.append_assoc .., fun x hx => ?_⟩
  rcases List.mem_append.mp hx with hx | hx
  · exact hnew x hx
  · exact hnew' x hx

theorem GrowsTo.trans {env'' : TypeEnv} (h : GrowsTo ids env env') (h' : GrowsTo ids env' env'') :
    GrowsTo ids env env'' :=
  ⟨h.within.trans h'.within, extension_trans h.aliases h'.aliases,
    extension_trans h.elements h'.elements⟩

theorem GrowsTo.mono {ids' : List String} (h : GrowsTo ids env env') (hids : ids ⊆ ids') : GrowsTo ids' env env' := by
  obtain ⟨new, ha, hnew⟩ := h.aliases
  obtain ⟨new', he, hnew'⟩ := h.elements
  exact ⟨h.within, ⟨new, ha, fun l hl => hids (hnew l hl)⟩, ⟨new', he, fun l hl => hids (hnew' l hl)⟩⟩

theorem growsTo_assign (ids : List String) (h : t.Refines (env.lookup name)) : GrowsTo ids env (env.assign name t) :=
  ⟨within_assign h, (GrowsTo.refl ids env).aliases, (GrowsTo.refl ids env).elements⟩

theorem growsTo_equate {target source : String} (h : blockId ∈ ids) :
    GrowsTo ids env (env.equate target source blockId) := by
  refine ⟨fun name => ?_, ?_, ?_⟩
  · rw [lookup_equate]
    exact .refl _
  · unfold equate
    split
    · exact (GrowsTo.refl ids env).aliases
    · exact ⟨[⟨target, source, blockId⟩], rfl, fun _ hl => List.mem_singleton.mp hl ▸ h⟩
  · rw [elements_equate]
    exact (GrowsTo.refl ids env).elements

theorem growsTo_elementOf {item list : String} (h : blockId ∈ ids) :
    GrowsTo ids env (env.elementOf item list blockId) :=
  ⟨.refl env, (GrowsTo.refl ids env).aliases,
    ⟨[⟨item, list, blockId⟩], rfl, fun _ hl => List.mem_singleton.mp hl ▸ h⟩⟩

theorem GrowsTo.blockId_mem_alias (h : GrowsTo ids {} env) {link : Alias} (hl : link ∈ env.aliases) :
    link.blockId ∈ ids := by
  obtain ⟨new, e, hnew⟩ := h.aliases
  rw [e] at hl
  exact hnew link hl

theorem GrowsTo.blockId_mem_element (h : GrowsTo ids {} env) {link : ElementLink} (hl : link ∈ env.elements) :
    link.blockId ∈ ids := by
  obtain ⟨new, e, hnew⟩ := h.elements
  rw [e] at hl
  exact hnew link hl

end Blockwork.TypeEnv
