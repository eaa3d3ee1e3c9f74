import Blockwork.Program.Reading
import Blockwork.Proofs.Environment
import Blockwork.Proofs.Outcomes

/-! # Triples for readings

A reading is described from an environment on. Whether it succeeds or fails, knowledge grows. If it
succeeds, its result and the environment after it are as stated. If it fails, the error names one of
the blocks that were read, and never a defect of a node.
-/

namespace Blockwork

set_option autoImplicit false

variable {env' : TypeEnv} {e : Error} {ids' : List String}

namespace Reading

variable {α β : Type}

/-! ## Running -/

@[simp] theorem runFrom_pure (a : α) (env : TypeEnv) : (pure a : Reading α).runFrom env = (.ok a, env) := rfl

@[simp] theorem runFrom_throw (e : Error) (env : TypeEnv) :
    (throw e : Reading α).runFrom env = (.error e, env) := rfl

@[simp] theorem runFrom_ofExcept (x : Except Error α) (env : TypeEnv) :
    (ofExcept x).runFrom env = (x, env) := rfl

@[simp] theorem runFrom_modify (f : TypeEnv → TypeEnv) (env : TypeEnv) :
    (modify f : Reading PUnit).runFrom env = (.ok ⟨⟩, f env) := rfl

theorem runFrom_bind (r : Reading α) (f : α → Reading β) (env : TypeEnv) :
    (r >>= f).runFrom env =
      match r.runFrom env with
      | (.ok a, env') => (f a).runFrom env'
      | (.error e, env') => (.error e, env') := by
  change (match r env with | (result, env') => ExceptT.bindCont f result env') = _
  unfold runFrom ExceptT.run StateT.run
  cases r env with
  | mk result env' => cases result <;> rfl

/-! ## Successful readings -/

def Yields (r : Reading α) (env : TypeEnv) (a : α) (env' : TypeEnv) : Prop :=
  r.runFrom env = (.ok a, env')

variable {a : α} {t : Ty}

theorem yields_pure_iff {b : α} {env : TypeEnv} : (pure a : Reading α).Yields env b env' ↔ b = a ∧ env' = env := by
  simp [Yields, eq_comm]

theorem yields_throw_iff {env : TypeEnv} : (throw e : Reading α).Yields env a env' ↔ False := by
  simp [Yields]

theorem yields_ofExcept_iff {x : Except Error α} {env : TypeEnv} :
    (ofExcept x).Yields env a env' ↔ x = .ok a ∧ env' = env := by
  simp [Yields, eq_comm]

theorem yields_modify_iff {f : TypeEnv → TypeEnv} {a : PUnit} {env : TypeEnv} :
    (modify f : Reading PUnit).Yields env a env' ↔ env' = f env := by
  simp [Yields, eq_comm]

theorem yields_bind_iff {r : Reading α} {f : α → Reading β} {b : β} {env : TypeEnv} :
    (r >>= f).Yields env b env' ↔ ∃ a env₁, r.Yields env a env₁ ∧ (f a).Yields env₁ b env' := by
  unfold Yields
  rw [runFrom_bind]
  constructor
  · intro h
    split at h
    · next a env₁ hr => exact ⟨a, env₁, hr, h⟩
    · cases h
  · rintro ⟨a, env₁, hr, hf⟩
    rw [hr]
    exact hf

theorem yields_node_iff {x : Except Defect α} {env : TypeEnv} :
    (node x).Yields env a env' ↔ x = .ok a ∧ env' = env := by
  unfold node
  rw [yields_ofExcept_iff, Except.mapError_ok_iff]

theorem yields_lookup_iff {name : String} {env : TypeEnv} :
    (lookup name).Yields env t env' ↔ t = env.lookup name ∧ env' = env := by
  change (pure (env.lookup name) : Reading Ty).Yields env t env' ↔ _
  exact yields_pure_iff

theorem yields_unify_iff {expected found : Ty} {blockId : String} {env : TypeEnv} :
    (unify expected found blockId).Yields env t env' ↔
      Ty.unify? expected found = some t ∧ env' = env := by
  unfold unify
  cases Ty.unify? expected found with
  | none => simp [yields_throw_iff]
  | some u => simp [yields_pure_iff, eq_comm]

theorem runFrom_bindType (name : String) (t : Ty) (blockId : String) (env : TypeEnv) :
    (bind name t blockId).runFrom env =
      match env.bind name t blockId with
      | .ok (u, env') => (.ok u, env')
      | .error e => (.error e, env) := by
  change (ofExcept (env.bind name t blockId) >>= fun bound => do
    set bound.2
    return bound.1).runFrom env = _
  rw [runFrom_bind, runFrom_ofExcept]
  cases env.bind name t blockId <;> rfl

theorem yields_bindType_iff {name blockId : String} {u : Ty} {env : TypeEnv} :
    (bind name t blockId).Yields env u env' ↔
      Ty.unify? (env.lookup name) t = some u ∧ env' = env.assign name u := by
  unfold Yields
  rw [runFrom_bindType]
  cases h : Ty.unify? (env.lookup name) t with
  | none => simp [TypeEnv.bind_of_unify?_none blockId h]
  | some v =>
    rw [TypeEnv.bind_of_unify? blockId h]
    constructor
    · rintro ⟨⟩
      exact ⟨rfl, rfl⟩
    · rintro ⟨⟨⟩, rfl⟩
      rfl

end Reading

/-! ## Errors that name a block -/

def Error.Blames (ids : List String) (e : Error) : Prop :=
  ∃ id ∈ ids, e.blockId? = some id

theorem Error.Blames.mono {ids : List String} (h : e.Blames ids) (hids : ids ⊆ ids') : e.Blames ids' := by
  obtain ⟨id, hid, he⟩ := h
  exact ⟨id, hids hid, he⟩

namespace Except

variable {α β : Type}

def Sound (ids : List String) (x : Except Error α) (Q : α → Prop) : Prop :=
  match x with
  | .ok a => Q a
  | .error e => e.Blames ids

variable {ids : List String} {Q : α → Prop} {x : Except Error α}

theorem sound_ok {a : α} (h : Q a) : Sound ids (.ok a : Except Error α) Q := h

theorem sound_error (h : e.Blames ids) : Sound ids (.error e : Except Error α) Q := h

theorem Sound.ok {a : α} (h : Sound ids x Q) (hx : x = .ok a) : Q a := by
  subst hx
  exact h

theorem Sound.error (h : Sound ids x Q) (hx : x = .error e) : e.Blames ids := by
  subst hx
  exact h

theorem Sound.imp {R : α → Prop} (h : Sound ids x Q) (hR : ∀ a, Q a → R a) : Sound ids x R := by
  cases x with
  | error e => exact h
  | ok a => exact hR a h

theorem Sound.eq_ok (h : Sound ids x Q) : Sound ids x fun a => x = .ok a := by
  cases x with
  | error e => exact h
  | ok a => exact rfl

theorem Sound.mono (h : Sound ids x Q) (hids : ids ⊆ ids') : Sound ids' x Q := by
  cases x with
  | error e => exact Error.Blames.mono h hids
  | ok a => exact h

theorem Sound.bind {f : α → Except Error β}
    {R : β → Prop} (h : Sound ids x Q) (hf : ∀ a, x = .ok a → Q a → Sound ids (f a) R) : Sound ids (x >>= f) R := by
  cases x with
  | error e => exact h
  | ok a => exact hf a rfl h

end Except

/-! ## Triples -/

namespace Reading

variable {α β : Type}

def Sound (ids : List String) (r : Reading α) (env : TypeEnv) (Q : α → TypeEnv → Prop) : Prop :=
  ∀ result env', r.runFrom env = (result, env') →
    env.GrowsTo ids env' ∧ Except.Sound ids result fun a => Q a env'

variable {ids : List String} {env : TypeEnv}

variable {r : Reading α} {blockId : String}

theorem Sound.of_run {result : Except Error α} {Q : α → TypeEnv → Prop} (hr : r.runFrom env = (result, env'))
    (hgrow : env.GrowsTo ids env') (h : Except.Sound ids result fun a => Q a env') : Sound ids r env Q := by
  intro result' env'' hr'
  rw [hr] at hr'
  cases hr'
  exact ⟨hgrow, h⟩

theorem sound_pure {a : α} {Q : α → TypeEnv → Prop} (h : Q a env) : Sound ids (pure a : Reading α) env Q :=
  .of_run (runFrom_pure a env) (.refl ids env) h

theorem sound_throw {Q : α → TypeEnv → Prop} (h : e.Blames ids) : Sound ids (throw e : Reading α) env Q :=
  .of_run (runFrom_throw e env) (.refl ids env) h

theorem sound_ofExcept {x : Except Error α} {Q : α → Prop} (h : Except.Sound ids x Q) :
    Sound ids (ofExcept x) env fun a _ => Q a :=
  .of_run (runFrom_ofExcept x env) (.refl ids env) h

theorem node_of_ok {x : Except Defect α} {a : α} (h : x = .ok a) : node x = pure a := by
  subst h
  rfl

theorem Sound.imp {Q R : α → TypeEnv → Prop} (h : Sound ids r env Q)
    (hR : ∀ a env', env.GrowsTo ids env' → Q a env' → R a env') : Sound ids r env R := by
  intro result env' hr
  obtain ⟨hgrow, hresult⟩ := h result env' hr
  exact ⟨hgrow, hresult.imp fun a => hR a env' hgrow⟩

theorem Sound.mono {Q : α → TypeEnv → Prop} (h : Sound ids r env Q) (hids : ids ⊆ ids') : Sound ids' r env Q := by
  intro result env' hr
  obtain ⟨hgrow, hresult⟩ := h result env' hr
  exact ⟨hgrow.mono hids, hresult.mono hids⟩

theorem Sound.bind {f : α → Reading β} {Q : α → TypeEnv → Prop} {R : β → TypeEnv → Prop} (h : Sound ids r env Q)
    (hf : ∀ a env', env.GrowsTo ids env' → Q a env' → Sound ids (f a) env' R) : Sound ids (r >>= f) env R := by
  intro result env' hrun
  rw [runFrom_bind] at hrun
  cases hr : r.runFrom env with
  | mk first env₁ =>
    obtain ⟨hgrow, hfirst⟩ := h first env₁ hr
    rw [hr] at hrun
    cases first with
    | error e =>
      cases hrun
      exact ⟨hgrow, hfirst⟩
    | ok a =>
      obtain ⟨hgrow', hresult⟩ := hf a env₁ hgrow hfirst result env' hrun
      exact ⟨hgrow.trans hgrow', hresult⟩

theorem sound_lookup (name : String) : Sound ids (lookup name) env fun t env' => t = env'.lookup name := by
  have hrun : (lookup name).runFrom env = (.ok (env.lookup name), env) := rfl
  exact .of_run hrun (.refl ids env) rfl

theorem sound_unify (expected found : Ty) (hid : blockId ∈ ids) :
    Sound ids (unify expected found blockId) env fun t _ => Ty.unify? expected found = some t := by
  unfold unify
  split
  · next t ht => exact sound_pure ht
  · exact sound_throw ⟨blockId, hid, rfl⟩

theorem sound_bindType (name : String) (t : Ty) (hid : blockId ∈ ids) :
    Sound ids (Reading.bind name t blockId) env fun u env' => u.Refines t ∧ env'.lookup name = u := by
  have hrun := runFrom_bindType name t blockId env
  cases h : Ty.unify? (env.lookup name) t with
  | none =>
    rw [TypeEnv.bind_of_unify?_none blockId h] at hrun
    exact .of_run hrun (.refl ids env) ⟨blockId, hid, rfl⟩
  | some u =>
    rw [TypeEnv.bind_of_unify? blockId h] at hrun
    refine .of_run hrun (TypeEnv.growsTo_assign ids (Ty.unify?_refines_left h)) ⟨Ty.unify?_refines_right h, ?_⟩
    rw [TypeEnv.lookup_assign, if_pos rfl]

theorem sound_equate (target source : String) (hid : blockId ∈ ids) :
    Sound ids (modify fun env => env.equate target source blockId : Reading PUnit) env fun _ _ => True :=
  .of_run (runFrom_modify _ env) (TypeEnv.growsTo_equate hid) trivial

theorem sound_elementOf (item list : String) (hid : blockId ∈ ids) :
    Sound ids (modify fun env => env.elementOf item list blockId : Reading PUnit) env fun _ _ => True :=
  .of_run (runFrom_modify _ env) (TypeEnv.growsTo_elementOf hid) trivial

def Persists (Q : α → TypeEnv → Prop) : Prop :=
  ∀ a env env', env.Within env'.lookup → Q a env → Q a env'

theorem sound_mapM {f : α → Reading β} {Q : α → β → TypeEnv → Prop} {xs : List α}
    (hQ : ∀ x, Persists (Q x)) (h : ∀ x ∈ xs, ∀ env, Sound ids (f x) env (Q x)) :
    Sound ids (xs.mapM f) env fun ys env' => List.Forall₂ (fun y x => Q x y env') ys xs := by
  induction xs generalizing env with
  | nil =>
    rw [List.mapM_nil]
    exact sound_pure .nil
  | cons x xs ih =>
    rw [List.mapM_cons]
    refine (h x List.mem_cons_self env).bind fun y env₁ _ hy => ?_
    refine (ih fun x' hx' => h x' (List.mem_cons_of_mem x hx')).bind fun ys env₂ hgrow hys => ?_
    exact sound_pure (.cons (hQ x y env₁ env₂ hgrow.within hy) hys)

end Reading

end Blockwork
