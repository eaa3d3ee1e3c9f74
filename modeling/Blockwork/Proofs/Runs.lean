import Blockwork.Proofs.Outcomes

/-! # Runs with a state

* `Yields` says that a run succeeds with a result and with the state after it, and `Fails` that it ends with an
  error.
* `yields_bind_iff`, `fails_bind_iff` and the like say how runs that were put together end.
-/

namespace Blockwork

set_option autoImplicit false

variable {σ ε α β : Type} {p p' : σ}

def Yields (x : StateT σ (Except ε) α) (p : σ) (a : α) (p' : σ) : Prop :=
  x.run p = .ok (a, p')

variable {a : α} {e : ε} {x : StateT σ (Except ε) α}

theorem yields_pure_iff {b : α} : Yields (pure a : StateT σ (Except ε) α) p b p' ↔ b = a ∧ p' = p := by
  rw [Yields, StateT.run_pure, Except.pure_ok_iff, Prod.mk.injEq, eq_comm, @eq_comm _ p]

theorem yields_throw_iff : Yields (throw e : StateT σ (Except ε) α) p a p' ↔ False := by
  refine iff_false_intro fun h => ?_
  cases h

theorem yields_bind_iff {f : α → StateT σ (Except ε) β} {b : β} :
    Yields (x >>= f) p b p' ↔ ∃ a p₁, Yields x p a p₁ ∧ Yields (f a) p₁ b p' := by
  simp only [Yields, StateT.run_bind, Except.bind_ok_iff, Prod.exists]

theorem yields_lift_iff {x : Except ε α} : Yields (liftM x : StateT σ (Except ε) α) p a p' ↔ x = .ok a ∧ p' = p := by
  change x >>= (fun b => pure (b, p)) = .ok (a, p') ↔ _
  rw [Except.bind_ok_iff]
  simp only [Except.pure_ok_iff, Prod.mk.injEq]
  grind

theorem yields_map_iff {f : α → β} {b : β} : Yields (f <$> x) p b p' ↔ ∃ a, Yields x p a p' ∧ b = f a := by
  rw [← bind_pure_comp, yields_bind_iff]
  simp only [yields_pure_iff]
  grind

theorem yields_get_bind_iff {f : σ → StateT σ (Except ε) α} : Yields (get >>= f) p a p' ↔ Yields (f p) p a p' :=
  Iff.rfl

theorem yields_set_iff {q : σ} {u : PUnit} : Yields (set q : StateT σ (Except ε) PUnit) p u p' ↔ p' = q := by
  change pure (⟨⟩, q) = Except.ok (u, p') ↔ _
  rw [Except.pure_ok_iff, Prod.mk.injEq, @eq_comm _ q]
  exact and_iff_right rfl

theorem yields_guard_iff {c : Prop} [Decidable c] {f : Unit → StateT σ (Except ε) α} :
    Yields (if c then throw e >>= f else f ()) p a p' ↔ ¬c ∧ Yields (f ()) p a p' := by
  by_cases h : c
  · simp [h, yields_bind_iff, yields_throw_iff]
  · simp [h]

/-! ## Failures -/

def Fails (x : StateT σ (Except ε) α) (p : σ) (e : ε) : Prop :=
  x.run p = .error e

theorem fails_pure_iff : Fails (pure a : StateT σ (Except ε) α) p e ↔ False := by
  refine iff_false_intro fun h => ?_
  cases h

theorem fails_throw_iff {e' : ε} : Fails (throw e : StateT σ (Except ε) α) p e' ↔ e' = e := by
  change Except.error e = Except.error e' ↔ _
  rw [Except.error.injEq, eq_comm]

theorem fails_bind_iff {f : α → StateT σ (Except ε) β} :
    Fails (x >>= f) p e ↔ Fails x p e ∨ ∃ a p₁, Yields x p a p₁ ∧ Fails (f a) p₁ e := by
  simp only [Fails, Yields, StateT.run_bind, Except.bind_error_iff, Prod.exists]

theorem fails_get_bind_iff {f : σ → StateT σ (Except ε) α} : Fails (get >>= f) p e ↔ Fails (f p) p e :=
  Iff.rfl

theorem fails_set_iff {q : σ} : Fails (set q : StateT σ (Except ε) PUnit) p e ↔ False := by
  refine iff_false_intro fun h => ?_
  cases h

theorem fails_lift_iff {x : Except ε α} : Fails (liftM x : StateT σ (Except ε) α) p e ↔ x = .error e := by
  change x >>= (fun b => pure (b, p)) = .error e ↔ _
  rw [Except.bind_error_iff]
  refine ⟨?_, .inl⟩
  rintro (h | ⟨a, -, h⟩)
  · exact h
  · cases h

theorem fails_guard_iff {c : Prop} [Decidable c] {e' : ε} {f : Unit → StateT σ (Except ε) α} :
    Fails (if c then throw e >>= f else f ()) p e' ↔ c ∧ e' = e ∨ ¬c ∧ Fails (f ()) p e' := by
  by_cases h : c
  · simp [h, fails_bind_iff, fails_throw_iff, yields_throw_iff]
  · simp [h]

theorem yields_or_fails (x : StateT σ (Except ε) α) (p : σ) : (∃ a p', Yields x p a p') ∨ ∃ e, Fails x p e := by
  cases h : x.run p with
  | ok result => exact .inl ⟨result.1, result.2, h⟩
  | error e => exact .inr ⟨e, h⟩

theorem Yields.not_fails (h : Yields x p a p') : ¬Fails x p e := by
  intro hfails
  cases h.symm.trans hfails

end Blockwork
