import Mathlib.Tactic.Common

/-!
# Running programs that fail and keep their state

Writers, fillings and programs on files all have a state that outlives a failure.  The lemmas here
take a run of such a program apart: a sequence succeeds exactly when its first part does and the
second part succeeds from the state that the first one left.
-/

set_option autoImplicit false

namespace RpmRelease.Run

variable {ε σ α β : Type}

/-- One program after the other: the second one runs in the state that the first one has left, unless
that has failed. -/
theorem run_bind (x : ExceptT ε (StateM σ) α) (f : α → ExceptT ε (StateM σ) β) (s : σ) :
    (x >>= f).run s =
      match x.run s with
      | (.ok a, t) => (f a).run t
      | (.error e, t) => (.error e, t) := by
  have hbind : (x >>= f).run s = ExceptT.bindCont f (x.run s).1 (x.run s).2 := rfl
  rw [hbind]
  rcases x.run s with ⟨_ | _, _⟩ <;> rfl

/-- Behind a program that succeeds the next one runs in the state that it has left. -/
theorem run_bind_of_ok {x : ExceptT ε (StateM σ) α} (f : α → ExceptT ε (StateM σ) β) {s t : σ} {a : α}
    (h : x.run s = (.ok a, t)) : (x >>= f).run s = (f a).run t := by
  rw [run_bind, h]

/-- When two programs succeed one after the other, each of them does. -/
theorem of_run_bind_ok {x : ExceptT ε (StateM σ) α} {f : α → ExceptT ε (StateM σ) β} {s u : σ} {b : β}
    (h : (x >>= f).run s = (.ok b, u)) : ∃ a t, x.run s = (.ok a, t) ∧ (f a).run t = (.ok b, u) := by
  rw [run_bind] at h
  rcases hx : x.run s with ⟨e | a, t⟩
  · rw [hx] at h
    exact absurd (congrArg Prod.fst h) (by simp)
  · rw [hx] at h
    exact ⟨a, t, rfl, h⟩

/-- Throwing does not succeed. -/
theorem run_throw_ne_ok {e : ε} {s t : σ} {a : α} :
    (throw e : ExceptT ε (StateM σ) α).run s ≠ (.ok a, t) := by
  intro h
  have houtcome : (Except.error e : Except ε α) = .ok a := congrArg Prod.fst h
  exact absurd houtcome (by simp)

/-- Two successes are the same when their values and their states are. -/
theorem ok_inj {a b : α} {s t : σ} (h : ((.ok a, s) : Except ε α × σ) = (.ok b, t)) :
    a = b ∧ s = t := by
  cases h
  exact ⟨rfl, rfl⟩

/-- When a checked program succeeds, the check does not fail and the program succeeds. -/
theorem of_run_check_ok {γ : Type} {c : Prop} [Decidable c] {e : ε}
    {f : γ → ExceptT ε (StateM σ) α} {x : ExceptT ε (StateM σ) α} {s t : σ} {a : α}
    (h : (if c then throw e >>= f else x).run s = (.ok a, t)) : ¬ c ∧ x.run s = (.ok a, t) := by
  by_cases hc : c
  · rw [if_pos hc] at h
    obtain ⟨_, _, hthrow, _⟩ := of_run_bind_ok h
    exact absurd hthrow run_throw_ne_ok
  · rw [if_neg hc] at h
    exact ⟨hc, h⟩

/-! ## Results without a state -/

/-- An error is no success. -/
theorem throw_ne_ok {e : ε} {a : α} : (throw e : Except ε α) ≠ .ok a := by
  simp [throw, throwThe, MonadExceptOf.throw]

/-- When one step after the other succeeds, each of them does. -/
theorem of_bind_ok {x : Except ε α} {f : α → Except ε β} {b : β} (h : x >>= f = .ok b) :
    ∃ a, x = .ok a ∧ f a = .ok b := by
  cases x with
  | error e => exact absurd (show (Except.error e : Except ε β) = .ok b from h) (by simp)
  | ok a => exact ⟨a, rfl, h⟩

/-- An error of the first of two questions, or of the second one. -/
theorem of_bind_error {x : Except ε α} {f : α → Except ε β} {e : ε} (h : x >>= f = .error e) :
    x = .error e ∨ ∃ a, x = .ok a ∧ f a = .error e := by
  cases x with
  | error cause => exact .inl (congrArg Except.error (Except.error.inj h))
  | ok a => exact .inr ⟨a, rfl, h⟩

/-- A function on the value of a success is applied to it. -/
theorem of_map_ok {f : α → β} {x : Except ε α} {b : β} (h : f <$> x = .ok b) :
    ∃ a, x = .ok a ∧ f a = b := by
  cases x with
  | error e => exact absurd (show (Except.error e : Except ε β) = .ok b from h) (by simp)
  | ok a => exact ⟨a, rfl, Except.ok.inj h⟩

/-- A success is one before errors are turned into others. -/
theorem of_mapError_ok {δ : Type} {f : ε → δ} {x : Except ε α} {a : α}
    (h : x.mapError f = .ok a) : x = .ok a := by
  cases x with
  | error e => simp [Except.mapError] at h
  | ok b => simpa [Except.mapError] using h

/-- An error that was made of another one comes from that. -/
theorem of_mapError_error {δ : Type} {f : ε → δ} {x : Except ε α} {e : δ}
    (h : x.mapError f = .error e) : ∃ cause, f cause = e := by
  cases x with
  | error cause => exact ⟨cause, Except.error.inj h⟩
  | ok a => simp [Except.mapError] at h

/-- When a checked value is a success, the check does not fail and the value is one. -/
theorem of_check_ok {γ : Type} {c : Prop} [Decidable c] {e : ε} {f : γ → Except ε α}
    {x : Except ε α} {a : α} (h : (if c then throw e >>= f else x) = .ok a) : ¬ c ∧ x = .ok a := by
  by_cases hc : c
  · rw [if_pos hc] at h
    exact absurd (show (Except.error e : Except ε α) = .ok a from h) (by simp)
  · rw [if_neg hc] at h
    exact ⟨hc, h⟩

end RpmRelease.Run
