/-!
# Outcomes

What becomes of a computation that changes a state and may fail, when another one goes on with its
result. Reading a program and building its scopes are both put together in this way.
-/

namespace TekLang

variable {ε σ α β : Type}

theorem bind_apply (p : EStateM ε σ α) (f : α → EStateM ε σ β) (s : σ) :
    (p >>= f) s =
      match p s with
      | .ok a s' => f a s'
      | .error e s' => .error e s' := EStateM.run_bind p f

/-- Going on with a computation that succeeds. -/
theorem bind_of_ok {p : EStateM ε σ α} {s s' : σ} {a : α} (h : p s = .ok a s')
    (f : α → EStateM ε σ β) : (p >>= f) s = f a s' := by
  rw [bind_apply, h]

theorem bind_eq_ok {p : EStateM ε σ α} {f : α → EStateM ε σ β} {s s'' : σ} {b : β} :
    (p >>= f) s = .ok b s'' ↔ ∃ a s', p s = .ok a s' ∧ f a s' = .ok b s'' := by
  rw [bind_apply]
  constructor
  · intro run
    cases first : p s with
    | ok a s' =>
      rw [first] at run
      exact ⟨a, s', rfl, run⟩
    | error e s' =>
      rw [first] at run
      cases run
  · rintro ⟨a, s', first, run⟩
    rw [first]
    exact run

/-- What a computation does elsewhere than where it is used does not matter. -/
theorem bind_congr_run {p q : EStateM ε σ α} {f : α → EStateM ε σ β} {s : σ} (same : p s = q s) :
    (p >>= f) s = (q >>= f) s := by
  rw [bind_apply, bind_apply, same]

/-- How a computation goes on matters only where it succeeds. -/
theorem bind_congr_ok {p : EStateM ε σ α} {f g : α → EStateM ε σ β} {s : σ}
    (same : ∀ a s', p s = .ok a s' → f a s' = g a s') : (p >>= f) s = (p >>= g) s := by
  rw [bind_apply, bind_apply]
  cases run : p s with
  | ok a s' => exact same a s' run
  | error e s' => rfl

end TekLang
