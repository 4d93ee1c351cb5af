/-!
# Running a request

A request, a reader and a step of the pipeline are all functions from a state to an outcome with a
state. How a sequence runs is told by what its first part does: `bind_apply` unfolds one step,
`bind_eq_ok` takes a successful run apart.

On a given input one can also compute what a run comes to: `yieldsOne`, `returns` and `succeeds` are tests,
and from one that is passed the outcome is had (`exists_of_returns`).
-/

namespace SsaPrune.Run

variable {ε σ α β : Type} (x : EStateM ε σ α) (k : α → EStateM ε σ β) (s : σ)

theorem bind_apply : (x >>= k) s =
    match x s with
    | .ok a t => k a t
    | .error e t => .error e t := by
  simp only [bind, EStateM.bind]
  cases x s <;> rfl

theorem bind_get (k : σ → EStateM ε σ β) : (get >>= k) s = k s s := rfl

variable {x k s}

theorem bind_of_ok {a : α} {t : σ} (h : x s = .ok a t) : (x >>= k) s = k a t := by
  rw [bind_apply, h]

theorem bind_of_error {e : ε} {t : σ} (h : x s = .error e t) : (x >>= k) s = .error e t := by
  rw [bind_apply, h]

theorem bind_eq_ok {b : β} {u : σ} :
    (x >>= k) s = .ok b u ↔ ∃ a t, x s = .ok a t ∧ k a t = .ok b u := by
  rw [bind_apply]
  constructor
  · intro h
    cases hx : x s with
    | ok a t => exact ⟨a, t, rfl, by rwa [hx] at h⟩
    | error e t => rw [hx] at h; simp at h
  · rintro ⟨a, t, hx, hk⟩
    rw [hx]
    exact hk

theorem exists_eq_ok_and {r : Except ε α} {p : α → Bool} (h : r.toOption.any p = true) :
    ∃ a, r = .ok a ∧ p a = true := by
  cases r with
  | ok a => exact ⟨a, rfl, h⟩
  | error e => cases h

/-- The answer is a list of one element, which passes the test. -/
def yieldsOne (r : Except ε (List α)) (p : α → Bool) : Bool :=
  match r with
  | .ok [a] => p a
  | _ => false

theorem exists_of_yieldsOne {r : Except ε (List α)} {p : α → Bool} (h : yieldsOne r p = true) :
    ∃ a, r = .ok [a] ∧ p a = true := by
  unfold yieldsOne at h
  split at h
  · exact ⟨_, rfl, h⟩
  · cases h

/-- The run succeeds, with an answer and a state that pass the test. -/
def returns (r : EStateM.Result ε σ α) (p : α → σ → Bool) : Bool :=
  match r with
  | .ok a t => p a t
  | .error _ _ => false

theorem exists_of_returns {r : EStateM.Result ε σ α} {p : α → σ → Bool} (h : returns r p = true) :
    ∃ a t, r = .ok a t ∧ p a t = true := by
  cases r with
  | ok a t => exact ⟨a, t, rfl, h⟩
  | error e t => cases h

/-- The run succeeds, with a state that passes the test. -/
def succeeds (r : EStateM.Result ε σ α) (p : σ → Bool) : Bool := returns r fun _ => p

theorem exists_of_succeeds {r : EStateM.Result ε σ α} {p : σ → Bool} (h : succeeds r p = true) :
    ∃ a t, r = .ok a t ∧ p t = true :=
  exists_of_returns h

end SsaPrune.Run
