-- Pre- and postconditions for code that changes a state in place and may fail:
-- one condition for the state in which it returns, one for the state in which
-- it throws.
import Mathlib

namespace outcome

variable {ε σ α β : Type} {x : EStateM ε σ α} {s : σ} {Q : α → σ → Prop} {E : ε → σ → Prop}

/-- Started in `s`, `x` returns as `Q` says or throws as `E` says. -/
def Ends (x : EStateM ε σ α) (s : σ) (Q : α → σ → Prop) (E : ε → σ → Prop) : Prop :=
  match x.run s with
  | .ok a s' => Q a s'
  | .error e s' => E e s'

theorem Ends.ok {a : α} {s' : σ} (h : Ends x s Q E) (hr : x.run s = .ok a s') : Q a s' := by
  unfold Ends at h
  rwa [hr] at h

theorem Ends.error {e : ε} {s' : σ} (h : Ends x s Q E) (hr : x.run s = .error e s') : E e s' := by
  unfold Ends at h
  rwa [hr] at h

theorem Ends.of_ok {a : α} {s' : σ} (hr : x.run s = .ok a s') (h : Q a s') : Ends x s Q E := by
  unfold Ends
  rwa [hr]

theorem Ends.of_error {e : ε} {s' : σ} (hr : x.run s = .error e s') (h : E e s') :
    Ends x s Q E := by
  unfold Ends
  rwa [hr]

theorem Ends.mono {R : α → σ → Prop} {F : ε → σ → Prop} (h : Ends x s Q E)
    (hq : ∀ a s', Q a s' → R a s') (he : ∀ e s', E e s' → F e s') : Ends x s R F := by
  unfold Ends at h ⊢
  cases hr : x.run s with
  | ok a s' =>
    rw [hr] at h
    exact hq a s' h
  | error e s' =>
    rw [hr] at h
    exact he e s' h

theorem Ends.of_pure {a : α} (h : Q a s) : Ends (pure a) s Q E := h

theorem Ends.of_throw {e : ε} (h : E e s) : Ends (throw e : EStateM ε σ α) s Q E := h

/-- The rule of sequences: the second part starts where the first has returned. -/
theorem Ends.bind {f : α → EStateM ε σ β} {R : β → σ → Prop} (hx : Ends x s Q E)
    (hf : ∀ a s', Q a s' → Ends (f a) s' R E) : Ends (x >>= f) s R E := by
  unfold Ends at hx ⊢
  rw [EStateM.run_bind]
  cases hr : x.run s with
  | ok a s' =>
    rw [hr] at hx
    exact hf a s' hx
  | error =>
    rw [hr] at hx
    exact hx

theorem Ends.of_get {f : σ → EStateM ε σ β} {R : β → σ → Prop} (h : Ends (f s) s R E) :
    Ends (get >>= f) s R E := h

end outcome
