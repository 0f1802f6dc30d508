import Mathlib.Logic.Basic

/-!
# Programs over a state that may stop

What holds of the outcome of a program in `EStateM`: a condition on the result and the state it
leaves, and one on the error and the state it was raised in.
-/

namespace Outcome

variable {σ ε α β : Type}

def Post (r : EStateM.Result ε σ α) (Q : α → σ → Prop) (E : ε → σ → Prop) : Prop :=
  match r with
  | .ok a s => Q a s
  | .error e s => E e s

variable {Q Q' : α → σ → Prop} {E E' : ε → σ → Prop} {s : σ}

theorem Post.mono {r : EStateM.Result ε σ α} (h : Post r Q E) (hQ : ∀ a s, Q a s → Q' a s)
    (hE : ∀ e s, E e s → E' e s) : Post r Q' E' := by
  cases r with
  | ok a s => exact hQ a s h
  | error e s => exact hE e s h

theorem Post.imp {r : EStateM.Result ε σ α} (h : Post r Q E) (hQ : ∀ a s, Q a s → Q' a s) :
    Post r Q' E := h.mono hQ fun _ _ he => he

@[simp]
theorem post_pure {a : α} : Post ((pure a : EStateM ε σ α) s) Q E ↔ Q a s := Iff.rfl

@[simp]
theorem post_bind {x : EStateM ε σ β} {f : β → EStateM ε σ α} :
    Post ((x >>= f) s) Q E ↔ Post (x s) (fun b s => Post (f b s) Q E) E := by
  show Post (EStateM.bind x f s) Q E ↔ _
  unfold EStateM.bind
  cases x s <;> rfl

@[simp]
theorem post_get {Q : σ → σ → Prop} : Post ((get : EStateM ε σ σ) s) Q E ↔ Q s s := Iff.rfl

@[simp]
theorem post_modify {f : σ → σ} {Q : PUnit → σ → Prop} :
    Post ((modify f : EStateM ε σ PUnit) s) Q E ↔ Q ⟨⟩ (f s) := Iff.rfl

theorem post_ite {p : Prop} [Decidable p] {x y : EStateM ε σ α} :
    Post ((if p then x else y) s) Q E ↔ (p → Post (x s) Q E) ∧ (¬p → Post (y s) Q E) := by
  split <;> simp [*]

/-- A program that does not stop is followed by the next one. -/
theorem bind_of_ok {x : EStateM ε σ β} {f : β → EStateM ε σ α} {b : β} {s s' : σ}
    (hx : x s = .ok b s') : (x >>= f) s = f b s' := by
  show EStateM.bind x f s = _
  rw [EStateM.bind, hx]

end Outcome
