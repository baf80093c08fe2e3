import Mathlib.Tactic

/-! # Code that runs on a state and may raise

`EStateM` code keeps what it wrote before an exception. Its effect is the state
it ends in, whichever way it ends, and the effect of a sequence is composed from
those of its parts.
-/

namespace Exec

universe u

variable {ε σ α β : Type u}

/-- The state in which a computation ended. -/
def final : EStateM.Result ε σ α → σ
  | .ok _ s => s
  | .error _ s => s

@[simp] theorem final_ok (a : α) (s : σ) : final (.ok a s : EStateM.Result ε σ α) = s := rfl

@[simp] theorem final_error (e : ε) (s : σ) : final (.error e s : EStateM.Result ε σ α) = s := rfl

@[simp] theorem pure_apply (a : α) (s : σ) : (pure a : EStateM ε σ α) s = .ok a s := rfl

@[simp] theorem throw_apply (e : ε) (s : σ) : (throw e : EStateM ε σ α) s = .error e s := rfl

@[simp] theorem get_apply (s : σ) : (get : EStateM ε σ σ) s = .ok s s := rfl

@[simp] theorem set_apply (s t : σ) : (set t : EStateM ε σ PUnit) s = .ok ⟨⟩ t := rfl

@[simp] theorem modify_apply (f : σ → σ) (s : σ) :
    (modify f : EStateM ε σ PUnit) s = .ok ⟨⟩ (f s) := rfl

theorem bind_apply (x : EStateM ε σ α) (f : α → EStateM ε σ β) (s : σ) :
    (x >>= f) s = match x s with
      | .ok a t => f a t
      | .error e t => .error e t := rfl

theorem bind_eq_ok {x : EStateM ε σ α} {f : α → EStateM ε σ β} {s u : σ} {b : β} :
    (x >>= f) s = .ok b u ↔ ∃ a t, x s = .ok a t ∧ f a t = .ok b u := by
  rw [bind_apply]
  cases x s <;> simp

theorem bind_eq_error {x : EStateM ε σ α} {f : α → EStateM ε σ β} {s u : σ} {e : ε} :
    (x >>= f) s = .error e u ↔
      x s = .error e u ∨ ∃ a t, x s = .ok a t ∧ f a t = .error e u := by
  rw [bind_apply]
  cases x s <;> simp

theorem rel_final_bind (R : σ → σ → Prop) (htrans : ∀ {a b c}, R a b → R b c → R a c)
    {x : EStateM ε σ α} {f : α → EStateM ε σ β} {s : σ} (hx : R s (final (x s)))
    (hf : ∀ a t, x s = .ok a t → R t (final (f a t))) : R s (final ((x >>= f) s)) := by
  rw [bind_apply]
  cases h : x s with
  | ok a t =>
    rw [h] at hx
    exact htrans hx (hf a t h)
  | error e t =>
    rw [h] at hx
    exact hx

/-- Two computations end alike: with related values or with one exception, in related states. -/
def Paired (V : α → α → Prop) (R : σ → σ → Prop) :
    EStateM.Result ε σ α → EStateM.Result ε σ α → Prop
  | .ok a s, .ok b t => V a b ∧ R s t
  | .error e s, .error f t => e = f ∧ R s t
  | _, _ => False

namespace Paired

variable {V : α → α → Prop} {W : β → β → Prop} {R R' : σ → σ → Prop}

theorem bind {x y : EStateM ε σ α} {f g : α → EStateM ε σ β} {s t : σ} (hR : ∀ s t, R s t → R' s t)
    (h : Paired V R (x s) (y t))
    (hf : ∀ a b s' t', V a b → R s' t' → Paired W R' (f a s') (g b t')) :
    Paired W R' ((x >>= f) s) ((y >>= g) t) := by
  rw [bind_apply, bind_apply]
  cases hx : x s <;> cases hy : y t <;> rw [hx, hy] at h
  · exact hf _ _ _ _ h.1 h.2
  · exact h.elim
  · exact h.elim
  · exact ⟨h.1, hR _ _ h.2⟩

theorem cases {x y : EStateM.Result ε σ α} (h : Paired V R x y) :
    (∃ a b s t, x = .ok a s ∧ y = .ok b t ∧ V a b ∧ R s t) ∨
      ∃ e s t, x = .error e s ∧ y = .error e t ∧ R s t := by
  cases x <;> cases y
  · exact .inl ⟨_, _, _, _, rfl, rfl, h.1, h.2⟩
  · exact h.elim
  · exact h.elim
  · obtain ⟨rfl, h⟩ := h
    exact .inr ⟨_, _, _, rfl, rfl, h⟩

end Paired

end Exec
