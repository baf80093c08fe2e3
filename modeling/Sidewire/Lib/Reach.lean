import Sidewire.Lib.Machine

/-! # Reaching a state under a condition

One state leads to another when some run between them meets the condition at
every step. What is possible is shown step by step and composed.
-/

namespace Machine

variable {σ α : Type*} {step : σ → α → Option σ} {P Q : σ → α → Prop} {s t u : σ} {a : α}

theorem Meets.append : ∀ {s : σ} {as bs : List α}, Meets step P s as →
    (∀ t, run step s as = some t → Meets step P t bs) → Meets step P s (as ++ bs)
  | s, [], _, _, h => h s rfl
  | s, a :: as, bs, hm, h => by
    refine ⟨hm.1, fun t ht => (hm.2 t ht).append fun u hu => h u ?_⟩
    exact run_cons_eq_some.mpr ⟨t, ht, hu⟩

/-- Some run that meets the condition leads from one state to the other. -/
def Reaches (step : σ → α → Option σ) (P : σ → α → Prop) (s t : σ) : Prop :=
  ∃ as, Meets step P s as ∧ run step s as = some t

namespace Reaches

@[refl] theorem refl (s : σ) : Reaches step P s s := ⟨[], trivial, rfl⟩

theorem single (hP : P s a) (h : step s a = some t) : Reaches step P s t := by
  refine ⟨[a], ⟨hP, fun u _ => trivial⟩, ?_⟩
  exact run_cons_eq_some.mpr ⟨t, h, rfl⟩

theorem trans (h : Reaches step P s t) (h' : Reaches step P t u) : Reaches step P s u := by
  obtain ⟨as, hm, hr⟩ := h
  obtain ⟨bs, hm', hr'⟩ := h'
  refine ⟨as ++ bs, hm.append fun v hv => ?_, run_append.mpr ⟨t, hr, hr'⟩⟩
  rw [hr] at hv
  cases hv
  exact hm'

theorem invariant {I : σ → Prop} (hstep : ∀ s a t, I s → P s a → step s a = some t → I t)
    (hI : I s) (h : Reaches step P s t) : I t := by
  obtain ⟨as, hm, hr⟩ := h
  exact run_invariant hstep hI hm hr

theorem of_run {I : σ → Prop} {as : List α}
    (hstep : ∀ s a t, I s → Q s a → step s a = some t → I t) (hP : ∀ s a, I s → Q s a → P s a)
    (hI : I s) (hQ : Meets step Q s as) (h : run step s as = some t) : Reaches step P s t :=
  ⟨as, hQ.of_invariant hstep hP hI, h⟩

end Reaches

end Machine
