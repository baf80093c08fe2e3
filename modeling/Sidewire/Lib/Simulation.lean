import Mathlib.Data.List.ReduceOption
import Sidewire.Lib.Machine

/-! # Forward simulation with stuttering

A machine refines an abstract one when every step it takes, under a condition,
is matched by one abstract step or by none. What is proved for one step gives
each run an abstract run that keeps pace with it.
-/

namespace Machine

variable {σ τ α β : Type*} {step : σ → α → Option σ} {astep : τ → β → Option τ}
  {P : σ → α → Prop} {Q : τ → β → Prop} {R : σ → τ → Prop}

def stutter (astep : τ → β → Option τ) (u : τ) : Option β → Option τ
  | none => some u
  | some b => astep u b

/-- Every step under the condition is matched by at most one abstract step, under a condition of its
own. -/
def Refines (step : σ → α → Option σ) (P : σ → α → Prop) (astep : τ → β → Option τ)
    (Q : τ → β → Prop) (R : σ → τ → Prop) : Prop :=
  ∀ s a t u, R s u → P s a → step s a = some t →
    ∃ b v, (∀ x ∈ b, Q u x) ∧ stutter astep u b = some v ∧ R t v

theorem run_reduceOption_cons {u v w : τ} {b : Option β} {bs : List (Option β)}
    (h : stutter astep u b = some v) (hw : run astep v bs.reduceOption = some w) :
    run astep u (b :: bs).reduceOption = some w := by
  cases b with
  | none =>
    cases h
    rwa [List.reduceOption_cons_of_none]
  | some b =>
    rw [List.reduceOption_cons_of_some]
    exact run_cons_eq_some.mpr ⟨v, h, hw⟩

theorem meets_reduceOption_cons {u v : τ} {b : Option β} {bs : List (Option β)}
    (hb : ∀ x ∈ b, Q u x) (h : stutter astep u b = some v)
    (hbs : Meets astep Q v bs.reduceOption) : Meets astep Q u (b :: bs).reduceOption := by
  cases b with
  | none =>
    cases h
    rwa [List.reduceOption_cons_of_none]
  | some b =>
    rw [List.reduceOption_cons_of_some]
    refine ⟨hb b rfl, fun w hw => ?_⟩
    obtain rfl : v = w := Option.some.inj (h.symm.trans hw)
    exact hbs

/-- Beside every run runs the abstract machine: after each prefix of the one, the related prefix of
the other leads to a related state. -/
theorem Refines.run (h : Refines step P astep Q R) : ∀ {s : σ} {u : τ} {as : List α}, R s u →
    Meets step P s as → ∃ bs : List (Option β), bs.length = as.length ∧
      ∀ k t, Machine.run step s (as.take k) = some t →
        ∃ v, Machine.run astep u (bs.take k).reduceOption = some v ∧
          Meets astep Q u (bs.take k).reduceOption ∧ R t v
  | s, u, [], hR, _ => by
    refine ⟨[], rfl, fun k t ht => ?_⟩
    rw [List.take_nil] at ht ⊢
    cases ht
    exact ⟨u, rfl, trivial, hR⟩
  | s, u, a :: as, hR, hm => by
    cases ha : step s a with
    | none =>
      -- the run ends here, whatever stands beside the rest
      refine ⟨List.replicate (as.length + 1) none, by simp, fun k t ht => ?_⟩
      cases k with
      | zero =>
        cases ht
        exact ⟨u, rfl, trivial, hR⟩
      | succ k =>
        obtain ⟨w, hw, -⟩ := run_cons_eq_some.mp ht
        rw [ha] at hw
        cases hw
    | some s' =>
      obtain ⟨b, v, hQ, hb, hv⟩ := h s a s' u hR hm.1 ha
      obtain ⟨bs, hlen, hbs⟩ := Refines.run h hv (hm.2 s' ha)
      refine ⟨b :: bs, by rw [List.length_cons, hlen, List.length_cons], fun k t ht => ?_⟩
      cases k with
      | zero =>
        cases ht
        exact ⟨u, rfl, trivial, hR⟩
      | succ k =>
        obtain ⟨w, hw, ht⟩ := run_cons_eq_some.mp ht
        rw [ha] at hw
        cases hw
        obtain ⟨v', hv', hm', hR'⟩ := hbs k t ht
        exact ⟨v', run_reduceOption_cons hb hv', meets_reduceOption_cons hQ hb hm', hR'⟩

end Machine
