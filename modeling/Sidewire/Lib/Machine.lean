import Mathlib.Tactic

/-! # Executable transition systems

A machine is a partial step function. A run plays a list of actions, and fails
when one of them is not enabled. Invariants are proved once per step, under a
condition on the step where one is needed, and hold along every run.
-/

namespace Machine

variable {σ α : Type*} (step : σ → α → Option σ)

def run : σ → List α → Option σ
  | s, [] => some s
  | s, a :: as => (step s a).bind fun t => run t as

/-- Every step taken along the run meets the condition in the state it is taken from. -/
def Meets (P : σ → α → Prop) : σ → List α → Prop
  | _, [] => True
  | s, a :: as => P s a ∧ ∀ t, step s a = some t → Meets P t as

variable {step}

def decideMeets {P : σ → α → Prop} [∀ s a, Decidable (P s a)] :
    ∀ s as, Decidable (Meets step P s as)
  | _, [] => isTrue trivial
  | s, a :: as =>
    match h : step s a with
    | none => decidable_of_iff (P s a)
        ⟨fun hp => ⟨hp, fun t ht => by rw [h] at ht; cases ht⟩, And.left⟩
    | some t =>
      have : Decidable (Meets step P t as) := decideMeets t as
      decidable_of_iff (P s a ∧ Meets step P t as)
        ⟨fun hp => ⟨hp.1, fun u hu => by rw [h] at hu; cases hu; exact hp.2⟩,
          fun hp => ⟨hp.1, hp.2 t h⟩⟩

instance {P : σ → α → Prop} [∀ s a, Decidable (P s a)] (s : σ) (as : List α) :
    Decidable (Meets step P s as) := decideMeets s as

@[simp] theorem run_nil (s : σ) : run step s [] = some s := rfl

theorem run_cons_eq_some {s t : σ} {a : α} {as : List α} :
    run step s (a :: as) = some t ↔ ∃ u, step s a = some u ∧ run step u as = some t := by
  simp [run, Option.bind_eq_some_iff]

theorem run_append {s t : σ} {as bs : List α} :
    run step s (as ++ bs) = some t ↔ ∃ u, run step s as = some u ∧ run step u bs = some t := by
  induction as generalizing s with
  | nil => simp
  | cons a as ih =>
    simp only [List.cons_append, run_cons_eq_some, ih]
    constructor
    · rintro ⟨u, hu, v, hv, ht⟩; exact ⟨v, ⟨u, hu, hv⟩, ht⟩
    · rintro ⟨v, ⟨u, hu, hv⟩, ht⟩; exact ⟨u, hu, v, hv, ht⟩

theorem exists_run_of_any (step : σ → α → Option σ) (s : σ) (as : List α) (p : σ → Bool)
    (h : (run step s as).any p = true) : ∃ t, run step s as = some t ∧ p t = true :=
  (Option.any_eq_true p _).mp h

variable (step) in
/-- Play a list of actions as long as each meets the condition. -/
def runMeeting (P : σ → α → Prop) [∀ s a, Decidable (P s a)] : σ → List α → Option σ
  | s, [] => some s
  | s, a :: as => if P s a then (step s a).bind fun t => runMeeting P t as else none

theorem runMeeting_eq_some {P : σ → α → Prop} [∀ s a, Decidable (P s a)] :
    ∀ {s t : σ} {as : List α}, runMeeting step P s as = some t →
      run step s as = some t ∧ Meets step P s as
  | s, t, [], h => ⟨h, trivial⟩
  | s, t, a :: as, h => by
    rw [runMeeting] at h
    split_ifs at h with ha
    obtain ⟨u, hu, h⟩ := Option.bind_eq_some_iff.mp h
    obtain ⟨hr, hm⟩ := runMeeting_eq_some h
    exact ⟨run_cons_eq_some.mpr ⟨u, hu, hr⟩, ha, fun v hv => by rw [hu] at hv; cases hv; exact hm⟩

theorem exists_runMeeting_of_any (step : σ → α → Option σ) (P : σ → α → Prop)
    [∀ s a, Decidable (P s a)] (s : σ) (as : List α) (p : σ → Bool)
    (h : (runMeeting step P s as).any p = true) :
    ∃ t, run step s as = some t ∧ Meets step P s as ∧ p t = true := by
  obtain ⟨t, ht, hp⟩ := (Option.any_eq_true p _).mp h
  obtain ⟨hr, hm⟩ := runMeeting_eq_some ht
  exact ⟨t, hr, hm, hp⟩

/-- An invariant kept by every step that meets a condition survives every such run. -/
theorem run_invariant {I : σ → Prop} {P : σ → α → Prop}
    (hstep : ∀ s a t, I s → P s a → step s a = some t → I t) :
    ∀ {s t : σ} {as : List α}, I s → Meets step P s as → run step s as = some t → I t
  | s, t, [], hI, _, h => by simpa using (Option.some.inj h) ▸ hI
  | s, t, a :: as, hI, hm, h => by
      obtain ⟨u, hu, ht⟩ := run_cons_eq_some.mp h
      exact run_invariant hstep (hstep s a u hI hm.1 hu) (hm.2 u hu) ht

theorem Meets.of_invariant {I : σ → Prop} {P Q : σ → α → Prop}
    (hstep : ∀ s a t, I s → P s a → step s a = some t → I t) (hQ : ∀ s a, I s → P s a → Q s a) :
    ∀ {s : σ} {as : List α}, I s → Meets step P s as → Meets step Q s as
  | _, [], _, _ => trivial
  | s, a :: _, hI, hm => ⟨hQ s a hI hm.1, fun t ht =>
      Meets.of_invariant hstep hQ (hstep s a t hI hm.1 ht) (hm.2 t ht)⟩

theorem meets_of_forall {P : σ → α → Prop} (h : ∀ s a, P s a) : ∀ s as, Meets step P s as
  | _, [] => trivial
  | s, a :: as => ⟨h s a, fun t _ => meets_of_forall h t as⟩

theorem meets_of_mem {P : σ → α → Prop} : ∀ {as : List α}, (∀ a ∈ as, ∀ s, P s a) →
    ∀ s, Meets step P s as
  | [], _, _ => trivial
  | a :: _, h, s => ⟨h a (List.mem_cons_self ..) s, fun t _ =>
      meets_of_mem (fun b hb => h b (List.mem_cons_of_mem a hb)) t⟩

theorem run_preserves {I : σ → Prop} (hstep : ∀ s a t, I s → step s a = some t → I t)
    {s t : σ} {as : List α} (hI : I s) (h : run step s as = some t) : I t :=
  run_invariant (P := fun _ _ => True) (fun s a t hs _ => hstep s a t hs) hI
    (meets_of_forall (fun _ _ => trivial) s as) h

theorem Meets.and {P Q : σ → α → Prop} : ∀ {s : σ} {as : List α}, Meets step P s as →
    Meets step Q s as → Meets step (fun s a => P s a ∧ Q s a) s as
  | _, [], _, _ => trivial
  | _, _ :: _, hP, hQ => ⟨⟨hP.1, hQ.1⟩, fun t ht => (hP.2 t ht).and (hQ.2 t ht)⟩

theorem exists_of_not_meets {P : σ → α → Prop} : ∀ {s t : σ} {as : List α},
    run step s as = some t → ¬ Meets step P s as → ∃ bs a cs u v, as = bs ++ a :: cs ∧
      run step s bs = some u ∧ ¬ P u a ∧ step u a = some v ∧ run step v cs = some t
  | _, _, [], _, hm => absurd trivial hm
  | s, t, a :: as, h, hm => by
      obtain ⟨v, hv, ht⟩ := run_cons_eq_some.mp h
      by_cases hP : P s a
      · have hm' : ¬ Meets step P v as := by
          intro hm'
          refine hm ⟨hP, ?_⟩
          intro w hw
          rw [hv] at hw
          cases hw
          exact hm'
        obtain ⟨bs, b, cs, u, w, rfl, hu, hnP, hw, hcs⟩ := exists_of_not_meets ht hm'
        exact ⟨a :: bs, b, cs, u, w, rfl, run_cons_eq_some.mpr ⟨v, hv, hu⟩, hnP, hw, hcs⟩
      · exact ⟨[], a, as, s, v, rfl, rfl, hP, hv, ht⟩

theorem Meets.mono {P Q : σ → α → Prop} (h : ∀ s a, P s a → Q s a) :
    ∀ {s : σ} {as : List α}, Meets step P s as → Meets step Q s as
  | _, [], _ => trivial
  | s, a :: _, hm => ⟨h s a hm.1, fun t ht => (hm.2 t ht).mono h⟩

/-- Where a step meets a condition exactly if it keeps the invariant, a run meets it exactly if the
invariant holds in every state on the way. -/
theorem meets_iff_of_step_iff {I : σ → Prop} {P : σ → α → Prop}
    (hstep : ∀ s a t, I s → step s a = some t → (P s a ↔ I t)) :
    ∀ {s t : σ} {as : List α}, I s → run step s as = some t →
      (Meets step P s as ↔ ∀ bs u, bs <+: as → run step s bs = some u → I u)
  | s, _, [], hI, _ => by
    constructor
    · intro _ bs u hbs hu
      obtain rfl := List.prefix_nil.mp hbs
      cases hu
      exact hI
    · exact fun _ => trivial
  | s, t, a :: as, hI, h => by
    obtain ⟨v, hv, ht⟩ := run_cons_eq_some.mp h
    constructor
    · rintro ⟨hP, hm⟩ bs u hbs hu
      have hIv := (hstep s a v hI hv).mp hP
      cases bs with
      | nil =>
        cases hu
        exact hI
      | cons b bs =>
        obtain ⟨rfl, hbs'⟩ := List.cons_prefix_cons.mp hbs
        obtain ⟨w, hw, hu⟩ := run_cons_eq_some.mp hu
        cases hv.symm.trans hw
        exact (meets_iff_of_step_iff hstep hIv ht).mp (hm v hv) bs u hbs' hu
    · intro hall
      have hIv : I v := by
        apply hall [a] v (List.cons_prefix_cons.mpr ⟨rfl, List.nil_prefix⟩)
        exact run_cons_eq_some.mpr ⟨v, hv, rfl⟩
      refine ⟨(hstep s a v hI hv).mpr hIv, fun w hw => ?_⟩
      cases hv.symm.trans hw
      apply (meets_iff_of_step_iff hstep hIv ht).mpr
      intro bs u hbs hu
      exact hall (a :: bs) u (List.cons_prefix_cons.mpr ⟨rfl, hbs⟩)
        (run_cons_eq_some.mpr ⟨v, hv, hu⟩)

end Machine
