import Mathlib.Tactic

/-! # Streams of self-delimiting frames

A framing gives each value the strings that spell it, none empty and none a
proper prefix of another. A stream then splits into frames and a remainder in
at most one way up to how far it is read, and more input never changes the
frames already read.
-/

structure Framing (π α : Type*) where
  Spells : π → List α → Prop
  ne_nil : ∀ {p x}, Spells p x → x ≠ []
  prefix_free : ∀ {p q x y r t}, Spells p x → Spells q y → x ++ r = y ++ t → p = q ∧ r = t

namespace Framing

variable {π α : Type*} (F : Framing π α)

/-- Reading the given values off the front of a stream leaves a remainder. -/
inductive Reads : List π → List α → List α → Prop where

  | nil (b : List α) : Reads [] b b

  | cons {p : π} {x : List α} {ps : List π} {s b : List α} : F.Spells p x → Reads ps s b →
      Reads (p :: ps) (x ++ s) b

def Idle (b : List α) : Prop := ∀ p x r, F.Spells p x → b ≠ x ++ r

variable {F} {p : π} {ps qs : List π} {s b c x : List α}

theorem idle_nil : F.Idle [] := by
  intro p x r hx h
  exact F.ne_nil hx (List.append_eq_nil_iff.mp h.symm).1

theorem Reads.append (h : F.Reads ps s b) (c : List α) : F.Reads ps (s ++ c) (b ++ c) := by
  induction h with
  | nil b => exact .nil _
  | cons hx _ ih =>
    rw [List.append_assoc]
    exact .cons hx ih

theorem Reads.trans (h : F.Reads ps s b) (h' : F.Reads qs b c) : F.Reads (ps ++ qs) s c := by
  induction h with
  | nil b => exact h'
  | cons hx _ ih => exact .cons hx (ih h')

theorem Reads.snoc (h : F.Reads ps s b) (hx : F.Spells p x) (hb : b = x ++ c) :
    F.Reads (ps ++ [p]) s c := by
  apply h.trans
  rw [hb]
  exact .cons hx (.nil c)

theorem reads_cons_iff :
    F.Reads (p :: ps) s b ↔ ∃ x c, F.Spells p x ∧ s = x ++ c ∧ F.Reads ps c b := by
  constructor
  · intro h
    cases h with
    | cons hx hs => exact ⟨_, _, hx, rfl, hs⟩
  · rintro ⟨x, c, hx, rfl, hs⟩
    exact .cons hx hs

theorem Reads.of_append (h : F.Reads (ps ++ qs) s b) : ∃ c, F.Reads ps s c ∧ F.Reads qs c b := by
  induction ps generalizing s with
  | nil => exact ⟨s, .nil s, h⟩
  | cons p ps ih =>
    obtain ⟨x, d, hx, rfl, hs⟩ := reads_cons_iff.mp h
    obtain ⟨c, hc, hq⟩ := ih hs
    exact ⟨c, .cons hx hc, hq⟩

theorem Reads.exists_eq_append (h : F.Reads ps s b) : ∃ g, s = g ++ b ∧ F.Reads ps g [] := by
  induction h with
  | nil b => exact ⟨[], rfl, .nil []⟩
  | @cons p x _ _ _ hx _ ih =>
    obtain ⟨g, rfl, hg⟩ := ih
    exact ⟨x ++ g, by simp, .cons hx hg⟩

/-- Of two readings of one stream, one continues the other. -/
theorem Reads.split (h : F.Reads ps s b) (h' : F.Reads qs s c) :
    (∃ rs, qs = ps ++ rs ∧ F.Reads rs b c) ∨ ∃ rs, ps = qs ++ rs ∧ F.Reads rs c b := by
  induction h generalizing qs with
  | nil b => exact Or.inl ⟨qs, rfl, h'⟩
  | @cons p x ps s b hx hs ih =>
    generalize hz : x ++ s = z at h'
    cases h' with
    | nil => exact Or.inr ⟨p :: ps, rfl, hz ▸ .cons hx hs⟩
    | cons hy hs' =>
      obtain ⟨rfl, rfl⟩ := F.prefix_free hx hy hz
      rcases ih hs' with ⟨rs, rfl, hrs⟩ | ⟨rs, rfl, hrs⟩
      · exact Or.inl ⟨rs, rfl, hrs⟩
      · exact Or.inr ⟨rs, rfl, hrs⟩

theorem Reads.nil_of_idle (h : F.Reads ps b c) (hb : F.Idle b) : ps = [] ∧ b = c := by
  cases h with
  | nil => exact ⟨rfl, rfl⟩
  | cons hx _ => exact absurd rfl (hb _ _ _ hx)

theorem Reads.of_idle (h : F.Reads ps s b) (hb : F.Idle b) (h' : F.Reads qs s c) :
    ∃ rs, ps = qs ++ rs ∧ F.Reads rs c b := by
  rcases h.split h' with ⟨rs, rfl, hrs⟩ | ⟨rs, rfl, hrs⟩
  · obtain ⟨rfl, rfl⟩ := hrs.nil_of_idle hb
    exact ⟨[], by simp, .nil b⟩
  · exact ⟨rs, rfl, hrs⟩

theorem Reads.eq_of_idle (h : F.Reads ps s b) (hb : F.Idle b) (h' : F.Reads qs s c)
    (hc : F.Idle c) : ps = qs ∧ b = c := by
  obtain ⟨rs, rfl, hrs⟩ := h.of_idle hb h'
  obtain ⟨rfl, rfl⟩ := hrs.nil_of_idle hc
  exact ⟨by simp, rfl⟩

theorem reads_flatten {w : π → List α} {f : π → π} (hw : ∀ p ∈ ps, F.Spells (f p) (w p)) :
    F.Reads (ps.map f) (ps.map w).flatten [] := by
  induction ps with
  | nil => exact .nil []
  | cons p ps ih =>
    apply Reads.cons (hw p (List.mem_cons_self ..))
    exact ih fun q hq => hw q (List.mem_cons_of_mem p hq)

end Framing
