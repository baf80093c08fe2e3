import Sidewire.Lib.Simulation

/-! # A channel for one item at a time

The abstract view of a stop-and-wait connection: an item is accepted when the
last one is acknowledged, delivered at most once, and acknowledged after that.
A channel carries what makes it one, so no step has to re-establish it.
-/

/-- The items accepted in order, and how many of them were delivered and acknowledged. -/
@[ext] structure Channel (τ : Type*) where
  accepted : List τ
  delivered : ℕ
  acknowledged : ℕ
  acknowledged_le : acknowledged ≤ delivered
  delivered_le : delivered ≤ accepted.length
  length_le : accepted.length ≤ acknowledged + 1

namespace Channel

variable {τ : Type*} {c c' : Channel τ} {x : τ}

inductive Act (τ : Type*)
  | accept (x : τ)
  | deliver
  | acknowledge

def empty : Channel τ := ⟨[], 0, 0, le_rfl, le_rfl, zero_le_one⟩

def received (c : Channel τ) : List τ := c.accepted.take c.delivered

def step (c : Channel τ) : Act τ → Option (Channel τ)
  | .accept x =>
    if h : c.acknowledged = c.accepted.length then
      some
        { c with
          accepted := c.accepted ++ [x]
          delivered_le := by have := c.delivered_le; simp; omega
          length_le := by simp; omega }
    else none
  | .deliver =>
    if h : c.delivered < c.accepted.length then
      some
        { c with
          delivered := c.delivered + 1
          acknowledged_le := by have := c.acknowledged_le; omega
          delivered_le := h }
    else none
  | .acknowledge =>
    if h : c.acknowledged < c.delivered then
      some
        { c with
          acknowledged := c.acknowledged + 1
          acknowledged_le := h
          length_le := by have := c.length_le; omega }
    else none

theorem exists_step_of_le (ha : c'.accepted = c.accepted) (hd : c.delivered ≤ c'.delivered)
    (hk : c.acknowledged ≤ c'.acknowledged)
    (hone : c'.delivered = c.delivered ∨ c'.acknowledged = c.acknowledged) :
    ∃ b, Machine.stutter step c b = some c' := by
  have h₁ := c.length_le
  have h₂ := c'.delivered_le
  have h₃ := c.acknowledged_le
  have h₄ := c'.acknowledged_le
  rw [ha] at h₂
  by_cases hd' : c'.delivered = c.delivered
  · by_cases hk' : c'.acknowledged = c.acknowledged
    · exact ⟨none, congrArg some (Channel.ext ha hd' hk').symm⟩
    · have hlt : c.acknowledged < c.delivered := by omega
      refine ⟨some .acknowledge, ?_⟩
      rw [Machine.stutter, step, dif_pos hlt, Option.some_inj]
      ext1
      · exact ha.symm
      · exact hd'.symm
      · change c.acknowledged + 1 = c'.acknowledged
        omega
  · have hk' : c'.acknowledged = c.acknowledged := hone.resolve_left hd'
    have hlt : c.delivered < c.accepted.length := by omega
    refine ⟨some .deliver, ?_⟩
    rw [Machine.stutter, step, dif_pos hlt, Option.some_inj]
    ext1
    · exact ha.symm
    · change c.delivered + 1 = c'.delivered
      omega
    · exact hk'.symm

theorem exists_step_of_concat (ha : c'.accepted = c.accepted ++ [x])
    (hfull : c.acknowledged = c.accepted.length) (hd : c'.delivered = c.delivered)
    (hk : c.acknowledged ≤ c'.acknowledged) : ∃ b, Machine.stutter step c b = some c' := by
  have h₁ := c.delivered_le
  have h₂ := c.acknowledged_le
  have h₃ := c'.acknowledged_le
  refine ⟨some (.accept x), ?_⟩
  rw [Machine.stutter, step, dif_pos hfull, Option.some_inj]
  ext1
  · exact ha.symm
  · exact hd.symm
  · change c.acknowledged = c'.acknowledged
    omega

end Channel
