import Mathlib.Data.List.Sort
import Mathlib.Tactic

/-! # Rows of a ragged family

Lists of different lengths, one a key, read row by row: the positions stand in
the order of their row and in a row in that of their key. The positions of one
key are its rows in order, and in a prefix no key is more than one row behind
another before it is exhausted.
-/

namespace Ragged

variable {κ : Type*} [LinearOrder κ]

def Before (p q : ℕ × κ) : Prop := p.1 < q.1 ∨ p.1 = q.1 ∧ p.2 < q.2

/-- The positions of the first `n` rows. -/
def positions (n : ℕ) (ks : List κ) (len : κ → ℕ) : List (ℕ × κ) :=
  (List.range n).flatMap fun i => (ks.filter fun k => i < len k).map fun k => (i, k)

def taken (k : κ) (l : List (ℕ × κ)) : ℕ := l.countP fun p => p.2 = k

variable {n m i : ℕ} {ks : List κ} {len : κ → ℕ} {k k' : κ} {p q : ℕ × κ} {l : List (ℕ × κ)}

theorem Before.asymm (h : Before p q) : ¬ Before q p := by
  rintro (h' | ⟨h', h''⟩)
  · rcases h with h | ⟨h, -⟩ <;> omega
  · rcases h with h | ⟨-, h⟩
    · omega
    · exact lt_asymm h h''

theorem nodup_of_pairwise (h : l.Pairwise Before) : l.Nodup :=
  h.imp fun {p q} hpq heq => by
    subst heq
    exact hpq.asymm hpq

theorem eq_of_pairwise {l' : List (ℕ × κ)} (h : l.Pairwise Before) (h' : l'.Pairwise Before)
    (hmem : ∀ p, p ∈ l ↔ p ∈ l') : l = l' := by
  have hperm : l.Perm l' :=
    (List.perm_ext_iff_of_nodup (nodup_of_pairwise h) (nodup_of_pairwise h')).mpr hmem
  apply hperm.eq_of_pairwise _ h h'
  intro p q _ _ hpq hqp
  exact absurd hqp hpq.asymm

omit [LinearOrder κ] in
theorem mem_positions (hn : ∀ k ∈ ks, len k ≤ n) :
    p ∈ positions n ks len ↔ p.2 ∈ ks ∧ p.1 < len p.2 := by
  obtain ⟨i, k⟩ := p
  simp only [positions, List.mem_flatMap, List.mem_range, List.mem_map, List.mem_filter,
    decide_eq_true_eq]
  constructor
  · rintro ⟨j, -, k', ⟨hk', hj⟩, h⟩
    cases h
    exact ⟨hk', hj⟩
  · rintro ⟨hk, hi⟩
    exact ⟨i, lt_of_lt_of_le hi (hn k hk), k, ⟨hk, hi⟩, rfl⟩

theorem pairwise_positions (hks : ks.Pairwise (· < ·)) : (positions n ks len).Pairwise Before := by
  rw [positions, List.pairwise_flatMap]
  constructor
  · intro i _
    rw [List.pairwise_map]
    exact (hks.filter _).imp fun hlt => Or.inr ⟨rfl, hlt⟩
  · apply List.pairwise_lt_range.imp
    intro i j hij p hp q hq
    obtain ⟨-, -, rfl⟩ := List.mem_map.mp hp
    obtain ⟨-, -, rfl⟩ := List.mem_map.mp hq
    exact Or.inl hij

theorem pairwise_rows (n : ℕ) (k : κ) :
    ((List.range n).map fun i => (i, k)).Pairwise Before := by
  rw [List.pairwise_map]
  exact List.pairwise_lt_range.imp fun h => Or.inl h

theorem filter_positions (hks : ks.Pairwise (· < ·)) (hn : ∀ k ∈ ks, len k ≤ n) (hk : k ∈ ks) :
    ((positions n ks len).filter fun p => p.2 = k) = (List.range (len k)).map fun i => (i, k) := by
  apply eq_of_pairwise ((pairwise_positions hks).filter _) (pairwise_rows (len k) k)
  rintro ⟨i, k'⟩
  simp only [List.mem_filter, mem_positions hn, decide_eq_true_eq, List.mem_map, List.mem_range,
    Prod.mk.injEq]
  constructor
  · rintro ⟨⟨-, hi⟩, rfl⟩
    exact ⟨i, hi, rfl, rfl⟩
  · rintro ⟨j, hj, rfl, rfl⟩
    exact ⟨⟨hk, hj⟩, rfl⟩

theorem mem_take_of_before (h : l.Pairwise Before) (hp : p ∈ l.take m) (hq : q ∈ l)
    (hqp : Before q p) : q ∈ l.take m := by
  rw [← List.take_append_drop m l] at h hq
  rcases List.mem_append.mp hq with hq | hq
  · exact hq
  · exact absurd hqp ((List.pairwise_append.mp h).2.2 p hp q hq).asymm

theorem mem_take_positions (hks : ks.Pairwise (· < ·)) (hn : ∀ k ∈ ks, len k ≤ n) (hk : k ∈ ks) :
    (i, k) ∈ (positions n ks len).take m ↔ i < taken k ((positions n ks len).take m) := by
  have hprefix := (List.take_prefix m (positions n ks len)).filter fun p => p.2 = k
  rw [filter_positions hks hn hk, List.prefix_iff_eq_take, ← List.map_take, List.take_range,
    ← List.countP_eq_length_filter] at hprefix
  have hle : taken k ((positions n ks len).take m) ≤ len k := by
    have hlen := congrArg List.length hprefix
    rw [← List.countP_eq_length_filter, List.length_map, List.length_range] at hlen
    rw [taken, hlen]
    exact min_le_right _ _
  have hmem : (i, k) ∈ (positions n ks len).take m ↔
      (i, k) ∈ ((positions n ks len).take m).filter fun p => p.2 = k := by simp
  rw [hmem, hprefix, List.mem_map]
  constructor
  · rintro ⟨j, hj, h⟩
    cases h
    exact lt_of_lt_of_le (List.mem_range.mp hj) (min_le_left _ _)
  · intro hi
    exact ⟨i, List.mem_range.mpr (lt_min hi (lt_of_lt_of_le hi hle)), rfl⟩

theorem taken_le_succ (hks : ks.Pairwise (· < ·)) (hn : ∀ k ∈ ks, len k ≤ n) (hk : k ∈ ks)
    (hk' : k' ∈ ks) (hlt : taken k ((positions n ks len).take m) < len k) :
    taken k' ((positions n ks len).take m) ≤ taken k ((positions n ks len).take m) + 1 := by
  by_contra hle
  have hahead := (mem_take_positions hks hn hk').mpr (not_le.mp hle)
  have hnext : (taken k ((positions n ks len).take m), k) ∈ positions n ks len :=
    (mem_positions hn).mpr ⟨hk, hlt⟩
  have hmem := mem_take_of_before (pairwise_positions hks) hahead hnext (Or.inl (Nat.lt_succ_self _))
  exact lt_irrefl _ ((mem_take_positions hks hn hk).mp hmem)

end Ragged
