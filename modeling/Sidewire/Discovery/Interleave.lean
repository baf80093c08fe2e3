import Sidewire.Lib.KeySort
import Sidewire.Lib.PyDict
import Sidewire.Lib.Ragged

/-! # Interleaving the buckets of the address families

Two nested loops over lists of different lengths. What they append is the list
of all positions of the buckets, row by row and in a row by family, read off
the buckets.
-/

namespace Sidewire

variable {AF α : Type*} [LinearOrder AF]

/-- `af_buckets[af]`, for a family that is present. -/
def afBucket (afBuckets : PyDict AF (List α)) (af : AF) : List α := (afBuckets.get? af).getD []

/-- `sorted(af_buckets.keys())`. -/
def sortedKeys (afBuckets : PyDict AF (List α)) : List AF := KeySort.byKey id afBuckets.keys

def maxLen (afBuckets : PyDict AF (List α)) : ℕ :=
  (afBuckets.entries.map fun e => e.2.length).max?.getD 0

def interleaveBuckets (afBuckets : PyDict AF (List α)) : List α :=
  (List.range (maxLen afBuckets)).foldl (fun processList i =>
    (sortedKeys afBuckets).foldl (fun processList af =>
      match (afBucket afBuckets af)[i]? with
      | some item => processList ++ [item]
      | none => processList) processList) []

section Positions

variable {d d' : PyDict AF (List α)} {af : AF} {b : List α} {p : ℕ × AF}

def interleaveOrder (d : PyDict AF (List α)) : List (ℕ × AF) :=
  Ragged.positions (maxLen d) (sortedKeys d) fun af => (afBucket d af).length

theorem mem_sortedKeys : af ∈ sortedKeys d ↔ af ∈ d.keys := KeySort.mem_byKey

theorem pairwise_sortedKeys (d : PyDict AF (List α)) : (sortedKeys d).Pairwise (· < ·) := by
  have hnodup : (sortedKeys d).Nodup := KeySort.nodup_byKey.mpr d.nodup_keys
  exact ((KeySort.pairwise_byKey id d.keys).and hnodup).imp fun h => lt_of_le_of_ne h.1 h.2

theorem afBucket_eq (h : (af, b) ∈ d.entries) : afBucket d af = b := by
  rw [afBucket, PyDict.get?_eq_some_iff.mpr h, Option.getD_some]

theorem afBucket_eq_nil (h : af ∉ d.keys) : afBucket d af = [] := by
  rw [afBucket, PyDict.get?_eq_none_iff.mpr h, Option.getD_none]

theorem mem_keys_of_lt {i : ℕ} (h : i < (afBucket d af).length) : af ∈ d.keys := by
  by_contra haf
  rw [afBucket_eq_nil haf] at h
  exact Nat.not_lt_zero i h

theorem length_afBucket_le (d : PyDict AF (List α)) (af : AF) (h : af ∈ sortedKeys d) :
    (afBucket d af).length ≤ maxLen d := by
  obtain ⟨b, hb⟩ := PyDict.mem_keys_iff.mp (mem_sortedKeys.mp h)
  have hmem := PyDict.get?_eq_some_iff.mp hb
  rw [afBucket_eq hmem]
  exact List.le_max?_getD_of_mem (List.mem_map.mpr ⟨_, hmem, rfl⟩)

theorem mem_interleaveOrder : p ∈ interleaveOrder d ↔ p.1 < (afBucket d p.2).length := by
  rw [interleaveOrder, Ragged.mem_positions (length_afBucket_le d), mem_sortedKeys]
  exact ⟨And.right, fun h => ⟨mem_keys_of_lt h, h⟩⟩

theorem pairwise_interleaveOrder (d : PyDict AF (List α)) :
    (interleaveOrder d).Pairwise Ragged.Before := Ragged.pairwise_positions (pairwise_sortedKeys d)

theorem filter_interleaveOrder (h : af ∈ d.keys) :
    ((interleaveOrder d).filter fun p => p.2 = af) =
      (List.range (afBucket d af).length).map fun i => (i, af) :=
  Ragged.filter_positions (pairwise_sortedKeys d) (length_afBucket_le d) (mem_sortedKeys.mpr h)

theorem map_range_getElem? (b : List α) :
    ((List.range b.length).map fun i => b[i]?) = b.map some := by
  apply List.ext_getElem?
  intro i
  by_cases hi : i < b.length
  · simp [hi]
  · simp [not_lt.mp hi]

theorem foldl_row (d : PyDict AF (List α)) (i : ℕ) (afs : List AF) (processList : List α) :
    (afs.foldl (fun processList af =>
      match (afBucket d af)[i]? with
      | some item => processList ++ [item]
      | none => processList) processList).map some =
      processList.map some ++
        ((afs.filter fun af => i < (afBucket d af).length).map fun af => (afBucket d af)[i]?) := by
  induction afs generalizing processList with
  | nil => simp
  | cons af afs ih =>
    rw [List.foldl_cons, ih]
    by_cases hi : i < (afBucket d af).length
    · simp [hi]
    · simp [hi]

theorem foldl_rows (d : PyDict AF (List α)) (rows : List ℕ) (processList : List α) :
    (rows.foldl (fun processList i =>
      (sortedKeys d).foldl (fun processList af =>
        match (afBucket d af)[i]? with
        | some item => processList ++ [item]
        | none => processList) processList) processList).map some =
      processList.map some ++ rows.flatMap fun i =>
        ((sortedKeys d).filter fun af => i < (afBucket d af).length).map
          fun af => (afBucket d af)[i]? := by
  induction rows generalizing processList with
  | nil => simp
  | cons i rows ih =>
    rw [List.foldl_cons, ih, foldl_row, List.flatMap_cons, List.append_assoc]

theorem map_some_interleaveBuckets (d : PyDict AF (List α)) :
    (interleaveBuckets d).map some = (interleaveOrder d).map fun p => (afBucket d p.2)[p.1]? := by
  rw [interleaveBuckets, foldl_rows, List.map_nil, List.nil_append, interleaveOrder,
    Ragged.positions, List.map_flatMap]
  simp only [List.map_map]
  rfl

theorem interleaveOrder_perm (d : PyDict AF (List α)) :
    (interleaveOrder d).Perm
      (d.entries.flatMap fun e => (List.range e.2.length).map fun i => (i, e.1)) := by
  apply (List.perm_ext_iff_of_nodup
    (Ragged.nodup_of_pairwise (pairwise_interleaveOrder d)) _).mpr
  · rintro ⟨i, af⟩
    simp only [mem_interleaveOrder, List.mem_flatMap, List.mem_map, List.mem_range, Prod.mk.injEq]
    constructor
    · intro hi
      obtain ⟨b, hb⟩ := PyDict.mem_keys_iff.mp (mem_keys_of_lt hi)
      have hmem := PyDict.get?_eq_some_iff.mp hb
      rw [afBucket_eq hmem] at hi
      exact ⟨(af, b), hmem, i, hi, rfl, rfl⟩
    · rintro ⟨⟨af, b⟩, hmem, i, hi, rfl, rfl⟩
      rwa [afBucket_eq hmem]
  · rw [List.nodup_flatMap]
    constructor
    · intro e _
      exact Ragged.nodup_of_pairwise (Ragged.pairwise_rows e.2.length e.1)
    · apply (List.pairwise_map.mp d.nodup).imp
      intro e e' hne p hp hp'
      obtain ⟨i, -, rfl⟩ := List.mem_map.mp hp
      obtain ⟨j, -, h⟩ := List.mem_map.mp hp'
      exact hne (congrArg Prod.snd h).symm

theorem interleaveBuckets_perm (d : PyDict AF (List α)) :
    (interleaveBuckets d).Perm (d.entries.flatMap Prod.snd) := by
  rw [← List.map_perm_map_iff (Option.some_injective α), map_some_interleaveBuckets]
  apply ((interleaveOrder_perm d).map _).trans
  rw [List.map_flatMap, List.map_flatMap]
  apply List.Perm.of_eq
  apply List.flatMap_congr
  intro e he
  rw [List.map_map, ← map_range_getElem?]
  apply List.map_congr_left
  intro i _
  exact congrArg (·[i]?) (afBucket_eq he)

theorem interleaveBuckets_congr (h : ∀ af, d.get? af = d'.get? af) :
    interleaveBuckets d = interleaveBuckets d' := by
  have hbucket : afBucket d = afBucket d' := by
    funext af
    rw [afBucket, afBucket, h af]
  have horder : interleaveOrder d = interleaveOrder d' := by
    apply Ragged.eq_of_pairwise (pairwise_interleaveOrder d) (pairwise_interleaveOrder d')
    intro p
    rw [mem_interleaveOrder, mem_interleaveOrder, hbucket]
  apply List.map_injective_iff.mpr (Option.some_injective α)
  rw [map_some_interleaveBuckets, map_some_interleaveBuckets, horder, hbucket]

end Positions

/-- The result holds every afBucket in its own order, row by row and in a row by family, evenly, and
whatever the order in which the families were inserted. -/
theorem interleave_buckets_fair (d : PyDict AF (List α)) :
    (interleaveBuckets d).Perm (d.entries.flatMap Prod.snd) ∧
    ((interleaveBuckets d).map some = (interleaveOrder d).map fun p => (afBucket d p.2)[p.1]?) ∧
    (interleaveOrder d).Pairwise Ragged.Before ∧
    (∀ p, p ∈ interleaveOrder d ↔ p.1 < (afBucket d p.2).length) ∧
    (∀ af ∈ d.keys, ((interleaveOrder d).filter fun p => p.2 = af).map
      (fun p => (afBucket d p.2)[p.1]?) = (afBucket d af).map some) ∧
    (∀ n, ∀ af ∈ d.keys, ∀ af' ∈ d.keys,
      Ragged.taken af ((interleaveOrder d).take n) < (afBucket d af).length →
      Ragged.taken af' ((interleaveOrder d).take n) < (afBucket d af').length →
      Ragged.taken af ((interleaveOrder d).take n) ≤
          Ragged.taken af' ((interleaveOrder d).take n) + 1 ∧
        Ragged.taken af' ((interleaveOrder d).take n) ≤
          Ragged.taken af ((interleaveOrder d).take n) + 1) ∧
    ∀ d' : PyDict AF (List α), (∀ af, d'.get? af = d.get? af) →
      interleaveBuckets d' = interleaveBuckets d := by
  have hbehind : ∀ n, ∀ af ∈ d.keys, ∀ af' ∈ d.keys,
      Ragged.taken af ((interleaveOrder d).take n) < (afBucket d af).length →
      Ragged.taken af' ((interleaveOrder d).take n) ≤
        Ragged.taken af ((interleaveOrder d).take n) + 1 := by
    intro n af haf af' haf' hlt
    apply Ragged.taken_le_succ (pairwise_sortedKeys d) (length_afBucket_le d) _ _ hlt
    · exact mem_sortedKeys.mpr haf
    · exact mem_sortedKeys.mpr haf'
  refine ⟨interleaveBuckets_perm d, map_some_interleaveBuckets d, pairwise_interleaveOrder d,
    fun p => mem_interleaveOrder, ?_, ?_, fun d' => interleaveBuckets_congr⟩
  · intro af haf
    rw [filter_interleaveOrder haf, List.map_map]
    exact map_range_getElem? (afBucket d af)
  · intro n af haf af' haf' hlt hlt'
    exact ⟨hbehind n af' haf' af haf hlt', hbehind n af haf af' haf' hlt⟩

end Sidewire
