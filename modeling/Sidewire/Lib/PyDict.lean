import Mathlib.Tactic

/-! # Insertion-ordered dictionaries

A dictionary keeps its keys in the order of their first insertion. Assigning
to a present key keeps its place, so an iteration order is part of the value.
Every operation is described by what it does to lookups and to the keys.
-/

/-- A dictionary: key-value pairs in insertion order, each key once. -/
structure PyDict (K V : Type*) where
  entries : List (K × V)
  nodup : (entries.map Prod.fst).Nodup

namespace PyDict

variable {K V : Type*}

instance [DecidableEq K] [DecidableEq V] : DecidableEq (PyDict K V) := fun d e =>
  decidable_of_iff (d.entries = e.entries) ⟨fun h => by cases d; cases e; congr, fun h => h ▸ rfl⟩

def empty : PyDict K V := ⟨[], by simp⟩

instance : EmptyCollection (PyDict K V) := ⟨empty⟩

def keys (d : PyDict K V) : List K := d.entries.map Prod.fst

theorem nodup_keys (d : PyDict K V) : d.keys.Nodup := d.nodup

def filter (p : K → V → Bool) (d : PyDict K V) : PyDict K V where
  entries := d.entries.filter fun e => p e.1 e.2
  nodup := d.nodup.sublist (List.filter_sublist.map _)

@[simp] theorem keys_empty : (∅ : PyDict K V).keys = [] := rfl

theorem mem_keys_of_mem_filter {p : K → V → Bool} {d : PyDict K V} {k : K}
    (h : k ∈ (d.filter p).keys) : k ∈ d.keys :=
  (List.filter_sublist.map Prod.fst).subset h

variable [DecidableEq K]

def lookup (k : K) : List (K × V) → Option V
  | [] => none
  | (k', v) :: es => if k' = k then some v else lookup k es

def setEntries (k : K) (v : V) : List (K × V) → List (K × V)
  | [] => [(k, v)]
  | (k', v') :: es => if k' = k then (k, v) :: es else (k', v') :: setEntries k v es

theorem mem_keys_setEntries {k k' : K} {v : V} {es : List (K × V)} :
    k' ∈ (setEntries k v es).map Prod.fst ↔ k' = k ∨ k' ∈ es.map Prod.fst := by
  induction es with
  | nil => simp [setEntries]
  | cons e es ih =>
    obtain ⟨a, b⟩ := e
    by_cases ha : a = k
    · simp [setEntries, ha]
    · simp only [setEntries, if_neg ha, List.map_cons, List.mem_cons, ih]
      tauto

theorem nodup_setEntries {k : K} {v : V} {es : List (K × V)} (h : (es.map Prod.fst).Nodup) :
    ((setEntries k v es).map Prod.fst).Nodup := by
  induction es with
  | nil => simp [setEntries]
  | cons e es ih =>
    obtain ⟨a, b⟩ := e
    rw [List.map_cons, List.nodup_cons] at h
    by_cases ha : a = k
    · subst ha; simpa [setEntries] using h
    · rw [setEntries, if_neg ha, List.map_cons, List.nodup_cons, mem_keys_setEntries]
      exact ⟨by rintro (h' | h'); exacts [ha h', h.1 h'], ih h.2⟩

def get? (d : PyDict K V) (k : K) : Option V := lookup k d.entries

def contains (d : PyDict K V) (k : K) : Bool := (d.get? k).isSome

/-- `d[k] = v`: in place for a present key, at the end for a new one. -/
def set (d : PyDict K V) (k : K) (v : V) : PyDict K V where
  entries := setEntries k v d.entries
  nodup := nodup_setEntries d.nodup

/-- `del d[k]`, for a key that may be absent. -/
def erase (d : PyDict K V) (k : K) : PyDict K V := d.filter fun k' _ => k' ≠ k

theorem lookup_eq_some_iff {k : K} {v : V} {es : List (K × V)} (h : (es.map Prod.fst).Nodup) :
    lookup k es = some v ↔ (k, v) ∈ es := by
  induction es with
  | nil => simp [lookup]
  | cons e es ih =>
    obtain ⟨a, b⟩ := e
    rw [List.map_cons, List.nodup_cons] at h
    by_cases ha : a = k
    · subst ha
      have hn : (a, v) ∉ es := fun hw => h.1 (List.mem_map.mpr ⟨(a, v), hw, rfl⟩)
      simp [lookup, hn, eq_comm]
    · simp [lookup, ha, ih h.2, Ne.symm ha]

theorem get?_eq_some_iff {d : PyDict K V} {k : K} {v : V} :
    d.get? k = some v ↔ (k, v) ∈ d.entries := lookup_eq_some_iff d.nodup

theorem mem_keys_iff {d : PyDict K V} {k : K} : k ∈ d.keys ↔ ∃ v, d.get? k = some v := by
  simp [keys, get?_eq_some_iff]

theorem get?_eq_none_iff {d : PyDict K V} {k : K} : d.get? k = none ↔ k ∉ d.keys := by
  rw [mem_keys_iff, Option.eq_none_iff_forall_not_mem]
  simp

theorem contains_iff {d : PyDict K V} {k : K} : d.contains k = true ↔ k ∈ d.keys := by
  rw [contains, Option.isSome_iff_exists, mem_keys_iff]

@[simp] theorem get?_empty (k : K) : (∅ : PyDict K V).get? k = none := rfl

theorem lookup_setEntries (k : K) (v : V) (es : List (K × V)) (k' : K) :
    lookup k' (setEntries k v es) = if k' = k then some v else lookup k' es := by
  induction es with
  | nil => simp [setEntries, lookup, eq_comm]
  | cons e es ih =>
    obtain ⟨a, b⟩ := e
    by_cases ha : a = k
    · subst ha
      by_cases h : k' = a
      · simp [setEntries, lookup, h]
      · simp [setEntries, lookup, h, Ne.symm h]
    · by_cases h : a = k'
      · subst h; simp [setEntries, lookup, ha]
      · simp [setEntries, lookup, ha, h, ih]

theorem get?_set (d : PyDict K V) (k : K) (v : V) (k' : K) :
    (d.set k v).get? k' = if k' = k then some v else d.get? k' :=
  lookup_setEntries k v d.entries k'

@[simp] theorem get?_set_self (d : PyDict K V) (k : K) (v : V) : (d.set k v).get? k = some v := by
  simp [get?_set]

theorem get?_set_ne {d : PyDict K V} {k k' : K} {v : V} (h : k' ≠ k) :
    (d.set k v).get? k' = d.get? k' := by
  simp [get?_set, h]

theorem get?_of_loop {P : Option V → Prop} {d₀ d : PyDict K V} {ks : List K} {k k' : K} {v : V}
    (hin : k' ∈ ks → P (d.get? k')) (hout : k' ∉ ks → d.get? k' = (d₀.set k v).get? k')
    (hv : k' = k → P (some v)) :
    (k' ∈ k :: ks → P (d.get? k')) ∧ (k' ∉ k :: ks → d.get? k' = d₀.get? k') := by
  constructor
  · intro hmem
    by_cases hks : k' ∈ ks
    · exact hin hks
    · obtain rfl : k' = k := (List.mem_cons.mp hmem).resolve_right hks
      rw [hout hks, get?_set_self]
      exact hv rfl
  · intro hmem
    rw [List.mem_cons, not_or] at hmem
    rw [hout hmem.2, get?_set_ne hmem.1]

theorem contains_set (d : PyDict K V) (k k' : K) (v : V) :
    (d.set k v).contains k' = (decide (k' = k) || d.contains k') := by
  rw [contains, get?_set, contains]
  by_cases h : k' = k <;> simp [h]

theorem contains_set_of_contains {d : PyDict K V} {k k' : K} {v : V} (h : d.contains k' = true) :
    (d.set k v).contains k' = true := by
  rw [contains_set, h, Bool.or_true]

theorem get?_filter (p : K → V → Bool) (d : PyDict K V) (k : K) :
    (d.filter p).get? k = (d.get? k).filter (p k) := by
  apply Option.ext
  intro v
  rw [get?_eq_some_iff, Option.filter_eq_some_iff, get?_eq_some_iff]
  simp [filter]

theorem get?_erase (d : PyDict K V) (k k' : K) :
    (d.erase k).get? k' = if k' = k then none else d.get? k' := by
  rw [erase, get?_filter]
  by_cases h : k' = k <;> cases d.get? k' <;> simp [h]

theorem mem_keys_set {d : PyDict K V} {k k' : K} {v : V} :
    k' ∈ (d.set k v).keys ↔ k' = k ∨ k' ∈ d.keys := mem_keys_setEntries

theorem get?_of_get?_filter {p : K → V → Bool} {d : PyDict K V} {k : K} {v : V}
    (h : (d.filter p).get? k = some v) : d.get? k = some v ∧ p k v = true := by
  rw [get?_filter, Option.filter_eq_some_iff] at h
  exact h

end PyDict
