import Sidewire.Lib.PyDict

/-! # Iterating over a live dictionary

An iterator over the keys of a dictionary remembers how large the dictionary was
when it was made, and refuses to go on once the size has changed. A dictionary
that has only been assigned to keeps its keys in place, so as long as the sizes
agree the iterator visits the keys that were there at the start.
-/

structure LiveIter (K : Type*) where
  size : ℕ
  todo : List K
  deriving DecidableEq, Repr

namespace PyDict

variable {K V : Type*} [DecidableEq K] {d : PyDict K V} {k : K} {v : V}

def iter (d : PyDict K V) : LiveIter K := ⟨d.keys.length, d.keys⟩

theorem map_fst_setEntries_of_mem : ∀ {es : List (K × V)}, k ∈ es.map Prod.fst →
    (setEntries k v es).map Prod.fst = es.map Prod.fst
  | [], h => by cases h
  | (a, b) :: es, h => by
    by_cases ha : a = k
    · simp [setEntries, ha]
    · have hes : k ∈ es.map Prod.fst := by
        rcases List.mem_cons.mp h with h | h
        · exact absurd h.symm ha
        · exact h
      simp only [setEntries, if_neg ha, List.map_cons, map_fst_setEntries_of_mem hes]

theorem map_fst_setEntries_of_not_mem : ∀ {es : List (K × V)}, k ∉ es.map Prod.fst →
    (setEntries k v es).map Prod.fst = es.map Prod.fst ++ [k]
  | [], _ => rfl
  | (a, b) :: es, h => by
    have ha : a ≠ k := fun ha => h (ha ▸ List.mem_cons_self ..)
    have hes : k ∉ es.map Prod.fst := fun hes => h (List.mem_cons_of_mem _ hes)
    simp only [setEntries, if_neg ha, List.map_cons, map_fst_setEntries_of_not_mem hes,
      List.cons_append]

theorem keys_set_of_mem (h : k ∈ d.keys) : (d.set k v).keys = d.keys :=
  map_fst_setEntries_of_mem h

theorem keys_set_of_not_mem (h : k ∉ d.keys) : (d.set k v).keys = d.keys ++ [k] :=
  map_fst_setEntries_of_not_mem h

end PyDict
