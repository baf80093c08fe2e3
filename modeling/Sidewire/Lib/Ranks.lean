import Mathlib.Tactic

/-! # Positions in a filtered list

An element that passes the filter stands in the filtered list at the number of
elements before it that pass as well. Changing elements in place without
changing whether they pass commutes with filtering.
-/

namespace List

variable {α : Type*} {p : α → Bool} {l : List α} {k : ℕ} {x : α}

def rank (p : α → Bool) (l : List α) (k : ℕ) : ℕ := (l.take k).countP p

theorem getElem?_filter_rank (h : l[k]? = some x) (hx : p x = true) :
    (l.filter p)[l.rank p k]? = some x := by
  induction l generalizing k with
  | nil => cases h
  | cons y l ih =>
    cases k with
    | zero =>
      obtain rfl : y = x := Option.some.inj h
      simp [rank, hx]
    | succ k =>
      have hrec := ih (k := k) h
      cases hy : p y with
      | true => simpa [rank, hy] using hrec
      | false => simpa [rank, hy] using hrec

variable {f : α → α} (hf : ∀ y, p (f y) = p y)

include hf

theorem filter_modify_of_pos (h : l[k]? = some x) (hx : p x = true) :
    (l.modify k f).filter p = (l.filter p).modify (l.rank p k) f := by
  induction l generalizing k with
  | nil => cases h
  | cons y l ih =>
    cases k with
    | zero =>
      obtain rfl : y = x := Option.some.inj h
      simp [rank, hx, hf]
    | succ k =>
      have hrec := ih (k := k) h
      cases hy : p y with
      | true => simpa [rank, hy] using hrec
      | false => simpa [rank, hy] using hrec

theorem filter_modify_of_neg (h : l[k]? = some x) (hx : p x = false) :
    (l.modify k f).filter p = l.filter p := by
  induction l generalizing k with
  | nil => cases h
  | cons y l ih =>
    cases k with
    | zero =>
      obtain rfl : y = x := Option.some.inj h
      simp [hx, hf]
    | succ k =>
      have hrec := ih (k := k) h
      cases hy : p y with
      | true => simpa [hy] using hrec
      | false => simpa [hy] using hrec

end List
