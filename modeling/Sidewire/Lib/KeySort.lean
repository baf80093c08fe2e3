import Mathlib.Data.List.Sort
import Mathlib.Tactic

/-! # Sorting by a key

A stable sort by a key. Where the key tells the elements apart, the result
depends on the set of elements only, and that of a subset is found by deleting
from it; in any case one element comes before another exactly if its key is
smaller, or equal with the element standing earlier.
-/

namespace KeySort

variable {α β σ : Type*} [LinearOrder σ]

/-- `list.sort(key=f)`. -/
def byKey (f : α → σ) (l : List α) : List α := l.insertionSort fun a b => f a ≤ f b

variable {f : α → σ} {l l' : List α} {a b : α}

theorem perm_byKey (f : α → σ) (l : List α) : (byKey f l).Perm l := List.perm_insertionSort _ l

@[simp] theorem mem_byKey : a ∈ byKey f l ↔ a ∈ l := List.mem_insertionSort _

theorem nodup_byKey : (byKey f l).Nodup ↔ l.Nodup := (perm_byKey f l).nodup_iff

theorem pairwise_byKey (f : α → σ) (l : List α) : (byKey f l).Pairwise fun a b => f a ≤ f b :=
  have : Std.Total fun a b : α => f a ≤ f b := ⟨fun a b => le_total (f a) (f b)⟩
  have : IsTrans α fun a b => f a ≤ f b := ⟨fun _ _ _ => le_trans⟩
  List.pairwise_insertionSort _ l

theorem map_byKey (g : α → β) (f : β → σ) (l : List α) :
    (byKey (fun a => f (g a)) l).map g = byKey f (l.map g) :=
  List.map_insertionSort _ _ g l fun _ _ _ _ => Iff.rfl

theorem forall₂_orderedInsert {R : α → β → Prop} {g : β → σ} {l' : List β} {b : β}
    (hR : ∀ a b, R a b → f a = g b) (hab : R a b) (h : List.Forall₂ R l l') :
    List.Forall₂ R (l.orderedInsert (fun a b => f a ≤ f b) a)
      (l'.orderedInsert (fun a b => g a ≤ g b) b) := by
  induction h with
  | nil => exact .cons hab .nil
  | @cons c d l l' hcd hl ih =>
    rw [List.orderedInsert_cons, List.orderedInsert_cons, hR a b hab, hR c d hcd]
    split_ifs
    · exact .cons hab (.cons hcd hl)
    · exact .cons hcd ih

theorem forall₂_byKey {R : α → β → Prop} {g : β → σ} {l' : List β} (hR : ∀ a b, R a b → f a = g b)
    (h : List.Forall₂ R l l') : List.Forall₂ R (byKey f l) (byKey g l') := by
  induction h with
  | nil => exact .nil
  | cons hab _ ih => exact forall₂_orderedInsert hR hab ih

theorem eq_of_perm_of_pairwise (hinj : ∀ a ∈ l, ∀ b ∈ l, f a = f b → a = b) (hperm : l.Perm l')
    (hl : l.Pairwise fun a b => f a ≤ f b) (hl' : l'.Pairwise fun a b => f a ≤ f b) : l = l' := by
  apply hperm.eq_of_pairwise _ hl hl'
  intro a b ha hb hab hba
  exact hinj a ha b (hperm.mem_iff.mpr hb) (le_antisymm hab hba)

theorem byKey_eq_of_perm (hinj : ∀ a ∈ l, ∀ b ∈ l, f a = f b → a = b) (hperm : l.Perm l') :
    byKey f l = byKey f l' := by
  apply eq_of_perm_of_pairwise _ _ (pairwise_byKey f l) (pairwise_byKey f l')
  · intro a ha b hb
    exact hinj a (mem_byKey.mp ha) b (mem_byKey.mp hb)
  · exact (perm_byKey f l).trans (hperm.trans (perm_byKey f l').symm)

theorem byKey_of_subset [DecidablePred (· ∈ l)] (hinj : ∀ a ∈ l', ∀ b ∈ l', f a = f b → a = b)
    (hnodup : l.Nodup) (hnodup' : l'.Nodup) (hsub : l ⊆ l') :
    byKey f l = (byKey f l').filter (· ∈ l) := by
  apply eq_of_perm_of_pairwise _ _ (pairwise_byKey f l) ((pairwise_byKey f l').filter _)
  · intro a ha b hb
    exact hinj a (hsub (mem_byKey.mp ha)) b (hsub (mem_byKey.mp hb))
  · apply (List.perm_ext_iff_of_nodup (nodup_byKey.mpr hnodup)
      ((nodup_byKey.mpr hnodup').filter _)).mpr
    intro a
    simp only [mem_byKey, List.mem_filter, decide_eq_true_eq]
    exact ⟨fun ha => ⟨hsub ha, ha⟩, And.right⟩

theorem pair_sublist_or (ha : a ∈ l) (hb : b ∈ l) (hne : a ≠ b) :
    [a, b].Sublist l ∨ [b, a].Sublist l := by
  induction l with
  | nil => cases ha
  | cons c l ih =>
    rcases List.mem_cons.mp ha with rfl | ha'
    · rcases List.mem_cons.mp hb with rfl | hb'
      · exact absurd rfl hne
      · exact Or.inl ((List.singleton_sublist.mpr hb').cons_cons a)
    · rcases List.mem_cons.mp hb with rfl | hb'
      · exact Or.inr ((List.singleton_sublist.mpr ha').cons_cons b)
      · exact (ih ha' hb').imp (fun h => h.cons c) fun h => h.cons c

theorem not_pair_sublist (hnodup : l.Nodup) (hab : [a, b].Sublist l) : ¬ [b, a].Sublist l := by
  induction l with
  | nil => cases hab
  | cons c l ih =>
    intro hba
    rw [List.nodup_cons] at hnodup
    cases hab with
    | cons _ hab =>
      cases hba with
      | cons _ hba => exact ih hnodup.2 hab hba
      | cons_cons _ hba => exact hnodup.1 (hab.subset (by simp))
    | cons_cons _ hab =>
      cases hba with
      | cons _ hba => exact hnodup.1 (hba.subset (by simp))
      | cons_cons _ hba => exact hnodup.1 (hab.subset (by simp))

theorem pair_sublist_byKey_iff (hnodup : l.Nodup) (ha : a ∈ l) (hb : b ∈ l) (hne : a ≠ b) :
    [a, b].Sublist (byKey f l) ↔ f a < f b ∨ f a = f b ∧ [a, b].Sublist l := by
  have hle : ∀ {x y : α}, [x, y].Sublist (byKey f l) → f x ≤ f y := by
    intro x y hxy
    have hpair := (pairwise_byKey f l).sublist hxy
    rw [List.pairwise_pair] at hpair
    exact hpair
  have hkept : ∀ {x y : α}, f x ≤ f y → [x, y].Sublist l → [x, y].Sublist (byKey f l) :=
    fun hxy hsub => List.pair_sublist_insertionSort hxy hsub
  have hnodup' := (nodup_byKey (f := f)).mpr hnodup
  constructor
  · intro hab
    rcases (hle hab).lt_or_eq with hlt | heq
    · exact Or.inl hlt
    · right
      refine ⟨heq, ?_⟩
      apply (pair_sublist_or ha hb hne).resolve_right
      intro hba
      exact not_pair_sublist hnodup' hab (hkept heq.ge hba)
  · rintro (hlt | ⟨heq, hab⟩)
    · apply (pair_sublist_or (mem_byKey.mpr ha) (mem_byKey.mpr hb) hne).resolve_right
      intro hba
      exact absurd (hle hba) (not_le.mpr hlt)
    · exact hkept heq.le hab

end KeySort
