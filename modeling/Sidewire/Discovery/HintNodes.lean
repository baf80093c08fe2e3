import Sidewire.Discovery.HintFile
import Sidewire.Lib.Machine

/-! # Several nodes on one cache file

A node that stores its brokers reads the file, changes its own entry and
replaces the file. Other nodes may do the same in between: a replacement brings
back every entry as it was read.
-/

namespace Sidewire

/-- A call of `store_for` that has read the file and not yet replaced it. -/
structure Storing where
  data : List (String × Json)
  brokers : List Json
  now : ℚ

/-- The file, the calls under way, one a node at most, and, as history, the brokers and the time of
the last call that each node has finished. -/
structure HintNodes (ι : Type) where
  file : Option Json
  storing : ι → Option Storing
  stored : ι → Option (List Json × ℚ)

namespace HintNodes

inductive Action (ι : Type)
  | read (i : ι) (brokers : List Json) (now : ℚ)
  | replace (i : ι)

variable {ι : Type} [DecidableEq ι]

def start (file : Option Json) : HintNodes ι := ⟨file, fun _ => none, fun _ => none⟩

/-- The next half of a call of `store_for`; one without a well-formed broker returns at once. -/
def step (key : ι → String) (s : HintNodes ι) : Action ι → Option (HintNodes ι)
  | .read i brokers now =>
    if (s.storing i).isSome then none
    else if brokers.isEmpty || (serialisable brokers now).isEmpty then some s
    else some { s with storing := Function.update s.storing i (some ⟨loadAll s.file, brokers, now⟩) }
  | .replace i =>
    match s.storing i with
    | none => none
    | some x => some
        { file := some (replaced x.data (key i) (serialisable x.brokers x.now))
          storing := Function.update s.storing i none
          stored := Function.update s.stored i (some (x.brokers, x.now)) }

/-- A replacement finds the entries of the other nodes as they were read. -/
def Unchanged (key : ι → String) (s : HintNodes ι) : Action ι → Prop
  | .read .. => True
  | .replace i => ∀ x, s.storing i = some x → ∀ j, j ≠ i →
      PyDict.lookup (key j) x.data = PyDict.lookup (key j) (loadAll s.file)

def Intact (key : ι → String) (file : Option Json) (s : HintNodes ι) : Prop :=
  ∀ i, PyDict.lookup (key i) (loadAll s.file) =
    match s.stored i with
    | some (brokers, now) => some (.dict [("brokers", .list (serialisable brokers now))])
    | none => PyDict.lookup (key i) (loadAll file)

variable {key : ι → String} {file : Option Json} {s t : HintNodes ι} {a : Action ι} {i : ι}

omit [DecidableEq ι] in
theorem intact_start (key : ι → String) (file : Option Json) :
    Intact key file (start file) := fun _ => rfl

theorem step_cases (h : step key s a = some t) :
    (Unchanged key s a ∧ t.file = s.file ∧ t.stored = s.stored) ∨
    ∃ i x, a = .replace i ∧ s.storing i = some x ∧
      t.file = some (replaced x.data (key i) (serialisable x.brokers x.now)) ∧
      t.stored = Function.update s.stored i (some (x.brokers, x.now)) := by
  cases a with
  | read i brokers now =>
    left
    simp only [step] at h
    split_ifs at h
    · cases h
      exact ⟨trivial, rfl, rfl⟩
    · cases h
      exact ⟨trivial, rfl, rfl⟩
  | replace i =>
    right
    simp only [step] at h
    cases hx : s.storing i with
    | none =>
      rw [hx] at h
      cases h
    | some x =>
      rw [hx] at h
      cases h
      exact ⟨i, x, rfl, hx, rfl, rfl⟩

theorem unchanged_iff_intact (hkey : Function.Injective key) (hs : Intact key file s)
    (h : step key s a = some t) : Unchanged key s a ↔ Intact key file t := by
  obtain ⟨hu, hfile, hstored⟩ | ⟨i, x, rfl, hx, hfile, hstored⟩ := step_cases h
  · have ht : Intact key file t := by
      intro j
      rw [hfile, hstored]
      exact hs j
    exact ⟨fun _ => ht, fun _ => hu⟩
  · have hother : ∀ j, j ≠ i → PyDict.lookup (key j) (loadAll t.file) =
        PyDict.lookup (key j) x.data := by
      intro j hj
      rw [hfile, lookup_replaced, if_neg fun h => hj (hkey h)]
    constructor
    · intro hu j
      by_cases hj : j = i
      · subst hj
        rw [hfile, lookup_replaced, if_pos rfl, hstored, Function.update_self]
      · rw [hother j hj, hu x hx j hj, hstored, Function.update_of_ne hj]
        exact hs j
    · intro ht x' hx' j hj
      cases hx.symm.trans hx'
      rw [← hother j hj, ht j, hs j, hstored, Function.update_of_ne hj]

omit [DecidableEq ι] in
theorem Intact.loadFor_eq (hs : Intact key file s) {brokers : List Json} {now : ℚ}
    (h : s.stored i = some (brokers, now)) (intOfStr : String → Except LoadError ℤ) :
    loadFor intOfStr (.ok s.file) (key i) = .ok (stamped brokers (pyInt now)) := by
  have hentry := hs i
  rw [h] at hentry
  apply loadFor_of_cachedEntries
  rw [cachedEntries, hentry]
  rfl

/-- A call whose two halves follow each other is `store_for`. -/
theorem run_read_replace (key : ι → String) (s : HintNodes ι) (i : ι) (brokers : List Json) (now : ℚ)
    (hidle : s.storing i = none) (h : ∃ b ∈ brokers, (brokerFields b).isSome) :
    ∃ t, Machine.run (step key) s [.read i brokers now, .replace i] = some t ∧
      t.file = storeFor s.file (key i) brokers now ∧ t.storing = s.storing ∧
      t.stored = Function.update s.stored i (some (brokers, now)) := by
  have hser := serialisable_ne_nil h now
  have hne : brokers ≠ [] := by
    rintro rfl
    exact hser rfl
  obtain ⟨u, hu⟩ : ∃ u : HintNodes ι, u = { s with storing :=
    (Function.update s.storing i (some ⟨loadAll s.file, brokers, now⟩)) } := ⟨_, rfl⟩
  have hread : step key s (.read i brokers now) = some u := by
    simp [step, hidle, hne, hser, hu]
  have hreplace : step key u (.replace i) = some
      { file := some (replaced (loadAll s.file) (key i) (serialisable brokers now))
        storing := s.storing
        stored := Function.update s.stored i (some (brokers, now)) } := by
    simp [step, hu, ← hidle]
  have hrun := Machine.run_cons_eq_some.mpr ⟨u, hread, Machine.run_cons_eq_some.mpr
    ⟨_, hreplace, Machine.run_nil _⟩⟩
  exact ⟨_, hrun, (storeFor_eq h).symm, rfl, rfl⟩

/-- Along a run every node's entry stays intact exactly if the replacements find the entries of the
others as they were read. Each node then loads what it stored last, and one that has stored nothing
what it would have loaded at first. -/
theorem loads_last_store_iff (intOfStr : String → Except LoadError ℤ)
    (hkey : Function.Injective key) {as : List (Action ι)}
    (h : Machine.run (step key) (start file) as = some s) :
    (Machine.Meets (step key) (Unchanged key) (start file) as ↔
      ∀ bs t, bs <+: as → Machine.run (step key) (start file) bs = some t → Intact key file t) ∧
    (Machine.Meets (step key) (Unchanged key) (start file) as →
      ∀ i, (∀ brokers now, s.stored i = some (brokers, now) →
          loadFor intOfStr (.ok s.file) (key i) = .ok (stamped brokers (pyInt now))) ∧
        (s.stored i = none →
          loadFor intOfStr (.ok s.file) (key i) = loadFor intOfStr (.ok file) (key i))) := by
  have hiff := Machine.meets_iff_of_step_iff
    (fun u a v (hu : Intact key file u) hv => unchanged_iff_intact hkey hu hv)
    (intact_start key file) h
  constructor
  · exact hiff
  · intro hm i
    have hs : Intact key file s := hiff.mp hm as s (List.prefix_refl as) h
    constructor
    · intro brokers now hi
      exact hs.loadFor_eq hi intOfStr
    · intro hi
      have hentry := hs i
      rw [hi] at hentry
      exact loadFor_congr hentry

def twoKeys (b : Bool) : String := if b then "k" else "l"

/-- One node after the other. -/
theorem loads_last_store_in_turn : ∃ s : HintNodes Bool,
    Machine.run (step twoKeys) (start none) [.read false [brokerEntry .null] 1, .replace false,
      .read true [brokerEntry .null] 2, .replace true] = some s ∧
    loadFor decimalInt (.ok s.file) "l" = .ok (stamped [brokerEntry .null] (pyInt 1)) := by
  have hkey : Function.Injective twoKeys := by
    intro a b h
    cases a <;> cases b <;> simp_all [twoKeys]
  have hmeets : Machine.Meets (step twoKeys) (Unchanged twoKeys) (start none)
      [.read false [brokerEntry .null] 1, .replace false, .read true [brokerEntry .null] 2,
        .replace true] := by
    refine ⟨trivial, fun s₁ h₁ => ⟨?_, fun s₂ h₂ => ⟨trivial, fun s₃ h₃ => ⟨?_, fun _ _ => trivial⟩⟩⟩⟩
    · cases h₁
      intro x hx j hj
      cases hx
      rfl
    · cases h₁
      cases h₂
      cases h₃
      intro x hx j hj
      cases hx
      rfl
  refine ⟨_, rfl, ?_⟩
  exact ((loads_last_store_iff decimalInt hkey rfl).2 hmeets false).1 [brokerEntry .null] 1 rfl

/-- Both nodes read the file before either replaces it: the second replacement brings back the
absent entry of the first node, whose call has finished. -/
theorem loses_entry : ∃ s : HintNodes Bool,
    Machine.run (step twoKeys) (start none) [.read false [brokerEntry .null] 1,
      .read true [brokerEntry .null] 2, .replace false, .replace true] = some s ∧
    s.storing false = none ∧ s.storing true = none ∧
    s.stored false = some ([brokerEntry .null], 1) ∧
    loadFor decimalInt (.ok s.file) "l" = .ok [] ∧
    loadFor decimalInt (.ok s.file) "l" ≠ .ok (stamped [brokerEntry .null] (pyInt 1)) := by
  refine ⟨_, rfl, rfl, rfl, rfl, rfl, ?_⟩
  intro h
  cases h

end HintNodes

end Sidewire
