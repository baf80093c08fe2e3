import Sidewire.Discovery.Table

/-! # The candidates of a walk

A walk's candidates are the clients of the usable hints, then those of the
ranked servers, each once. Which records the walk can read does not depend on
the hints.
-/

namespace Sidewire

section Distinct

variable {α : Type} [DecidableEq α] {l l' : List α} {a b : α}

def push (l : List α) (a : α) : List α := if a ∈ l then l else l ++ [a]

def distinct (l : List α) : List α := l.foldl push []

theorem mem_push : b ∈ push l a ↔ b ∈ l ∨ b = a := by
  unfold push
  split_ifs with h
  · constructor
    · exact Or.inl
    · rintro (hb | rfl)
      · exact hb
      · exact h
  · rw [List.mem_append, List.mem_singleton]

theorem nodup_push (h : l.Nodup) : (push l a).Nodup := by
  unfold push
  split_ifs with ha
  · exact h
  · exact List.Nodup.append h (List.nodup_singleton a) (by simpa using ha)

theorem mem_foldl_push : ∀ {l l' : List α}, b ∈ l.foldl push l' ↔ b ∈ l' ∨ b ∈ l
  | [], l' => by simp
  | a :: l, l' => by
    rw [List.foldl_cons, mem_foldl_push, mem_push, List.mem_cons, or_assoc]

theorem nodup_foldl_push (h : l'.Nodup) : (l.foldl push l').Nodup := by
  induction l generalizing l' with
  | nil => exact h
  | cons a l ih => exact ih (nodup_push h)

theorem mem_distinct : a ∈ distinct l ↔ a ∈ l := by
  rw [distinct, mem_foldl_push]
  simp

theorem nodup_distinct (l : List α) : (distinct l).Nodup := nodup_foldl_push List.nodup_nil

theorem length_distinct_le_append (l' l : List α) :
    (distinct l).length ≤ (distinct (l' ++ l)).length := by
  apply (nodup_distinct l).length_le_of_subset
  intro a ha
  exact mem_distinct.mpr (List.mem_append_right l' (mem_distinct.mp ha))

end Distinct

variable {σ : Type} {P : Platform} {T : ClientTable} {hints : List Hint} {nicAf : ℕ}

def Server.Named (server : Server) : Prop := server.af.isSome ∧ server.host.isSome

def Server.clientAt (P : Platform) (T : ClientTable) (server : Server) : Option BrokerClient :=
  server.af.bind fun af => server.host.bind fun host => T.at? (P.ianaToAf af) host

def hinted (P : Platform) (T : ClientTable) (hints : List Hint) (nicAf : ℕ) : List BrokerClient :=
  (hints.filter fun hint => P.ianaToAf hint.af = nicAf).filterMap fun hint => T.at? nicAf hint.host

def ranked (P : Platform) (T : ClientTable) (us : List (Server × σ)) : List BrokerClient :=
  us.filterMap fun u => u.1.clientAt P T

theorem addCandidate_eq (T : ClientTable) (af : ℕ) (host : String) (cs : List BrokerClient) :
    addCandidate T af host cs = (T.at? af host).toList.foldl push cs := by
  unfold addCandidate ClientTable.at?
  cases T.get? af with
  | none => rfl
  | some table =>
    cases hget : table.get? host with
    | none => simp only [Option.bind_some, hget, Option.toList_none, List.foldl_nil]
    | some client =>
      simp only [Option.bind_some, hget, Option.toList_some, List.foldl_cons, List.foldl_nil, push]

theorem foldl_addCandidate (T : ClientTable) (nicAf : ℕ) (hints : List Hint) :
    ∀ cs, hints.foldl (fun cs hint => addCandidate T nicAf hint.host cs) cs =
      (hints.filterMap fun hint => T.at? nicAf hint.host).foldl push cs := by
  induction hints with
  | nil => exact fun cs => rfl
  | cons hint hints ih =>
    intro cs
    rw [List.foldl_cons, ih, addCandidate_eq, List.filterMap_cons]
    cases T.at? nicAf hint.host <;> rfl

theorem addServer_eq_ok_iff {server : Server} {cs cs' : List BrokerClient} :
    addServer P T server cs = .ok cs' ↔
      server.Named ∧ cs' = (server.clientAt P T).toList.foldl push cs := by
  unfold addServer Server.Named Server.clientAt
  cases server.af with
  | none => simp
  | some af =>
    cases server.host with
    | none => simp
    | some host => simp [addCandidate_eq, eq_comm]

theorem foldlM_addServer_eq_ok_iff {cs' : List BrokerClient} :
    ∀ {us : List (Server × σ)} {cs : List BrokerClient},
      us.foldlM (fun cs server => addServer P T server.1 cs) cs = Except.ok cs' ↔
        (∀ u ∈ us, u.1.Named) ∧ cs' = (ranked P T us).foldl push cs
  | [], cs => by
    simp only [List.foldlM_nil, List.not_mem_nil, false_implies, implies_true, true_and]
    exact ⟨fun h => (Except.ok.inj h).symm, fun h => congrArg Except.ok h.symm⟩
  | u :: us, cs => by
    have hstep : (ranked P T (u :: us)).foldl push cs =
        (ranked P T us).foldl push ((u.1.clientAt P T).toList.foldl push cs) := by
      rw [ranked, List.filterMap_cons]
      cases u.1.clientAt P T <;> rfl
    rw [List.foldlM_cons, Fallible.bind_eq_ok, List.forall_mem_cons, hstep]
    constructor
    · rintro ⟨cs₁, hcs₁, h⟩
      obtain ⟨hnamed, rfl⟩ := addServer_eq_ok_iff.mp hcs₁
      obtain ⟨hrest, rfl⟩ := foldlM_addServer_eq_ok_iff.mp h
      exact ⟨⟨hnamed, hrest⟩, rfl⟩
    · rintro ⟨⟨hnamed, hrest⟩, rfl⟩
      exact ⟨_, addServer_eq_ok_iff.mpr ⟨hnamed, rfl⟩,
        foldlM_addServer_eq_ok_iff.mpr ⟨hrest, rfl⟩⟩

theorem walkCandidates_eq_ok_iff {us : List (Server × σ)} {cs : List BrokerClient} :
    walkCandidates P T hints nicAf us = .ok cs ↔
      (∀ u ∈ us, u.1.Named) ∧ cs = distinct (hinted P T hints nicAf ++ ranked P T us) := by
  simp only [walkCandidates, foldl_addCandidate]
  rw [foldlM_addServer_eq_ok_iff, distinct, List.foldl_append]
  rfl

theorem mem_hinted {c : BrokerClient} (h : c ∈ hinted P T hints nicAf) :
    ∃ hint ∈ hints, P.ianaToAf hint.af = nicAf ∧ T.at? nicAf hint.host = some c := by
  obtain ⟨hint, hhint, hc⟩ := List.mem_filterMap.mp h
  obtain ⟨hmem, haf⟩ := List.mem_filter.mp hhint
  exact ⟨hint, hmem, of_decide_eq_true haf, hc⟩

theorem mem_ranked {us : List (Server × σ)} {c : BrokerClient} (h : c ∈ ranked P T us) :
    ∃ u ∈ us, ∃ af host, u.1.af = some af ∧ u.1.host = some host ∧
      T.at? (P.ianaToAf af) host = some c := by
  obtain ⟨u, hu, hc⟩ := List.mem_filterMap.mp h
  obtain ⟨af, haf, hc⟩ := Option.bind_eq_some_iff.mp hc
  obtain ⟨host, hhost, hc⟩ := Option.bind_eq_some_iff.mp hc
  exact ⟨u, hu, af, host, haf, hhost, hc⟩

end Sidewire
