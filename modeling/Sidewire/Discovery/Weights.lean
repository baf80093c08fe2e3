import Sidewire.Discovery.Ordering

/-! # Weights

A pool may give each broker a weight, and a broker should come before another
whenever its score divided by its weight is smaller. The code sorts by the score
alone: the weights have no effect, so the law holds in a pool exactly if dividing
by the weights never reverses two of its brokers.
-/

namespace Sidewire

open KeySort

variable {KP σ : Type} [Field σ] [LinearOrder σ] {A : Aio KP} {score : Bytes → Bytes → Bytes → σ}
  {af : ℕ} {pubKeyHex : String} {key : Bytes} {hosts hosts' : PyDict String Server}
  {supported : List ℕ} {servers : PyDict ℕ (PyDict String Server)}

def Server.weightOf (server : Server) : ℚ := server.weight.getD 1

def weightedRank (A : Aio KP) (score : Bytes → Bytes → Bytes → σ) (af : ℕ) (key : Bytes)
    (e : String × Server) : σ := rank A score af key e.1 / e.2.weightOf

/-- A broker with a smaller weighted score comes first. -/
def HonoursWeights (A : Aio KP) (score : Bytes → Bytes → Bytes → σ) (af : ℕ) (key : Bytes)
    (hosts : PyDict String Server) (brokers : List (String × Server)) : Prop :=
  ∀ e ∈ hosts.entries, ∀ e' ∈ hosts.entries,
    weightedRank A score af key e < weightedRank A score af key e' → [e, e'].Sublist brokers

/-- Dividing by the weights reverses no two brokers: the one with the smaller weighted score has the
smaller score, or the same score and the earlier place in the pool. -/
def WeightsAgree (A : Aio KP) (score : Bytes → Bytes → Bytes → σ) (af : ℕ) (key : Bytes)
    (hosts : PyDict String Server) : Prop :=
  ∀ e ∈ hosts.entries, ∀ e' ∈ hosts.entries,
    weightedRank A score af key e < weightedRank A score af key e' →
      rank A score af key e.1 < rank A score af key e'.1 ∨
        rank A score af key e.1 = rank A score af key e'.1 ∧ [e, e'].Sublist hosts.entries

theorem honoursWeights_order_iff :
    HonoursWeights A score af key hosts (order A score af key hosts) ↔
      WeightsAgree A score af key hosts := by
  have hnodup : hosts.entries.Nodup := List.Nodup.of_map _ hosts.nodup
  apply forall₂_congr
  intro e he
  apply forall₂_congr
  intro e' he'
  apply imp_congr_right
  intro hlt
  have hne : e ≠ e' := by
    rintro rfl
    exact lt_irrefl _ hlt
  exact pair_sublist_byKey_iff hnodup he he' hne

omit [Field σ] in
theorem map_fst_order (A : Aio KP) (score : Bytes → Bytes → Bytes → σ) (af : ℕ) (key : Bytes)
    (hosts : PyDict String Server) :
    (order A score af key hosts).map Prod.fst = byKey (rank A score af key) hosts.keys :=
  map_byKey Prod.fst (rank A score af key) hosts.entries

/-- The buckets honour the weights of a pool exactly if these agree with its scores, and no change of
the weights moves a broker. -/
theorem rendezvousHash_weights (A : Aio KP) (score : Bytes → Bytes → Bytes → σ)
    (hkey : A.hToB pubKeyHex = .ok key) (h : Ranked supported servers) :
    ∃ d, rendezvousHash A score supported pubKeyHex servers = .ok d ∧
      ∀ af ∈ supported, ∀ hosts, servers.get? af = some hosts →
        d.get? af = some ((order A score af key hosts).map (scored A score af key)) ∧
        (HonoursWeights A score af key hosts (order A score af key hosts) ↔
          WeightsAgree A score af key hosts) ∧
        ∀ hosts' : PyDict String Server, hosts'.keys = hosts.keys →
          (order A score af key hosts').map Prod.fst = (order A score af key hosts).map Prod.fst := by
  obtain ⟨d, hd, hbuckets⟩ := rendezvousHash_spec A score hkey h
  refine ⟨d, hd, ?_⟩
  intro af haf hosts hhosts
  refine ⟨?_, honoursWeights_order_iff, ?_⟩
  · rw [hbuckets af haf hosts hhosts, bucket_eq_order]
  · intro hosts' hkeys
    rw [map_fst_order, map_fst_order, hkeys]

def hostNumber (_af _key host : Bytes) : ℚ := BigEndian.ofBytes host

def heavyB : PyDict String Server :=
  ((∅ : PyDict String Server).set "a" ⟨none, none, 1883, some 1⟩).set "b"
    ⟨none, none, 1883, some 10⟩

def heavyA : PyDict String Server :=
  ((∅ : PyDict String Server).set "a" ⟨none, none, 1883, some 10⟩).set "b"
    ⟨none, none, 1883, some 1⟩

theorem ranked_singleton (haf : af < 256) (hosts : PyDict String Server) :
    Ranked [af] ((∅ : PyDict ℕ (PyDict String Server)).set af hosts) := by
  intro af' haf'
  obtain rfl := List.mem_singleton.mp haf'
  exact ⟨haf, hosts, PyDict.get?_set_self _ _ _⟩

/-- A pool whose weights agree with its scores, and the same order after they are exchanged. -/
theorem rendezvousHash_weights_heavyA : ∃ d, rendezvousHash concrete hostNumber [2]
      (concrete.toH [7]) ((∅ : PyDict ℕ (PyDict String Server)).set 2 heavyA) = .ok d ∧
    d.get? 2 = some ((order concrete hostNumber 2 [7] heavyA).map
      (scored concrete hostNumber 2 [7])) ∧
    HonoursWeights concrete hostNumber 2 [7] heavyA (order concrete hostNumber 2 [7] heavyA) ∧
    (order concrete hostNumber 2 [7] heavyB).map Prod.fst =
      (order concrete hostNumber 2 [7] heavyA).map Prod.fst := by
  obtain ⟨d, hd, hall⟩ := rendezvousHash_weights concrete hostNumber
    (concrete_lawful.hToB_toH [7]) (ranked_singleton (by decide : 2 < 256) heavyA)
  obtain ⟨hget, hiff, hkeys⟩ := hall 2 (by decide) heavyA (PyDict.get?_set_self _ _ _)
  refine ⟨d, hd, hget, hiff.mpr ?_, hkeys heavyB (by decide +kernel)⟩
  have hagree : ∀ e ∈ heavyA.entries, ∀ e' ∈ heavyA.entries,
      weightedRank concrete hostNumber 2 [7] e < weightedRank concrete hostNumber 2 [7] e' →
        rank concrete hostNumber 2 [7] e.1 < rank concrete hostNumber 2 [7] e'.1 := by
    decide +kernel
  exact fun e he e' he' hlt => Or.inl (hagree e he e' he' hlt)

/-- The heavier broker has the smaller weighted score and comes last. -/
theorem not_honoursWeights : (∀ e ∈ heavyB.entries, 0 < e.2.weightOf) ∧
    (∀ e ∈ heavyB.entries, 0 < rank concrete hostNumber 2 [7] e.1) ∧
    (rendezvousHash concrete hostNumber [2] (concrete.toH [7])
      ((∅ : PyDict ℕ (PyDict String Server)).set 2 heavyB)).map
        (fun d => (d.get? 2).map (List.map fun u => u.1.weight)) =
      .ok (some [some 1, some 10]) ∧
    ¬ HonoursWeights concrete hostNumber 2 [7] heavyB
      (order concrete hostNumber 2 [7] heavyB) := by
  refine ⟨by decide +kernel, by decide +kernel, by decide +kernel, ?_⟩
  intro h
  have hlate : ¬ [(("b" : String), (⟨none, none, 1883, some 10⟩ : Server)),
      ("a", ⟨none, none, 1883, some 1⟩)].Sublist (order concrete hostNumber 2 [7] heavyB) := by
    decide +kernel
  exact hlate (h _ (by decide +kernel) _ (by decide +kernel) (by decide +kernel))

end Sidewire
