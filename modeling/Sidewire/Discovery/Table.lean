import Sidewire.Discovery.Walk
import Sidewire.Lib.Fallible

/-! # The client table

The router keeps one client for each family and host. `ensure_client` finds a
client there or puts a new one there, whatever the port it is asked for.
-/

namespace Sidewire

namespace ClientTable

variable {supports : ℕ → Bool} {clients clients' : ClientTable} {af : ℕ} {host : String} {port : ℕ}
  {c : BrokerClient}

/-- `clients[af][host]`, where it exists. -/
def at? (clients : ClientTable) (af : ℕ) (host : String) : Option BrokerClient :=
  (clients.get? af).bind fun table => table.get? host

def Placed (clients : ClientTable) : Prop :=
  ∀ af host c, clients.at? af host = some c → c.af = af ∧ c.host = host

def Covers (clients : ClientTable) (supports : ℕ → Bool) : Prop :=
  ∀ af, supports af = true → ∃ table, clients.get? af = some table

theorem at?_set (table : PyDict String BrokerClient) (af' : ℕ) (host' : String) :
    ClientTable.at? (clients.set af table) af' host' =
      if af' = af then table.get? host' else clients.at? af' host' := by
  simp only [at?, PyDict.get?_set]
  split_ifs <;> rfl

theorem ensureClient_spec (hcovers : clients.Covers supports) (hsup : supports af = true)
    (host : String) (port : ℕ) : ∃ clients' c,
      ensureClient supports clients af host port = .ok (clients', some c) ∧
      clients'.Covers supports ∧
      (∀ af' host', clients'.at? af' host' =
        if af' = af ∧ host' = host then some c else clients.at? af' host') ∧
      (clients.at? af host = some c ∧ clients' = clients ∨
        clients.at? af host = none ∧ c = ⟨af, host, port⟩ ∧ clients' ≠ clients) := by
  obtain ⟨table, htable⟩ := hcovers af hsup
  have hat : ∀ host', clients.at? af host' = table.get? host' := by
    intro host'
    simp only [at?, htable, Option.bind_some]
  cases hget : table.get? host with
  | some existing =>
    refine ⟨clients, existing, ?_, hcovers, ?_, Or.inl ⟨(hat host).trans hget, rfl⟩⟩
    · simp only [ensureClient, hsup, not_true_eq_false, if_false, htable, hget]
    · intro af' host'
      split_ifs with heq
      · obtain ⟨rfl, rfl⟩ := heq
        exact (hat host').trans hget
      · rfl
  | none =>
    have hnew : ∀ af' host',
        ClientTable.at? (clients.set af (table.set host ⟨af, host, port⟩)) af' host' =
          if af' = af ∧ host' = host then some ⟨af, host, port⟩ else clients.at? af' host' := by
      intro af' host'
      rw [at?_set, PyDict.get?_set]
      split_ifs with haf hhost hboth hboth hboth
      · rfl
      · exact absurd ⟨haf, hhost⟩ hboth
      · exact absurd hboth.2 hhost
      · rw [haf]
        exact (hat host').symm
      · exact absurd hboth.1 haf
      · rfl
    refine ⟨clients.set af (table.set host ⟨af, host, port⟩), ⟨af, host, port⟩, ?_, ?_, hnew,
      Or.inr ⟨(hat host).trans hget, rfl, ?_⟩⟩
    · simp only [ensureClient, hsup, not_true_eq_false, if_false, htable, hget]
    · intro af' hsup'
      rw [PyDict.get?_set]
      split_ifs
      · exact ⟨_, rfl⟩
      · exact hcovers af' hsup'
    · intro heq
      have hsome := hnew af host
      rw [heq, if_pos ⟨rfl, rfl⟩, hat, hget] at hsome
      cases hsome

theorem Placed.ensureClient (h : clients.Placed) {r : Option BrokerClient}
    (hmade : Sidewire.ensureClient supports clients af host port = .ok (clients', r)) :
    clients'.Placed := by
  unfold Sidewire.ensureClient at hmade
  split_ifs at hmade
  · split at hmade
    · cases hmade
    next table htable =>
      split at hmade
      · cases hmade
        exact h
      · cases hmade
        intro af' host' c hc
        rw [at?_set, PyDict.get?_set] at hc
        split_ifs at hc with haf hhost
        · cases hc
          exact ⟨haf.symm, hhost.symm⟩
        · apply h af' host' c
          rw [haf]
          simpa only [at?, htable, Option.bind_some] using hc
        · exact h af' host' c hc
  · cases hmade
    exact h

theorem placed_initClients {P : Platform} {nic : List Family} {pool : BrokerPool}
    (h : initClients P nic pool = .ok clients) : clients.Placed := by
  have hfamily : ∀ (fam : Family) (f : ClientTable → String × Server → Except PyExc ClientTable)
      (T T' : ClientTable), (∀ T e T', f T e = .ok T' →
        ∃ made, Sidewire.ensureClient (fun af => af ∈ nic.map P.number) T (P.number fam) e.1
          e.2.port = .ok made ∧ T' = made.1) →
      T.Placed → (if fam ∉ nic then .ok T else (pool.hosts fam).entries.foldlM f T) = .ok T' →
        T'.Placed := by
    intro fam f T T' hround hT hfold
    split_ifs at hfold
    · apply Fallible.foldlM_preserves _ hT hfold
      intro e _ clients clients' hplaced hstep
      obtain ⟨made, hmade, rfl⟩ := hround clients e clients' hstep
      exact hplaced.ensureClient hmade
    · cases hfold
      exact hT
  have hround : ∀ (fam : Family) (k : ClientTable × Option BrokerClient → Except PyExc ClientTable),
      (∀ made, k made = .ok made.1) → ∀ (T : ClientTable) (e : String × Server) (T' : ClientTable),
      (Sidewire.ensureClient (fun af => af ∈ nic.map P.number) T (P.number fam) e.1 e.2.port >>= k) =
        .ok T' → ∃ made, Sidewire.ensureClient (fun af => af ∈ nic.map P.number) T (P.number fam) e.1
          e.2.port = .ok made ∧ T' = made.1 := by
    intro fam k hk T e T' h
    obtain ⟨made, hmade, h⟩ := Fallible.bind_eq_ok.mp h
    rw [hk made] at h
    cases h
    exact ⟨made, hmade, rfl⟩
  have hempty : ClientTable.Placed (((∅ : ClientTable).set IP4 ∅).set P.ip6 ∅) := by
    intro af host c hc
    rw [at?_set, at?_set] at hc
    split_ifs at hc
    all_goals cases hc
  simp only [initClients, List.foldlM_cons, List.foldlM_nil] at h
  obtain ⟨T₄, h₄, h⟩ := Fallible.bind_eq_ok.mp h
  obtain ⟨T₆, h₆, h⟩ := Fallible.bind_eq_ok.mp h
  cases h
  exact hfamily .v6 _ T₄ _ (hround .v6 _ fun _ => rfl)
    (hfamily .v4 _ _ T₄ (hround .v4 _ fun _ => rfl) hempty h₄) h₆

end ClientTable

end Sidewire
