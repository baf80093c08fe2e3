import Mathlib.Data.Nat.Size
import Sidewire.Discovery.Ranking
import Sidewire.Lib.Fallible

/-! # The discovery walk

For each supported family up to ten ranked brokers race to connect, and the
first few to complete become the destination's clients. Which those are is up
to the race, so two hosts with one ranking need not find a common broker.
-/

namespace Sidewire

/-- A client of the router, told apart by its place in the client table. -/
structure BrokerClient where
  af : ℕ
  host : String
  port : ℕ
  deriving DecidableEq, Repr

abbrev ClientTable := PyDict ℕ (PyDict String BrokerClient)

/-- `Router.ensure_client`: the client at a place of the table, made on first use. -/
def ensureClient (supports : ℕ → Bool) (clients : ClientTable) (af : ℕ) (host : String)
    (port : ℕ) : Except PyExc (ClientTable × Option BrokerClient) :=
  if ¬ supports af then .ok (clients, none)
  else
    match clients.get? af with
    | none => .error (.keyError (toString af))
    | some table =>
      match table.get? host with
      | some existing => .ok (clients, some existing)
      | none =>
        let client : BrokerClient := { af, host, port }
        .ok (clients.set af (table.set host client), some client)

/-- The client table as `Router.__init__` fills it from the pool. -/
def initClients (P : Platform) (nic : List Family) (pool : BrokerPool) :
    Except PyExc ClientTable :=
  let clients : ClientTable := ((∅ : ClientTable).set IP4 ∅).set P.ip6 ∅
  [Family.v4, Family.v6].foldlM (fun clients fam =>
    if fam ∉ nic then .ok clients
    else (pool.hosts fam).entries.foldlM (fun clients e => do
      let (clients, _) ← ensureClient (fun af => af ∈ nic.map P.number) clients (P.number fam) e.1
        e.2.port
      return clients) clients) clients

structure Hint where
  af : ℕ
  host : String

def Platform.ianaToAf (P : Platform) (af : ℕ) : ℕ :=
  if af = IP4 then IP4 else if af = 10 then P.ip6 else af

def addCandidate (clientsMap : ClientTable) (af : ℕ) (host : String)
    (candidates : List BrokerClient) : List BrokerClient :=
  match clientsMap.get? af with
  | none => candidates
  | some table =>
    match table.get? host with
    | none => candidates
    | some client => if client ∈ candidates then candidates else candidates ++ [client]

section Walk

variable {KP σ : Type} [LinearOrder σ] (P : Platform) (clientsMap : ClientTable)
  (cachedHints : List Hint)

def addServer (server : Server) (candidates : List BrokerClient) :
    Except PyExc (List BrokerClient) :=
  match server.af, server.host with
  | none, _ => .error (.keyError "af")
  | some _, none => .error (.keyError "host")
  | some af, some host => .ok (addCandidate clientsMap (P.ianaToAf af) host candidates)

def walkCandidates (nicAf : ℕ) (sortedServers : List (Server × σ)) :
    Except PyExc (List BrokerClient) :=
  let hinted := cachedHints.filter fun hint => P.ianaToAf hint.af = nicAf
  let candidates := hinted.foldl (fun cs hint => addCandidate clientsMap nicAf hint.host cs) []
  sortedServers.foldlM (fun cs server => addServer P clientsMap server.1 cs) candidates

/-- How many good brokers a family wants: none below two candidates, then one for each power of
two, up to three. -/
def needed (servNo : ℕ) : ℕ := min 3 (max 0 (servNo.size - 1))

/-- The results of the racing connects that complete before the cap, in the order they complete:
an exception, no client, or the client itself. -/
abbrev Race := ℚ → ℕ → List BrokerClient → List (BrokerClient × Except PyExc Bool)

def collect (needed : ℕ) :
    List (BrokerClient × Except PyExc Bool) → List BrokerClient → Except PyExc (List BrokerClient)
  | [], afFound => .ok afFound
  | (_, .error exc) :: _, _ => .error exc
  | (_, .ok false) :: rest, afFound => collect needed rest afFound
  | (client, .ok true) :: rest, afFound =>
    if (afFound ++ [client]).length ≥ needed then .ok (afFound ++ [client])
    else collect needed rest (afFound ++ [client])

def walkAf (race : Race) (cap : ℚ) (nicAf : ℕ) (sortedServers : List (Server × σ)) :
    Except PyExc (List BrokerClient) := do
  let candidateClients ← walkCandidates P clientsMap cachedHints nicAf sortedServers
  let needed := needed candidateClients.length
  if needed = 0 then return []
  else collect needed (race cap nicAf (candidateClients.take 10)) []

/-- The walks of the families run side by side, and their clients are put together in the order
of the buckets. A walk that finds nothing anywhere is repeated once under a cap of four seconds
if the first one was shorter. -/
def getDestClients (A : Aio KP) (rendezvousScore : Bytes → Bytes → Bytes → σ) (nic : List Family)
    (destPubHex : String) (pool : BrokerPool) (walkCap : ℚ) (race : Race) :
    Except PyExc (List BrokerClient) := do
  let afBuckets ← rendezvousHash A rendezvousScore (nic.map P.number) destPubHex (pool.servers P)
  let perAf ← afBuckets.entries.mapM fun e => walkAf P clientsMap cachedHints race walkCap e.1 e.2
  if perAf.flatten = [] ∧ walkCap < 4 then do
    let perAf ← afBuckets.entries.mapM fun e => walkAf P clientsMap cachedHints race 4 e.1 e.2
    return perAf.flatten
  else return perAf.flatten

end Walk

/-- The number of a family in the broker database. -/
def Family.iana : Family → ℕ
  | .v4 => IP4
  | .v6 => 10

/-- A pool as `get_mqtt_server_list` builds it: every entry names its own host and family. -/
structure KeyedPool extends BrokerPool where
  keyed : ∀ fam, ∀ e ∈ (toBrokerPool.hosts fam).entries,
    e.2.host = some e.1 ∧ e.2.af = some fam.iana

def Seeded (P : Platform) (nic : List Family) (pool : BrokerPool) (clientsMap : ClientTable) :
    Prop :=
  ∀ fam ∈ nic, ∃ table, clientsMap.get? (P.number fam) = some table ∧
    ∀ e ∈ (pool.hosts fam).entries, table.get? e.1 = some ⟨P.number fam, e.1, e.2.port⟩

/-- Every broker is connectable: all racing connects complete with a client before the cap. -/
def AllConnect (race : Race) : Prop :=
  ∀ cap af racers, (race cap af racers).Perm (racers.map fun client => (client, .ok true))

section Seeded

variable {P : Platform} {nic : List Family} {af : ℕ}

theorem exists_foldlM_ensureClient (supports : ℕ → Bool) (hsup : supports af = true) :
    ∀ (es : List (String × Server)) (T : ClientTable) (table : PyDict String BrokerClient),
      (es.map Prod.fst).Nodup → T.get? af = some table → (∀ e ∈ es, table.get? e.1 = none) →
      ∃ T' table', es.foldlM (fun clients e => do
          let (clients, _) ← ensureClient supports clients af e.1 e.2.port
          return clients) T = .ok T' ∧ T'.get? af = some table' ∧
        (∀ e ∈ es, table'.get? e.1 = some ⟨af, e.1, e.2.port⟩) ∧
        (∀ host ∉ es.map Prod.fst, table'.get? host = table.get? host) ∧
        ∀ af' ≠ af, T'.get? af' = T.get? af'
  | [], T, table, _, hT, _ => ⟨T, table, rfl, hT, by simp, by simp, by simp⟩
  | e :: es, T, table, hn, hT, hnew => by
    rw [List.map_cons, List.nodup_cons] at hn
    have hmake : ensureClient supports T af e.1 e.2.port =
        .ok (T.set af (table.set e.1 ⟨af, e.1, e.2.port⟩), some ⟨af, e.1, e.2.port⟩) := by
      simp only [ensureClient, hsup, not_true_eq_false, if_false, hT,
        hnew e (List.mem_cons_self ..)]
    obtain ⟨T', table', hfold, hT', hes, hrest, hother⟩ :=
      exists_foldlM_ensureClient supports hsup es
        (T.set af (table.set e.1 ⟨af, e.1, e.2.port⟩)) (table.set e.1 ⟨af, e.1, e.2.port⟩) hn.2
        (PyDict.get?_set_self _ _ _) (by
          intro e' he'
          have hne : e'.1 ≠ e.1 := fun heq => hn.1 (heq ▸ List.mem_map_of_mem he')
          rw [PyDict.get?_set_ne hne]
          exact hnew e' (List.mem_cons_of_mem e he'))
    refine ⟨T', table', ?_, hT', ?_, ?_, ?_⟩
    · rw [List.foldlM_cons, hmake]
      exact hfold
    · intro e' he'
      rcases List.mem_cons.mp he' with rfl | he'
      · rw [hrest _ hn.1, PyDict.get?_set_self]
      · exact hes e' he'
    · intro host hhost
      rw [List.map_cons, List.mem_cons, not_or] at hhost
      rw [hrest host hhost.2, PyDict.get?_set_ne hhost.1]
    · intro af' hne
      rw [hother af' hne, PyDict.get?_set_ne hne]

theorem seeded_initClients (P : Platform) (nic : List Family) (pool : BrokerPool) :
    ∃ T, initClients P nic pool = .ok T ∧ Seeded P nic pool T := by
  have hfamily : ∀ (fam : Family) (T : ClientTable), T.get? (P.number fam) = some ∅ →
      ∃ T', (if fam ∉ nic then .ok T
        else (pool.hosts fam).entries.foldlM (fun clients e => do
          let (clients, _) ← ensureClient (fun af => af ∈ nic.map P.number) clients
            (P.number fam) e.1 e.2.port
          return clients) T : Except PyExc ClientTable) = .ok T' ∧
        (fam ∈ nic → ∃ table, T'.get? (P.number fam) = some table ∧
          ∀ e ∈ (pool.hosts fam).entries,
            table.get? e.1 = some ⟨P.number fam, e.1, e.2.port⟩) ∧
        ∀ af ≠ P.number fam, T'.get? af = T.get? af := by
    intro fam T hT
    by_cases hfam : fam ∈ nic
    · obtain ⟨T', table', hfold, hT', hes, -, hother⟩ := exists_foldlM_ensureClient
        (fun af => af ∈ nic.map P.number) (by simpa using ⟨fam, hfam, rfl⟩) _ _ _
        (pool.hosts fam).nodup hT (by simp)
      exact ⟨T', by rw [if_neg (not_not.mpr hfam), hfold], fun _ => ⟨table', hT', hes⟩, hother⟩
    · exact ⟨T, if_pos hfam, fun h => absurd h hfam, fun _ _ => rfl⟩
  obtain ⟨T₄, h₄, hs₄, hother₄⟩ := hfamily .v4 (((∅ : ClientTable).set IP4 ∅).set P.ip6 ∅) (by
    rw [Platform.number, PyDict.get?_set_ne P.ip6_ne.symm, PyDict.get?_set_self])
  obtain ⟨T₆, h₆, hs₆, hother₆⟩ := hfamily .v6 T₄ (by
    rw [Platform.number, hother₄ _ P.ip6_ne, PyDict.get?_set_self])
  refine ⟨T₆, ?_, ?_⟩
  · simp only [initClients, List.foldlM_cons, List.foldlM_nil, h₄]
    exact congrArg (fun r => r >>= pure) h₆
  · intro fam hfam
    cases fam with
    | v4 =>
      obtain ⟨table, htable, hes⟩ := hs₄ hfam
      exact ⟨table, (hother₆ _ P.ip6_ne.symm).trans htable, hes⟩
    | v6 => exact hs₆ hfam

end Seeded

section Needed

variable {n : ℕ}

theorem needed_eq_zero (h : n < 2) : needed n = 0 := by
  have : n.size ≤ 1 := Nat.size_le.mpr (by simpa using h)
  rw [needed]
  omega

theorem needed_pos (h : 2 ≤ n) : 0 < needed n := by
  have : 1 < n.size := Nat.lt_size.mpr (by simpa using h)
  rw [needed]
  omega

theorem two_mul_needed_le (h : 2 ≤ n) : 2 * needed n ≤ min n 10 := by
  have hpos := needed_pos h
  have hpow : 2 ^ needed n ≤ n := by
    apply Nat.lt_size.mp
    have : 1 < n.size := Nat.lt_size.mpr (by simpa using h)
    rw [needed]
    omega
  have hle : needed n ≤ 3 := min_le_left _ _
  interval_cases needed n <;> omega

end Needed

section Spec

variable {KP σ : Type} [LinearOrder σ] {A : Aio KP} {score : Bytes → Bytes → Bytes → σ}
  {P : Platform} {clientsMap : ClientTable} {nic : List Family} {pool : KeyedPool}
  {key : Bytes} {fam : Family} {race : Race} {cap : ℚ}

theorem map_fst_connected (l : List BrokerClient) :
    (l.map fun client => (client, (.ok true : Except PyExc Bool))).map Prod.fst = l := by
  rw [List.map_map]
  exact List.map_id l

theorem collect_of_outcome {m : ℕ} (live : BrokerClient → Bool)
    (l : List (BrokerClient × Except PyExc Bool)) (acc : List BrokerClient)
    (hl : ∀ r ∈ l, r.2 = .ok (live r.1)) (h : acc.length < m) :
    collect m l acc = .ok (acc ++ ((l.map Prod.fst).filter live).take (m - acc.length)) := by
  induction l generalizing acc with
  | nil => simp [collect]
  | cons r l ih =>
    obtain ⟨client, result⟩ := r
    have hlive : result = .ok (live client) := hl _ (List.mem_cons_self ..)
    have hrest := fun r hr => hl r (List.mem_cons_of_mem (client, result) hr)
    rw [hlive, List.map_cons]
    cases hc : live client with
    | false =>
      rw [collect, ih _ hrest h, List.filter_cons_of_neg (by simp [hc])]
    | true =>
      obtain ⟨k, hk⟩ : ∃ k, m - acc.length = k + 1 := ⟨m - acc.length - 1, by omega⟩
      rw [collect, hk, List.filter_cons_of_pos (by simp [hc]), List.take_succ_cons]
      simp only [List.length_append, List.length_singleton]
      split_ifs with hlen
      · obtain rfl : k = 0 := by omega
        simp
      · rw [ih _ hrest (by rw [List.length_append, List.length_singleton]; omega)]
        have : m - (acc ++ [client]).length = k := by
          rw [List.length_append, List.length_singleton]
          omega
        rw [this, List.append_assoc]
        rfl

theorem collect_of_all_connect {m : ℕ} (l acc : List BrokerClient) (h : acc.length < m) :
    collect m (l.map fun client => (client, .ok true)) acc = .ok (acc ++ l.take (m - acc.length)) := by
  rw [collect_of_outcome (fun _ => true) _ acc (by simp) h, map_fst_connected, List.filter_true]

def clientOf (af : ℕ) (server : Server) : BrokerClient := ⟨af, server.host.getD "", server.port⟩

def candidates (A : Aio KP) (score : Bytes → Bytes → Bytes → σ) (P : Platform) (pool : BrokerPool)
    (key : Bytes) (fam : Family) : List BrokerClient :=
  (bucket A score (P.number fam) key (pool.hosts fam)).map fun u => clientOf (P.number fam) u.1

theorem mem_hosts_of_mem_bucket {u : Server × σ} {hosts : PyDict String Server} {af : ℕ}
    (h : u ∈ bucket A score af key hosts) : ∃ e ∈ hosts.entries, e.2 = u.1 := by
  have := (bucket_perm A score af key hosts).subset (List.mem_map_of_mem h)
  obtain ⟨e, he, hu⟩ := List.mem_map.mp this
  exact ⟨e, he, hu⟩

theorem ianaToAf_iana (P : Platform) (fam : Family) : P.ianaToAf fam.iana = P.number fam := by
  cases fam <;> rfl

theorem length_candidates : (candidates A score P pool.toBrokerPool key fam).length =
    (pool.hosts fam).entries.length := by
  rw [candidates, List.length_map, bucket, List.length_insertionSort, List.length_map]

theorem nodup_candidates (A : Aio KP) (score : Bytes → Bytes → Bytes → σ) (P : Platform)
    (pool : KeyedPool) (key : Bytes) (fam : Family) :
    ((candidates A score P pool.toBrokerPool key fam).map BrokerClient.host).Nodup := by
  have hperm : ((candidates A score P pool.toBrokerPool key fam).map BrokerClient.host).Perm
      (pool.hosts fam).keys := by
    have h := (bucket_perm A score (P.number fam) key (pool.hosts fam)).map
      fun server : Server => server.host.getD ""
    simp only [List.map_map] at h
    rw [candidates, List.map_map]
    apply h.trans
    rw [PyDict.keys]
    apply List.Perm.of_eq
    apply List.map_congr_left
    intro e he
    simp [(pool.keyed fam e he).1]
  exact hperm.nodup_iff.mpr (pool.hosts fam).nodup_keys

theorem walkCandidates_eq (A : Aio KP) (score : Bytes → Bytes → Bytes → σ) (key : Bytes)
    (hT : Seeded P nic pool.toBrokerPool clientsMap) (hfam : fam ∈ nic) :
    walkCandidates P clientsMap [] (P.number fam)
      (bucket A score (P.number fam) key (pool.hosts fam)) =
      .ok (candidates A score P pool.toBrokerPool key fam) := by
  have hnodup := nodup_candidates A score P pool key fam
  have hmem : ∀ u ∈ bucket A score (P.number fam) key (pool.hosts fam),
      ∃ e ∈ (pool.hosts fam).entries, e.2 = u.1 := fun u => mem_hosts_of_mem_bucket
  rw [candidates] at hnodup ⊢
  rw [walkCandidates]
  simp only [List.filter_nil, List.foldl_nil]
  generalize bucket A score (P.number fam) key (pool.hosts fam) = us at hnodup hmem ⊢
  -- the loop appends the clients of the servers still to come
  have hloop : ∀ cs : List BrokerClient,
      ((cs ++ us.map fun u => clientOf (P.number fam) u.1).map BrokerClient.host).Nodup →
      us.foldlM (fun cs server => addServer P clientsMap server.1 cs) cs =
      Except.ok (cs ++ us.map fun u => clientOf (P.number fam) u.1) := by
    clear hnodup
    induction us with
    | nil => intro cs _; simp; rfl
    | cons u us ih =>
      intro cs hn
      obtain ⟨e, he, hu⟩ := hmem u (List.mem_cons_self ..)
      obtain ⟨hhost, haf⟩ := pool.keyed fam e he
      rw [hu] at hhost haf
      obtain ⟨table, htable, hget⟩ := hT fam hfam
      have hadd : addCandidate clientsMap (P.number fam) e.1 cs =
          cs ++ [clientOf (P.number fam) u.1] := by
        have hclient : clientOf (P.number fam) u.1 = ⟨P.number fam, e.1, e.2.port⟩ := by
          rw [clientOf, hhost, hu]
          rfl
        have hnew : clientOf (P.number fam) u.1 ∉ cs := by
          intro hin
          rw [List.map_append, List.map_cons, List.map_cons] at hn
          exact (List.nodup_append.mp hn).2.2 _ (List.mem_map_of_mem hin) _
            (List.mem_cons_self ..) rfl
        rw [hclient] at hnew ⊢
        simp only [addCandidate, htable, hget e he, hnew, if_false]
      have hserver : addServer P clientsMap u.1 cs =
          .ok (cs ++ [clientOf (P.number fam) u.1]) := by
        simp only [addServer, haf, hhost, ianaToAf_iana, hadd]
      rw [List.foldlM_cons, hserver]
      have := ih (fun w hw => hmem w (List.mem_cons_of_mem u hw))
        (cs ++ [clientOf (P.number fam) u.1]) (by simpa using hn)
      rw [List.append_assoc] at this
      exact this
  exact hloop [] (by simpa using hnodup)

/-- The clients a family's walk finds when all racers connect. -/
def found (A : Aio KP) (score : Bytes → Bytes → Bytes → σ) (P : Platform) (pool : BrokerPool)
    (key : Bytes) (race : Race) (cap : ℚ) (fam : Family) : List BrokerClient :=
  ((race cap (P.number fam) ((candidates A score P pool key fam).take 10)).map Prod.fst).take
    (needed (pool.hosts fam).entries.length)

theorem walkAf_eq (hT : Seeded P nic pool.toBrokerPool clientsMap) (hfam : fam ∈ nic)
    (hrace : AllConnect race) :
    walkAf P clientsMap [] race cap (P.number fam)
      (bucket A score (P.number fam) key (pool.hosts fam)) =
      .ok (found A score P pool.toBrokerPool key race cap fam) := by
  have hperm := hrace cap (P.number fam)
    ((candidates A score P pool.toBrokerPool key fam).take 10)
  have hall : race cap (P.number fam) ((candidates A score P pool.toBrokerPool key fam).take 10) =
      ((race cap (P.number fam) ((candidates A score P pool.toBrokerPool key fam).take 10)).map
        Prod.fst).map fun client => (client, .ok true) := by
    rw [List.map_map]
    apply Eq.symm
    rw [List.map_congr_left (g := id), List.map_id]
    intro r hr
    obtain ⟨client, -, rfl⟩ := List.mem_map.mp (hperm.subset hr)
    rfl
  simp only [walkAf, walkCandidates_eq A score key hT hfam]
  change (if needed (candidates A score P pool.toBrokerPool key fam).length = 0 then
    Except.ok [] else collect _ _ []) = _
  rw [length_candidates, found]
  split_ifs with hneed
  · rw [hneed, List.take_zero]
  · rw [hall, collect_of_all_connect _ _ (Nat.pos_of_ne_zero hneed), List.map_map]
    simp [Function.comp_def]

theorem mem_entries_buckets {pool : BrokerPool} {d : PyDict ℕ (List (Server × σ))}
    (hd : buckets A score P nic key pool ∅ = d) {e : ℕ × List (Server × σ)}
    (he : e ∈ d.entries) : ∃ fam ∈ nic, e = (P.number fam,
      bucket A score (P.number fam) key (pool.hosts fam)) := by
  have hkeys : ∀ (fams : List Family) (d : PyDict ℕ (List (Server × σ))),
      ∀ af ∈ (buckets A score P fams key pool d).keys,
        af ∈ d.keys ∨ ∃ fam ∈ fams, af = P.number fam := by
    intro fams
    induction fams with
    | nil => exact fun d af h => Or.inl h
    | cons fam fams ih =>
      intro d af h
      rcases ih _ af h with h | ⟨fam', hfam', rfl⟩
      · rcases PyDict.mem_keys_set.mp h with rfl | h
        · exact Or.inr ⟨fam, List.mem_cons_self .., rfl⟩
        · exact Or.inl h
      · exact Or.inr ⟨fam', List.mem_cons_of_mem fam hfam', rfl⟩
  subst hd
  rcases hkeys nic ∅ e.1 (List.mem_map_of_mem he) with h | ⟨fam, hfam, hnum⟩
  · cases h
  · have hget := PyDict.get?_eq_some_iff.mpr he
    rw [hnum, get?_buckets hfam ∅, Option.some.injEq] at hget
    exact ⟨fam, hfam, Prod.ext hnum hget.symm⟩

theorem getDestClients_eq {pool : BrokerPool} {pubKeyHex : String} {hints : List Hint}
    (score : Bytes → Bytes → Bytes → σ) (hkey : A.hToB pubKeyHex = .ok key) :
    getDestClients P clientsMap hints A score nic pubKeyHex pool cap race = (do
      let perAf ← (buckets A score P nic key pool ∅).entries.mapM fun e =>
        walkAf P clientsMap hints race cap e.1 e.2
      if perAf.flatten = [] ∧ cap < 4 then do
        let perAf ← (buckets A score P nic key pool ∅).entries.mapM fun e =>
          walkAf P clientsMap hints race 4 e.1 e.2
        return perAf.flatten
      else return perAf.flatten) := by
  simp only [getDestClients, rendezvousHash_eq hkey]
  rfl

theorem getDestClients_spec (score : Bytes → Bytes → Bytes → σ) (cap : ℚ)
    (hkey : A.hToB (A.toH key) = .ok key)
    (hT : Seeded P nic pool.toBrokerPool clientsMap) (hrace : AllConnect race) (hfam : fam ∈ nic)
    (h2 : 2 ≤ (pool.hosts fam).entries.length) :
    ∃ clients, getDestClients P clientsMap [] A score nic (A.toH key) pool.toBrokerPool cap race =
      .ok clients ∧ ∀ c, c ∈ clients ↔ ∃ fam ∈ nic,
        c ∈ found A score P pool.toBrokerPool key race cap fam := by
  have hwalk : ∀ e ∈ (buckets A score P nic key pool.toBrokerPool ∅).entries, ∃ fam ∈ nic,
      e = (P.number fam, bucket A score (P.number fam) key (pool.hosts fam)) :=
    fun e he => mem_entries_buckets rfl he
  obtain ⟨perAf, hperAf, hmem⟩ := Fallible.exists_mapM_eq_ok
    (f := fun e => walkAf P clientsMap [] race cap e.1 e.2)
    (l := (buckets A score P nic key pool.toBrokerPool ∅).entries) (by
      intro e he
      obtain ⟨fam', hfam', rfl⟩ := hwalk e he
      exact ⟨_, walkAf_eq hT hfam' hrace⟩)
  have hclients : ∀ c, c ∈ perAf.flatten ↔ ∃ fam ∈ nic,
      c ∈ found A score P pool.toBrokerPool key race cap fam := by
    intro c
    simp only [List.mem_flatten, hmem]
    constructor
    · rintro ⟨cs, ⟨e, he, hcs⟩, hc⟩
      obtain ⟨fam', hfam', rfl⟩ := hwalk e he
      rw [walkAf_eq hT hfam' hrace, Except.ok.injEq] at hcs
      exact ⟨fam', hfam', hcs ▸ hc⟩
    · rintro ⟨fam', hfam', hc⟩
      exact ⟨_, ⟨_, PyDict.get?_eq_some_iff.mp (get?_buckets hfam' ∅),
        walkAf_eq hT hfam' hrace⟩, hc⟩
  -- the family with two brokers finds one, so that the walk is not repeated
  have hne : perAf.flatten ≠ [] := by
    have hpos := needed_pos h2
    have hlen : 0 < (found A score P pool.toBrokerPool key race cap fam).length := by
      rw [found, List.length_take, List.length_map, (hrace _ _ _).length_eq, List.length_map,
        List.length_take, length_candidates]
      omega
    obtain ⟨c, hc⟩ := List.exists_mem_of_length_pos hlen
    exact List.ne_nil_of_mem ((hclients c).mpr ⟨fam, hfam, hc⟩)
  refine ⟨perAf.flatten, ?_, hclients⟩
  rw [getDestClients_eq score hkey, hperAf]
  change (if perAf.flatten = [] ∧ cap < 4 then _ else Except.ok perAf.flatten) = _
  rw [if_neg fun h => hne h.1]

theorem found_subset {c : BrokerClient} (hrace : AllConnect race)
    (h : c ∈ found A score P pool.toBrokerPool key race cap fam) :
    c ∈ (candidates A score P pool.toBrokerPool key fam).take 10 := by
  have h := List.mem_of_mem_take h
  have hperm := (hrace cap (P.number fam)
    ((candidates A score P pool.toBrokerPool key fam).take 10)).map Prod.fst
  rw [map_fst_connected] at hperm
  exact hperm.subset h

theorem af_of_mem_candidates {c : BrokerClient}
    (h : c ∈ candidates A score P pool.toBrokerPool key fam) : c.af = P.number fam := by
  obtain ⟨u, -, rfl⟩ := List.mem_map.mp h
  rfl

end Spec

section Convergence

variable {KP σ : Type} [LinearOrder σ] {A : Aio KP} {score : Bytes → Bytes → Bytes → σ}
  {P Q : Platform} {nic nic' : List Family} {pool : KeyedPool} {key : Bytes} {fam : Family}

def inOrder : Race := fun _ _ racers => racers.map fun client => (client, .ok true)

def lateAt (hosts : List String) : Race := fun _ _ racers =>
  (racers.filter (fun client => client.host ∉ hosts) ++
    racers.filter (fun client => client.host ∈ hosts)).map fun client => (client, .ok true)

theorem allConnect_inOrder : AllConnect inOrder := fun _ _ _ => List.Perm.refl _

theorem allConnect_lateAt (hosts : List String) : AllConnect (lateAt hosts) := by
  intro cap af racers
  apply List.Perm.map
  have h := List.filter_append_perm (fun client : BrokerClient => decide (client.host ∉ hosts)) racers
  simpa using h

theorem found_lateAt {hosts : List String} {cap : ℚ}
    (h2 : 2 ≤ (pool.hosts fam).entries.length)
    (hlen : hosts.length ≤ needed (pool.hosts fam).entries.length) :
    ∀ c ∈ found A score P pool.toBrokerPool key (lateAt hosts) cap fam, c.host ∉ hosts := by
  have hhalf := two_mul_needed_le h2
  have hracers : ((candidates A score P pool.toBrokerPool key fam).take 10).length =
      min (pool.hosts fam).entries.length 10 := by
    rw [List.length_take, length_candidates, min_comm]
  have hnodup : (((candidates A score P pool.toBrokerPool key fam).take 10).map
      BrokerClient.host).Nodup := by
    rw [List.map_take]
    exact (nodup_candidates A score P pool key fam).sublist (List.take_sublist _ _)
  intro c hc
  rw [found, lateAt, map_fst_connected] at hc
  generalize (candidates A score P pool.toBrokerPool key fam).take 10 = racers
    at hc hracers hnodup
  have hlate : (racers.filter fun client => client.host ∈ hosts).length ≤ hosts.length := by
    rw [← List.length_map (f := BrokerClient.host)]
    apply List.Nodup.length_le_of_subset
    · exact hnodup.sublist (List.filter_sublist.map _)
    · intro host hhost
      obtain ⟨client, hclient, rfl⟩ := List.mem_map.mp hhost
      simpa using (List.mem_filter.mp hclient).2
  have hsum := List.length_eq_length_filter_add (l := racers) fun client => client.host ∈ hosts
  have hearly : needed (pool.hosts fam).entries.length ≤
      (racers.filter fun client => client.host ∉ hosts).length := by
    have : (racers.filter fun client => client.host ∉ hosts).length =
        (racers.filter fun client => !decide (client.host ∈ hosts)).length := by simp
    omega
  rw [List.take_append_of_le_length hearly] at hc
  simpa using (List.mem_filter.mp (List.mem_of_mem_take hc)).2

/-- Whatever the pool and the ranking, a family with at least two brokers lets the connects of
two peers complete in such orders that the peers find no common broker. -/
theorem broker_sets_may_be_disjoint {T T' : ClientTable} {cap cap' : ℚ} (hA : A.Lawful)
    (hT : Seeded P nic pool.toBrokerPool T) (hT' : Seeded Q nic' pool.toBrokerPool T')
    (hfam : fam ∈ nic) (hfam' : fam ∈ nic') (h2 : 2 ≤ (pool.hosts fam).entries.length) :
    ¬ ∀ race race' clients clients', AllConnect race → AllConnect race' →
      getDestClients P T [] A score nic (A.toH key) pool.toBrokerPool cap race = .ok clients →
      getDestClients Q T' [] A score nic' (A.toH key) pool.toBrokerPool cap' race' =
        .ok clients' →
      ∃ c ∈ clients, ∃ c' ∈ clients', c.af = P.number fam ∧ c'.af = Q.number fam ∧
        c.host = c'.host := by
  intro h
  have hhosts : ((found A score P pool.toBrokerPool key inOrder cap fam).map
      BrokerClient.host).length ≤ needed (pool.hosts fam).entries.length := by
    rw [List.length_map, found]
    exact List.length_take_le _ _
  obtain ⟨clients, hclients, hmem⟩ := getDestClients_spec score cap
    (hA.hToB_toH key) hT allConnect_inOrder hfam h2
  obtain ⟨clients', hclients', hmem'⟩ := getDestClients_spec score cap'
    (hA.hToB_toH key) hT' (allConnect_lateAt ((found A score P pool.toBrokerPool key inOrder cap
      fam).map BrokerClient.host)) hfam' h2
  obtain ⟨c, hc, c', hc', haf, haf', hhost⟩ := h _ _ clients clients' allConnect_inOrder
    (allConnect_lateAt _) hclients hclients'
  -- a client of the family's number comes from the family's own walk
  have howner : ∀ {R : Platform} {nic : List Family} {race : Race} {cap : ℚ} {c : BrokerClient},
      AllConnect race → c.af = R.number fam →
      (∃ fam' ∈ nic, c ∈ found A score R pool.toBrokerPool key race cap fam') →
      c ∈ found A score R pool.toBrokerPool key race cap fam := by
    rintro R nic race cap c hrace haf ⟨fam', -, hc⟩
    have := af_of_mem_candidates (List.mem_of_mem_take (found_subset hrace hc))
    rw [haf, R.number_inj] at this
    exact this ▸ hc
  have hin := howner allConnect_inOrder haf ((hmem c).mp hc)
  have hin' := howner (allConnect_lateAt _) haf' ((hmem' c').mp hc')
  exact found_lateAt h2 hhosts c' hin' (hhost ▸ List.mem_map_of_mem hin)

def pairPool : KeyedPool where
  v4 := ((∅ : PyDict String Server).set "a" ⟨some IP4, some "a", 1883, none⟩).set "b"
    ⟨some IP4, some "b", 1883, none⟩
  v6 := ∅
  keyed := by
    intro fam e he
    cases fam with
    | v4 =>
      have hall : ∀ e ∈ [("a", (⟨some IP4, some "a", 1883, none⟩ : Server)),
          ("b", ⟨some IP4, some "b", 1883, none⟩)], e.2.host = some e.1 ∧ e.2.af = some IP4 := by
        decide
      exact hall e he
    | v6 => cases he

/-- Peers on Linux and on Windows with a pool of two IPv4 brokers may find no common one. -/
theorem disjoint_sets_pair : ∃ T T' : ClientTable,
    initClients linux [.v4, .v6] pairPool.toBrokerPool = .ok T ∧
    initClients windows [.v4] pairPool.toBrokerPool = .ok T' ∧
    ¬ ∀ race race' clients clients', AllConnect race → AllConnect race' →
      getDestClients linux T [] concrete (fun _ _ host => BigEndian.ofBytes host) [.v4, .v6]
        (concrete.toH [7]) pairPool.toBrokerPool 2 race = .ok clients →
      getDestClients windows T' [] concrete (fun _ _ host => BigEndian.ofBytes host) [.v4]
        (concrete.toH [7]) pairPool.toBrokerPool 2 race' = .ok clients' →
      ∃ c ∈ clients, ∃ c' ∈ clients', c.af = IP4 ∧ c'.af = IP4 ∧ c.host = c'.host := by
  obtain ⟨T, hT, hs⟩ := seeded_initClients linux [.v4, .v6] pairPool.toBrokerPool
  obtain ⟨T', hT', hs'⟩ := seeded_initClients windows [.v4] pairPool.toBrokerPool
  have h4 : Family.v4 ∈ [Family.v4, .v6] := by decide
  have h4' : Family.v4 ∈ [Family.v4] := by decide
  exact ⟨T, T', hT, hT', broker_sets_may_be_disjoint concrete_lawful hs hs' h4 h4' (by decide)⟩

/-- With the two brokers completing in opposite orders, one peer publishes through the first and
the other listens on the second. -/
theorem no_common_broker_pair : ∃ T, initClients linux [.v4] pairPool.toBrokerPool = .ok T ∧
    ∃ race race' clients clients', AllConnect race ∧ AllConnect race' ∧
      getDestClients linux T [] concrete (fun _ _ host => BigEndian.ofBytes host) [.v4]
        (concrete.toH [7]) pairPool.toBrokerPool 2 race = .ok clients ∧
      getDestClients linux T [] concrete (fun _ _ host => BigEndian.ofBytes host) [.v4]
        (concrete.toH [7]) pairPool.toBrokerPool 2 race' = .ok clients' ∧
      clients.map BrokerClient.host = ["a"] ∧ clients'.map BrokerClient.host = ["b"] := by
  refine ⟨((∅ : ClientTable).set IP4 (((∅ : PyDict String BrokerClient).set "a"
    ⟨IP4, "a", 1883⟩).set "b" ⟨IP4, "b", 1883⟩)).set 10 ∅, by decide +kernel, inOrder,
    lateAt ["a"], [⟨IP4, "a", 1883⟩], [⟨IP4, "b", 1883⟩], allConnect_inOrder,
    allConnect_lateAt ["a"], by decide +kernel, by decide +kernel, by decide, by decide⟩

end Convergence

end Sidewire
