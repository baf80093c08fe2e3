import Mathlib.Data.String.Basic
import Sidewire.Discovery.Postcondition
import Sidewire.Lib.KeySort

/-! # The default server list

The broker database gives each server by one record or more, under its family
and transport. A pool is made of the first records, each under its first name or,
without one, its address; of two records with one host the later stays.
-/

namespace Sidewire

structure InfraServer where
  af : Option ℕ
  fqns : List String
  ip : String
  port : ℕ
  deriving DecidableEq, Repr

/-- `INFRA["MQTT"]`: for each family and transport the servers, each with its records. -/
abbrev Infra := PyDict String (PyDict String (List (List InfraServer)))

def Family.txt : Family → String
  | .v4 => "IPv4"
  | .v6 => "IPv6"

/-- The first of the names in order, or the address. -/
def InfraServer.host (server : InfraServer) : String :=
  match KeySort.byKey (fun fqn => fqn) server.fqns with
  | host :: _ => host
  | [] => server.ip

def InfraServer.named (server : InfraServer) : Server where
  af := server.af
  host := some server.host
  port := server.port

def addServerList (servers : PyDict String Server) :
    List InfraServer → Except PyExc (PyDict String Server)
  | [] => .error .indexError
  | server :: _ => .ok (servers.set server.host server.named)

def udpServers (fromInfra : Infra) (fam : Family) : Except PyExc (List (List InfraServer)) :=
  match fromInfra.get? fam.txt with
  | none => .error (.keyError fam.txt)
  | some transports =>
    match transports.get? "UDP" with
    | none => .error (.keyError "UDP")
    | some serverLists => .ok serverLists

def getMqttServerList (fromInfra : Infra) : Except PyExc BrokerPool := do
  let v4 ← (← udpServers fromInfra .v4).foldlM addServerList ∅
  let v6 ← (← udpServers fromInfra .v6).foldlM addServerList ∅
  return { v4, v6 }

/-- The record that stands for a host: the last of the first records that have it. -/
def lastNamed (serverLists : List (List InfraServer)) (host : String) : Option InfraServer :=
  (serverLists.filterMap List.head?).findRev? fun server => server.host = host

def Infra.Stands (fromInfra : Infra) (P : Platform) (fam : Family) (c : BrokerClient) : Prop :=
  ∃ serverLists server, udpServers fromInfra fam = .ok serverLists ∧
    lastNamed serverLists c.host = some server ∧ c = ⟨P.number fam, server.host, server.port⟩

def Infra.Numbered (fromInfra : Infra) : Prop :=
  ∀ fam, ∃ serverLists, udpServers fromInfra fam = .ok serverLists ∧
    ∀ serverList ∈ serverLists, ∃ server rest,
      serverList = server :: rest ∧ server.af = some fam.iana

section Pool

variable {fromInfra : Infra} {serverLists : List (List InfraServer)} {server : InfraServer}
  {servers servers' : PyDict String Server} {host : String} {pool : BrokerPool}

theorem lastNamed_cons (server : InfraServer) (rest : List InfraServer) (host : String) :
    lastNamed ((server :: rest) :: serverLists) host =
      (lastNamed serverLists host).or (if server.host = host then some server else none) := by
  change (server :: serverLists.filterMap List.head?).findRev? _ = _
  rw [List.findRev?, lastNamed]
  cases (serverLists.filterMap List.head?).findRev? fun server => server.host = host <;> simp

theorem host_of_lastNamed (h : lastNamed serverLists host = some server) : server.host = host := by
  rw [lastNamed, List.findRev?_eq_find?_reverse] at h
  simpa using List.find?_some h

theorem mem_of_lastNamed (h : lastNamed serverLists host = some server) :
    ∃ rest, server :: rest ∈ serverLists := by
  rw [lastNamed, List.findRev?_eq_find?_reverse] at h
  have hmem := List.mem_reverse.mp (List.mem_of_find?_eq_some h)
  obtain ⟨serverList, hlist, hhead⟩ := List.mem_filterMap.mp hmem
  cases serverList with
  | nil => cases hhead
  | cons first rest =>
    cases hhead
    exact ⟨rest, hlist⟩

theorem foldlM_addServerList (h : serverLists.foldlM addServerList servers = .ok servers')
    (host : String) : servers'.get? host =
      ((lastNamed serverLists host).map InfraServer.named).or (servers.get? host) := by
  induction serverLists generalizing servers with
  | nil =>
    cases h
    rfl
  | cons serverList serverLists ih =>
    rw [List.foldlM_cons] at h
    obtain ⟨next, hnext, h⟩ := Fallible.bind_eq_ok.mp h
    cases serverList with
    | nil => cases hnext
    | cons server rest =>
      cases hnext
      rw [ih h, PyDict.get?_set, lastNamed_cons]
      cases lastNamed serverLists host with
      | some later => rfl
      | none =>
        by_cases hhost : server.host = host
        · simp [hhost]
        · simp [hhost, Ne.symm hhost]

theorem exists_foldlM_addServerList (servers : PyDict String Server)
    (h : ∀ serverList ∈ serverLists, serverList ≠ []) :
    ∃ servers', serverLists.foldlM addServerList servers = .ok servers' := by
  induction serverLists generalizing servers with
  | nil => exact ⟨servers, rfl⟩
  | cons serverList serverLists ih =>
    rw [List.forall_mem_cons] at h
    obtain ⟨server, rest, rfl⟩ := List.exists_cons_of_ne_nil h.1
    obtain ⟨servers', hrest⟩ := ih (servers.set server.host server.named) h.2
    exact ⟨servers', hrest⟩

theorem get?_hosts (h : getMqttServerList fromInfra = .ok pool) {fam : Family}
    (hlists : udpServers fromInfra fam = .ok serverLists) (host : String) :
    (pool.hosts fam).get? host = (lastNamed serverLists host).map InfraServer.named := by
  obtain ⟨lists₄, hlists₄, h⟩ := Fallible.bind_eq_ok.mp h
  obtain ⟨v4, h₄, h⟩ := Fallible.bind_eq_ok.mp h
  obtain ⟨lists₆, hlists₆, h⟩ := Fallible.bind_eq_ok.mp h
  obtain ⟨v6, h₆, h⟩ := Fallible.bind_eq_ok.mp h
  cases h
  cases fam with
  | v4 =>
    rw [hlists] at hlists₄
    cases hlists₄
    exact (foldlM_addServerList h₄ host).trans (Option.or_none ..)
  | v6 =>
    rw [hlists] at hlists₆
    cases hlists₆
    exact (foldlM_addServerList h₆ host).trans (Option.or_none ..)

theorem exists_keyedPool (h : fromInfra.Numbered) : ∃ pool : KeyedPool,
    getMqttServerList fromInfra = .ok pool.toBrokerPool := by
  have hfamily : ∀ fam, ∃ serverLists servers, udpServers fromInfra fam = .ok serverLists ∧
      serverLists.foldlM addServerList ∅ = .ok servers := by
    intro fam
    obtain ⟨serverLists, hlists, hall⟩ := h fam
    have hne : ∀ serverList ∈ serverLists, serverList ≠ [] := by
      rintro serverList hmem rfl
      obtain ⟨server, rest, heq, -⟩ := hall [] hmem
      cases heq
    obtain ⟨servers, hservers⟩ := exists_foldlM_addServerList ∅ hne
    exact ⟨serverLists, servers, hlists, hservers⟩
  obtain ⟨lists₄, v4, hlists₄, h₄⟩ := hfamily .v4
  obtain ⟨lists₆, v6, hlists₆, h₆⟩ := hfamily .v6
  have hpool : getMqttServerList fromInfra = .ok { v4, v6 } :=
    Fallible.bind_eq_ok.mpr ⟨lists₄, hlists₄, Fallible.bind_eq_ok.mpr ⟨v4, h₄,
      Fallible.bind_eq_ok.mpr ⟨lists₆, hlists₆, Fallible.bind_eq_ok.mpr ⟨v6, h₆, rfl⟩⟩⟩⟩
  refine ⟨⟨{ v4, v6 }, ?_⟩, hpool⟩
  intro fam e he
  obtain ⟨serverLists, hlists, hall⟩ := h fam
  have hget := PyDict.get?_eq_some_iff.mpr he
  rw [get?_hosts hpool hlists] at hget
  obtain ⟨server, hserver, hnamed⟩ := Option.map_eq_some_iff.mp hget
  obtain ⟨rest, hmem⟩ := mem_of_lastNamed hserver
  obtain ⟨first, rest', heq, haf⟩ := hall _ hmem
  cases heq
  rw [← hnamed]
  exact ⟨congrArg some (host_of_lastNamed hserver), haf⟩

end Pool

section Table

variable {P : Platform} {nic : List Family} {pool : BrokerPool} {T : ClientTable} {fam : Family}

theorem initClients_preserves {I : ClientTable → Prop} (h : initClients P nic pool = .ok T)
    (hempty : I (((∅ : ClientTable).set IP4 ∅).set P.ip6 ∅))
    (hmake : ∀ fam ∈ nic, ∀ e ∈ (pool.hosts fam).entries, ∀ T made, I T →
      ensureClient (fun af => af ∈ nic.map P.number) T (P.number fam) e.1 e.2.port = .ok made →
        I made.1) : I T := by
  unfold initClients at h
  apply Fallible.foldlM_preserves _ hempty h
  intro fam _ T T' hT hfamily
  split_ifs at hfamily with hmem
  · apply Fallible.foldlM_preserves _ hT hfamily
    intro e he T T' hT hround
    obtain ⟨⟨T'', c⟩, hmade, hreturn⟩ := Fallible.bind_eq_ok.mp hround
    cases hreturn
    exact hmake fam hmem e he T _ hT hmade
  · cases hfamily
    exact hT

theorem hosts_of_at?_initClients (h : initClients P nic pool = .ok T) {host : String}
    {c : BrokerClient} (hc : T.at? (P.number fam) host = some c) :
    (pool.hosts fam).get? host ≠ none := by
  have hall : ∀ fam host c, T.at? (P.number fam) host = some c →
      (pool.hosts fam).get? host ≠ none := by
    apply initClients_preserves h
    · intro fam host c hc
      rw [ClientTable.at?_set, ClientTable.at?_set] at hc
      split_ifs at hc
      all_goals cases hc
    · intro fam' _ e he T made hT hmade fam host c hc
      unfold ensureClient at hmade
      split_ifs at hmade
      · split at hmade
        · cases hmade
        next table htable =>
          split at hmade
          · cases hmade
            exact hT fam host c hc
          · cases hmade
            rw [ClientTable.at?_set, PyDict.get?_set] at hc
            split_ifs at hc with hnumber hhost
            · rw [P.number_inj.mp hnumber, hhost, PyDict.get?_eq_some_iff.mpr he]
              exact Option.some_ne_none _
            · apply hT fam host c
              rw [hnumber]
              simpa only [ClientTable.at?, htable, Option.bind_some] using hc
            · exact hT fam host c hc
      · cases hmade
        exact hT fam host c hc
  exact hall fam host c hc

theorem at?_initClients (h : initClients P nic pool = .ok T) (hfam : fam ∈ nic) (host : String) :
    T.at? (P.number fam) host =
      ((pool.hosts fam).get? host).map fun server => ⟨P.number fam, host, server.port⟩ := by
  obtain ⟨T', hT', hseeded⟩ := seeded_initClients P nic pool
  cases h.symm.trans hT'
  obtain ⟨table, htable, hes⟩ := hseeded fam hfam
  cases hget : (pool.hosts fam).get? host with
  | none =>
    rw [Option.map_none, Option.eq_none_iff_forall_ne_some]
    exact fun c hc => hosts_of_at?_initClients h hc hget
  | some server =>
    simp only [ClientTable.at?, htable, Option.bind_some]
    exact hes (host, server) (PyDict.get?_eq_some_iff.mp hget)

end Table

namespace Discovery

section Spec

variable {KP σ : Type} [LinearOrder σ] {A : Aio KP} {score : Bytes → Bytes → Bytes → σ}
  {P : Platform} {T : ClientTable} {hints : List Hint} {nic : List Family} {pool : KeyedPool}
  {key : Bytes} {destPubHex : String} {fam : Family} {c : BrokerClient}

theorem mem_contenders_iff (hT : initClients P nic pool.toBrokerPool = .ok T) (hfam : fam ∈ nic) :
    c ∈ contenders P T hints
        (P.number fam, bucket A score (P.number fam) key (pool.hosts fam)) ↔
      c.af = P.number fam ∧ ∃ server, (pool.hosts fam).get? c.host = some server ∧
        c.port = server.port := by
  have hat : ∀ host, T.at? (P.number fam) host = some c ↔ c.host = host ∧ c.af = P.number fam ∧
      ∃ server, (pool.hosts fam).get? c.host = some server ∧ c.port = server.port := by
    intro host
    rw [at?_initClients hT hfam, Option.map_eq_some_iff]
    constructor
    · rintro ⟨server, hget, rfl⟩
      exact ⟨rfl, rfl, server, hget, rfl⟩
    · rintro ⟨rfl, haf, server, hget, hport⟩
      refine ⟨server, hget, ?_⟩
      rw [← haf, ← hport]
  rw [contenders, mem_distinct, List.mem_append]
  constructor
  · rintro (hc | hc)
    · obtain ⟨hint, -, -, hc⟩ := mem_hinted hc
      exact ((hat _).mp hc).2
    · obtain ⟨u, hu, af, host, haf, hhost, hc⟩ := mem_ranked hc
      obtain ⟨e, he, hserver⟩ := mem_hosts_of_mem_bucket hu
      have hkeyed := (pool.keyed fam e he).2
      rw [hserver, haf, Option.some.injEq] at hkeyed
      rw [hkeyed, ianaToAf_iana] at hc
      exact ((hat _).mp hc).2
  · rintro ⟨haf, server, hget, hport⟩
    right
    have he := PyDict.get?_eq_some_iff.mp hget
    obtain ⟨u, hu, hserver⟩ := mem_bucket he A score (P.number fam) key
    obtain ⟨hhost, hfamily⟩ := pool.keyed fam _ he
    apply List.mem_filterMap.mpr
    refine ⟨u, hu, ?_⟩
    rw [hserver, Server.clientAt, hfamily, hhost]
    change T.at? (P.ianaToAf fam.iana) c.host = some c
    rw [ianaToAf_iana]
    exact (hat c.host).mpr ⟨rfl, haf, server, hget, hport⟩

variable {fromInfra : Infra} {walkCap clock : ℚ} {session : BrokerClient → Session}
  {as : List Act} {s : Discovery}

theorem stands_iff (h : getMqttServerList fromInfra = .ok pool.toBrokerPool)
    (hdb : fromInfra.Numbered) :
    fromInfra.Stands P fam c ↔ c.af = P.number fam ∧
      ∃ server, (pool.hosts fam).get? c.host = some server ∧ c.port = server.port := by
  obtain ⟨serverLists, hlists, -⟩ := hdb fam
  simp only [get?_hosts h hlists, Infra.Stands]
  constructor
  · rintro ⟨serverLists', server, hlists', hserver, rfl⟩
    rw [hlists] at hlists'
    cases hlists'
    have hhost := host_of_lastNamed hserver
    exact ⟨rfl, server.named, by rw [hserver]; rfl, rfl⟩
  · rintro ⟨haf, named, hnamed, hport⟩
    obtain ⟨server, hserver, rfl⟩ := Option.map_eq_some_iff.mp hnamed
    refine ⟨serverLists, server, hlists, hserver, ?_⟩
    rw [← haf, host_of_lastNamed hserver]
    exact congrArg (BrokerClient.mk c.af c.host) hport

theorem mem_contenders_of_result
    (hrun : Machine.run step (started P T hints (buckets A score P nic key pool.toBrokerPool ∅)
      walkCap clock session) as = some s) (hnet : ∀ a ∈ as, a.Networked)
    {r : Except AwaitExc (List BrokerClient)} (hr : s.result = some r) :
    ∃ clients, r = .ok clients ∧ ∀ c ∈ clients, ∃ fam ∈ nic, c ∈ contenders P T hints
      (P.number fam, bucket A score (P.number fam) key (pool.hosts fam)) := by
  obtain ⟨hs, hfam⟩ := run_sound (sound_started ..) hrun hnet
  obtain ⟨rfl, hover⟩ := hs.result r hr
  refine ⟨_, rfl, fun c hc => ?_⟩
  obtain ⟨w, hw, hc⟩ := List.mem_flatMap.mp hc
  have hst : w.stage ≠ .collecting := by
    rw [hover w hw]
    exact WalkStage.noConfusion
  have hcand := List.mem_of_mem_take (((hs.walks w hw).postcondition hst).found c hc).1
  have hmem : (w.nicAf, w.candidates) ∈ s.families := List.mem_map_of_mem hw
  rw [hfam, families_started] at hmem
  obtain ⟨e, he, heq⟩ := List.mem_map.mp hmem
  obtain ⟨fam, hfam, rfl⟩ := mem_entries_buckets rfl he
  rw [← (Prod.mk.inj heq).2] at hcand
  exact ⟨fam, hfam, hcand⟩

/-- Over the default list nothing is missing from the records: whatever the hints and the brokers
do, every server is a candidate once in each family that has it, and the call comes to a result
that names servers of the list only. -/
theorem server_list_discovery (P : Platform) (nic : List Family)
    (score : Bytes → Bytes → Bytes → σ) (hints : List Hint) (walkCap clock : ℚ)
    (session : BrokerClient → Session) (hdb : fromInfra.Numbered)
    (hkey : A.hToB destPubHex = .ok key) :
    ∃ pool T s₀, getMqttServerList fromInfra = .ok pool ∧ initClients P nic pool = .ok T ∧
      Discovery.start P T hints A score nic destPubHex pool walkCap clock session = .ok s₀ ∧
      (∀ fam ∈ nic, ∃ candidates, (P.number fam, candidates) ∈ s₀.families ∧ candidates.Nodup ∧
        ∀ c, c ∈ candidates ↔ fromInfra.Stands P fam c) ∧
      ∀ as s, Machine.run step s₀ as = some s → (∀ a ∈ as, a.Networked) →
        (∀ r, s.result = some r → ∃ clients, r = .ok clients ∧
          ∀ c ∈ clients, ∃ fam ∈ nic, fromInfra.Stands P fam c) ∧
        (s.result = none → ∃ bs t, Machine.run step s bs = some t ∧ (∀ b ∈ bs, b.Networked) ∧
          t.result.isSome = true) := by
  obtain ⟨pool, hpool⟩ := exists_keyedPool hdb
  obtain ⟨T, hT, -⟩ := seeded_initClients P nic pool.toBrokerPool
  have hnamed : ∀ fam ∈ nic, ∀ e ∈ (pool.hosts fam).entries, e.2.Named := by
    intro fam _ e he
    obtain ⟨hhost, haf⟩ := pool.keyed fam e he
    exact ⟨by rw [haf]; rfl, by rw [hhost]; rfl⟩
  have hstands : ∀ fam ∈ nic, ∀ c, c ∈ contenders P T hints (P.number fam,
      bucket A score (P.number fam) key (pool.hosts fam)) ↔ fromInfra.Stands P fam c :=
    fun fam hfam c => (mem_contenders_iff hT hfam).trans (stands_iff hpool hdb).symm
  refine ⟨pool.toBrokerPool, T, _, hpool, hT, start_eq score hkey hnamed, ?_, ?_⟩
  · intro fam hfam
    refine ⟨_, ?_, nodup_distinct _, hstands fam hfam⟩
    rw [families_started]
    exact List.mem_map_of_mem (PyDict.get?_eq_some_iff.mp (get?_buckets hfam ∅))
  · intro as s hrun hnet
    constructor
    · intro r hr
      obtain ⟨clients, hclients, hmem⟩ := mem_contenders_of_result hrun hnet hr
      refine ⟨clients, hclients, fun c hc => ?_⟩
      obtain ⟨fam, hfam, hc⟩ := hmem c hc
      exact ⟨fam, hfam, (hstands fam hfam c).mp hc⟩
    · intro hr
      obtain ⟨bs, t, hrun', hsmooth, ht⟩ := exists_result (run_sound (sound_started ..) hrun hnet).1 hr
      exact ⟨bs, t, hrun', fun b hb => (hsmooth b hb).networked, ht⟩

def sampleInfra : Infra :=
  ((∅ : Infra).set "IPv4" ((∅ : PyDict String (List (List InfraServer))).set "UDP"
    [[⟨some 2, ["b", "a"], "1.1.1.1", 1883⟩], [⟨some 2, [], "2.2.2.2", 1884⟩],
      [⟨some 2, ["a"], "3.3.3.3", 1885⟩, ⟨some 2, ["c"], "3.3.3.3", 1886⟩]])).set
    "IPv6" ((∅ : PyDict String (List (List InfraServer))).set "UDP" [])

example : (getMqttServerList sampleInfra).map (fun pool => pool.v4.entries.map Prod.fst) =
    .ok ["a", "2.2.2.2"] := by decide +kernel

theorem numbered_sampleInfra : sampleInfra.Numbered := by
  intro fam
  cases fam with
  | v4 =>
    refine ⟨_, rfl, ?_⟩
    intro serverList hmem
    simp only [List.mem_cons, List.not_mem_nil, or_false] at hmem
    rcases hmem with rfl | rfl | rfl
    · exact ⟨_, _, rfl, rfl⟩
    · exact ⟨_, _, rfl, rfl⟩
    · exact ⟨_, _, rfl, rfl⟩
  | v6 =>
    refine ⟨_, rfl, ?_⟩
    intro serverList hmem
    cases hmem

/-- The later record of the common name is the one that can be returned. -/
theorem server_list_discovery_sample : ∃ pool T s₀, getMqttServerList sampleInfra = .ok pool ∧
    initClients linux [.v4] pool = .ok T ∧
    Discovery.start linux T [] concrete hostValue [.v4] (concrete.toH [7]) pool 2 100 (fun _ => {}) =
      .ok s₀ ∧
    ∃ candidates, (2, candidates) ∈ s₀.families ∧ ⟨2, "a", 1885⟩ ∈ candidates ∧
      ⟨2, "a", 1883⟩ ∉ candidates := by
  obtain ⟨pool, T, s₀, hpool, hT, hstart, hfams, -⟩ := server_list_discovery linux [.v4] hostValue []
    2 100 (fun _ => {}) numbered_sampleInfra (concrete_lawful.hToB_toH [7])
  obtain ⟨candidates, hmem, -, hcand⟩ := hfams .v4 (List.mem_singleton_self _)
  refine ⟨pool, T, s₀, hpool, hT, hstart, candidates, hmem, (hcand _).mpr ⟨_, _, rfl, rfl, ?_⟩, ?_⟩
  · decide +kernel
  · intro hin
    obtain ⟨serverLists, server, hlists, hserver, hc⟩ := (hcand _).mp hin
    cases hlists
    have hlast : lastNamed [[⟨some 2, ["b", "a"], "1.1.1.1", 1883⟩], [⟨some 2, [], "2.2.2.2", 1884⟩],
      [⟨some 2, ["a"], "3.3.3.3", 1885⟩, ⟨some 2, ["c"], "3.3.3.3", 1886⟩]] "a" =
        some ⟨some 2, ["a"], "3.3.3.3", 1885⟩ := by decide +kernel
    cases hlast.symm.trans hserver
    have hport := congrArg BrokerClient.port hc
    cases hport

end Spec

end Discovery

end Sidewire
