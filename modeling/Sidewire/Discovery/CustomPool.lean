import Sidewire.Discovery.Table

/-! # Custom pools

The documentation lets a pool give a port and a weight for each host. The client
table is built from such a pool, but the walk reads the family and the host from
the record itself, where nothing has written them. So a walk over a documented
pool raises as soon as a supported family has a broker.
-/

namespace Sidewire

/-- A pool as the documentation describes it: a record has a port and a weight. -/
structure DocumentedPool extends BrokerPool where
  documented : ∀ fam, ∀ e ∈ (toBrokerPool.hosts fam).entries, e.2.af = none ∧ e.2.host = none

section Empty

variable {P : Platform} {nic : List Family} {pool : BrokerPool} {T : ClientTable}

theorem at?_initClients_of_empty (hempty : ∀ fam ∈ nic, (pool.hosts fam).entries = [])
    (hT : initClients P nic pool = .ok T) (af : ℕ) (host : String) : T.at? af host = none := by
  have hfamily : ∀ (fam : Family) (f : ClientTable → String × Server → Except PyExc ClientTable)
      (T : ClientTable), (if fam ∉ nic then .ok T else (pool.hosts fam).entries.foldlM f T) =
        .ok T := by
    intro fam f T
    split_ifs with hfam
    · rw [hempty fam hfam]
      rfl
    · rfl
  simp only [initClients, List.foldlM_cons, List.foldlM_nil] at hT
  obtain ⟨T₄, h₄, hT⟩ := Fallible.bind_eq_ok.mp hT
  obtain ⟨T₆, h₆, hT⟩ := Fallible.bind_eq_ok.mp hT
  cases hT
  rw [hfamily] at h₄ h₆
  cases h₄
  cases h₆
  rw [ClientTable.at?_set, ClientTable.at?_set]
  split_ifs <;> rfl

theorem addCandidate_of_none {af : ℕ} {host : String} (h : T.at? af host = none)
    (candidates : List BrokerClient) : addCandidate T af host candidates = candidates := by
  unfold addCandidate
  split
  · rfl
  next table htable =>
    simp only [ClientTable.at?, htable, Option.bind_some] at h
    rw [h]

end Empty

section Spec

variable {KP σ : Type} [LinearOrder σ] {A : Aio KP} {score : Bytes → Bytes → Bytes → σ}
  {P : Platform} {nic : List Family} {pool : DocumentedPool} {T : ClientTable} {fam : Family}
  {hints : List Hint} {pubKeyHex : String} {key : Bytes} {race : Race} {cap : ℚ}

omit [LinearOrder σ] in
theorem walkAf_of_empty (hT : ∀ af host, T.at? af host = none) (af : ℕ) :
    walkAf P T hints race cap af ([] : List (Server × σ)) = .ok [] := by
  have hcandidates : walkCandidates P T hints af ([] : List (Server × σ)) = .ok [] := by
    simp only [walkCandidates, List.foldlM_nil]
    congr 1
    induction hints.filter fun hint => P.ianaToAf hint.af = af with
    | nil => rfl
    | cons hint hints ih =>
      rw [List.foldl_cons, addCandidate_of_none (hT af hint.host)]
      exact ih
  simp only [walkAf, hcandidates]
  rfl

omit [LinearOrder σ] in
theorem walkAf_ne_ok {af : ℕ} {us : List (Server × σ)} (hne : us ≠ [])
    (haf : ∀ u ∈ us, u.1.af = none) (clients : List BrokerClient) :
    walkAf P T hints race cap af us ≠ .ok clients := by
  intro h
  obtain ⟨u, us, rfl⟩ := List.exists_cons_of_ne_nil hne
  obtain ⟨cs, hcs, -⟩ := Fallible.bind_eq_ok.mp h
  rw [walkCandidates, List.foldlM_cons] at hcs
  obtain ⟨cs', hcs', -⟩ := Fallible.bind_eq_ok.mp hcs
  simp only [addServer, haf u (List.mem_cons_self ..)] at hcs'
  cases hcs'

theorem bucket_eq_nil_iff {af : ℕ} {hosts : PyDict String Server} :
    bucket A score af key hosts = [] ↔ hosts.entries = [] := by
  rw [← List.length_eq_zero_iff, bucket, List.length_insertionSort, List.length_map,
    List.length_eq_zero_iff]

/-- Over the table of a documented pool every call returns brokers of the pool, whatever the
connects do, exactly if the supported families have no brokers at all. -/
theorem documentedPool_works_iff (A : Aio KP) (score : Bytes → Bytes → Bytes → σ)
    (hkey : A.hToB pubKeyHex = .ok key)
    (hT : initClients P nic pool.toBrokerPool = .ok T) :
    (∀ hints cap race, ∃ clients,
      getDestClients P T hints A score nic pubKeyHex pool.toBrokerPool cap race = .ok clients ∧
      ∀ c ∈ clients, ∃ fam ∈ nic, ∃ e ∈ (pool.hosts fam).entries,
        c = ⟨P.number fam, e.1, e.2.port⟩) ↔
      ∀ fam ∈ nic, (pool.hosts fam).entries = [] := by
  constructor
  · intro h fam hfam
    by_contra hne
    obtain ⟨clients, hclients, -⟩ := h [] 0 fun _ _ _ => []
    rw [getDestClients_eq score hkey] at hclients
    obtain ⟨perAf, hperAf, -⟩ := Fallible.bind_eq_ok.mp hclients
    obtain ⟨cs, -, hcs⟩ := Fallible.exists_of_mapM_eq_ok hperAf
      (PyDict.get?_eq_some_iff.mp (get?_buckets hfam ∅))
    apply walkAf_ne_ok _ _ cs hcs
    · exact fun hnil => hne (bucket_eq_nil_iff.mp hnil)
    · intro u hu
      obtain ⟨e, he, hserver⟩ := mem_hosts_of_mem_bucket hu
      rw [← hserver]
      exact (pool.documented fam e he).1
  · intro hempty hints cap race
    have htable := at?_initClients_of_empty hempty hT
    have hwalks : ∀ cap, ∃ perAf, (buckets A score P nic key pool.toBrokerPool ∅).entries.mapM
        (fun e => walkAf P T hints race cap e.1 e.2) = Except.ok perAf ∧ perAf.flatten = [] := by
      intro cap
      obtain ⟨perAf, hperAf, hmem⟩ := Fallible.exists_mapM_eq_ok
        (f := fun e : ℕ × List (Server × σ) => walkAf P T hints race cap e.1 e.2)
        (l := (buckets A score P nic key pool.toBrokerPool ∅).entries) (by
          intro e he
          obtain ⟨fam, hfam, rfl⟩ := mem_entries_buckets rfl he
          exact ⟨[], by rw [bucket_eq_nil_iff.mpr (hempty fam hfam), walkAf_of_empty htable]⟩)
      refine ⟨perAf, hperAf, List.flatten_eq_nil_iff.mpr ?_⟩
      intro cs hcs
      obtain ⟨e, he, hwalk⟩ := (hmem cs).mp hcs
      obtain ⟨fam, hfam, rfl⟩ := mem_entries_buckets rfl he
      rw [bucket_eq_nil_iff.mpr (hempty fam hfam), walkAf_of_empty htable] at hwalk
      exact (Except.ok.inj hwalk).symm
    refine ⟨[], ?_, by simp⟩
    obtain ⟨perAf, hperAf, hnil⟩ := hwalks cap
    obtain ⟨perAf', hperAf', hnil'⟩ := hwalks 4
    rw [getDestClients_eq score hkey, hperAf]
    change (if perAf.flatten = [] ∧ cap < 4 then _ else Except.ok perAf.flatten) = Except.ok []
    split_ifs
    · rw [hperAf']
      exact congrArg Except.ok hnil'
    · exact congrArg Except.ok hnil

def readmePool : DocumentedPool where
  v4 := (∅ : PyDict String Server).set "broker.example.com" ⟨none, none, 1883, some 1⟩
  v6 := (∅ : PyDict String Server).set "broker.example.com" ⟨none, none, 1883, some 1⟩
  documented := by
    have hall : ∀ e ∈ [("broker.example.com", (⟨none, none, 1883, some 1⟩ : Server))],
        e.2.af = none ∧ e.2.host = none := by decide
    intro fam e he
    cases fam
    · exact hall e he
    · exact hall e he

def readmePoolV4 : DocumentedPool where
  v4 := readmePool.v4
  v6 := ∅
  documented := by
    intro fam e he
    cases fam with
    | v4 => exact readmePool.documented .v4 e he
    | v6 => cases he

/-- On a host without IPv4 a pool of IPv4 brokers does no harm. -/
theorem documentedPool_works_v6 : ∃ T, initClients linux [.v6] readmePoolV4.toBrokerPool = .ok T ∧
    ∀ hints cap race, ∃ clients, getDestClients linux T hints concrete
      (fun _ _ host => BigEndian.ofBytes host) [.v6] (concrete.toH [7]) readmePoolV4.toBrokerPool
      cap race = .ok clients ∧
      ∀ c ∈ clients, ∃ fam ∈ [Family.v6], ∃ e ∈ (readmePoolV4.hosts fam).entries,
        c = ⟨linux.number fam, e.1, e.2.port⟩ := by
  obtain ⟨T, hT, -⟩ := seeded_initClients linux [.v6] readmePoolV4.toBrokerPool
  refine ⟨T, hT, (documentedPool_works_iff concrete (fun _ _ host => BigEndian.ofBytes host)
    (concrete_lawful.hToB_toH [7]) hT).mpr ?_⟩
  intro fam hfam
  obtain rfl := List.mem_singleton.mp hfam
  rfl

/-- The pool of the documentation makes every walk raise for want of the family's number. -/
theorem readmePool_raises : (initClients linux [.v4, .v6] readmePool.toBrokerPool >>= fun T =>
    getDestClients linux T [] concrete (fun _ _ host => BigEndian.ofBytes host) [.v4, .v6]
      (concrete.toH [7]) readmePool.toBrokerPool 2 inOrder) = .error (.keyError "af") := by
  decide +kernel

end Spec

end Sidewire
