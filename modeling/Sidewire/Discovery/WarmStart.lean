import Sidewire.Discovery.HintCost
import Sidewire.Discovery.Restarts

/-! # Warm starts

Where the connects end in the same way in whatever order they are started, the
hints of a start change nothing: over one pool every later start returns the
brokers of the first.
-/

namespace Sidewire

namespace Restarts

/-- The results do not depend on the order in which the connects are started, and none is made
up. -/
structure Unordered (race : Race) : Prop where
  perm : ∀ cap af racers racers', racers.Perm racers' → race cap af racers = race cap af racers'
  own : ∀ cap af racers, ∀ r ∈ race cap af racers, r.1 ∈ racers

theorem mem_of_collect {m : ℕ} {l : List (BrokerClient × Except PyExc Bool)}
    {acc cs : List BrokerClient} (h : collect m l acc = .ok cs) :
    ∀ c ∈ cs, c ∈ acc ∨ c ∈ l.map Prod.fst := by
  induction l generalizing acc with
  | nil =>
    cases h
    exact fun c hc => Or.inl hc
  | cons r l ih =>
    obtain ⟨client, result⟩ := r
    have hmore : ∀ {acc' : List BrokerClient}, (∀ c ∈ acc', c ∈ acc ∨ c = client) →
        (∀ c ∈ cs, c ∈ acc' ∨ c ∈ l.map Prod.fst) →
        ∀ c ∈ cs, c ∈ acc ∨ c ∈ ((client, result) :: l).map Prod.fst := by
      intro acc' hacc hcs c hc
      rw [List.map_cons, List.mem_cons, ← or_assoc]
      exact (hcs c hc).imp_left (hacc c)
    match result with
    | .error exc => cases h
    | .ok false =>
      exact hmore (fun c hc => Or.inl hc) (ih h)
    | .ok true =>
      have hpush : ∀ c ∈ acc ++ [client], c ∈ acc ∨ c = client := by simp
      rw [collect] at h
      split_ifs at h
      · cases h
        exact hmore hpush fun c hc => Or.inl hc
      · exact hmore hpush (ih h)

section Start

variable {KP σ : Type} [LinearOrder σ] (A : Aio KP) (score : Bytes → Bytes → Bytes → σ)
  (P : Platform) (intOfStr : String → Except LoadError ℤ) (pubKeyHex : String) (T : ClientTable)
  (nic : List Family) (pool : KeyedPool) (walkCap : ℚ) (race : Race)

/-- `Router.start`: the clients it returns and the file it leaves. -/
def startOnce (file : Option Json) (now : ℚ) :
    Except (LoadError ⊕ PyExc) (List BrokerClient × Option Json) := do
  let clients ← startWalk intOfStr (.ok file) pubKeyHex fun cachedHints =>
    getDestClients P T cachedHints A score nic pubKeyHex pool.toBrokerPool walkCap race
  return (clients, if (hintsToStore clients).isEmpty then file
    else storeFor file pubKeyHex (hintsToStore clients) now)

def starts : Option Json → List ℚ → Except (LoadError ⊕ PyExc) (List (List BrokerClient))
  | _, [] => .ok []
  | file, now :: times => do
    let (clients, file) ← startOnce A score P intOfStr pubKeyHex T nic pool walkCap race file now
    let rest ← starts file times
    return clients :: rest

end Start

section Spec

variable {KP σ : Type} [LinearOrder σ] {A : Aio KP} {score : Bytes → Bytes → Bytes → σ}
  {P : Platform} {intOfStr : String → Except LoadError ℤ} {pubKeyHex : String} {key : Bytes}
  {T : ClientTable} {nic : List Family} {pool : KeyedPool} {fam : Family} {race : Race}
  {walkCap cap now : ℚ} {found clients : List BrokerClient} {file file' : Option Json}
  {hints : List Hint}

variable (A score key) in
theorem walkCandidates_recalled (hT : initClients P nic pool.toBrokerPool = .ok T)
    (hfam : fam ∈ nic) (hfound : ∀ c ∈ found, ∃ fam, c.af = P.number fam) :
    walkCandidates P T (recalled found) (P.number fam)
        (bucket A score (P.number fam) key (pool.hosts fam)) =
      .ok (distinct (stillListed P T found fam ++
        candidates A score P pool.toBrokerPool key fam)) := by
  refine walkCandidates_eq_ok_iff.mpr ⟨fun u hu => ?_, ?_⟩
  · obtain ⟨e, he, hserver⟩ := mem_hosts_of_mem_bucket hu
    obtain ⟨hhost, haf⟩ := pool.keyed fam e he
    rw [← hserver]
    exact ⟨by rw [haf]; rfl, by rw [hhost]; rfl⟩
  · rw [hinted_recalled T hfound, ranked_eq_candidates hT hfam]

variable (A score key) in
theorem walkCandidates_cold (hT : initClients P nic pool.toBrokerPool = .ok T) (hfam : fam ∈ nic) :
    walkCandidates P T [] (P.number fam)
        (bucket A score (P.number fam) key (pool.hosts fam)) =
      .ok (distinct (stillListed P T [] fam ++
        candidates A score P pool.toBrokerPool key fam)) := by
  have hnil : ∀ c ∈ ([] : List BrokerClient), ∃ fam, c.af = P.number fam := fun c hc => by cases hc
  exact walkCandidates_recalled A score key hT hfam hnil

theorem walkAf_recalled (hrace : Unordered race)
    (hT : initClients P nic pool.toBrokerPool = .ok T) (hfam : fam ∈ nic)
    (hfound : BestTen A score P pool key found) (cap : ℚ) :
    walkAf P T (recalled found) race cap (P.number fam)
        (bucket A score (P.number fam) key (pool.hosts fam)) =
      walkAf P T [] race cap (P.number fam)
        (bucket A score (P.number fam) key (pool.hosts fam)) := by
  have hnil : BestTen A score P pool key [] := bestTen_nil
  have hsub : ∀ {found}, BestTen A score P pool key found → ∀ c ∈ stillListed P T found fam,
      c ∈ candidates A score P pool.toBrokerPool key fam :=
    fun h c hc => List.mem_of_mem_take (h.stillListed hT hfam c hc)
  have hnodup := candidates_nodup A score P pool key fam
  have hlen := (length_distinct_append hnodup (hsub hfound)).trans
    (length_distinct_append hnodup (hsub hnil)).symm
  have hperm := hrace.perm cap (P.number fam) _ _
    ((hfound.race hT hfam).trans (hnil.race hT hfam).symm)
  simp only [walkAf, walkCandidates_recalled A score key hT hfam hfound.af,
    walkCandidates_cold A score key hT hfam]
  change (if needed (distinct (stillListed P T found fam ++ _)).length = 0 then _ else
    collect (needed (distinct (stillListed P T found fam ++ _)).length) _ []) = _
  rw [hlen, hperm]
  rfl

theorem getDestClients_recalled (hkey : A.hToB pubKeyHex = .ok key) (hrace : Unordered race)
    (hT : initClients P nic pool.toBrokerPool = .ok T)
    (hfound : BestTen A score P pool key found) :
    getDestClients P T (recalled found) A score nic pubKeyHex pool.toBrokerPool walkCap race =
      getDestClients P T [] A score nic pubKeyHex pool.toBrokerPool walkCap race := by
  have hwalks : ∀ cap, (buckets A score P nic key pool.toBrokerPool ∅).entries.mapM
        (fun e => walkAf P T (recalled found) race cap e.1 e.2) =
      (buckets A score P nic key pool.toBrokerPool ∅).entries.mapM
        fun e => walkAf P T [] race cap e.1 e.2 := by
    intro cap
    apply Fallible.mapM_congr
    intro e he
    obtain ⟨fam, hfam, rfl⟩ := mem_entries_buckets rfl he
    exact walkAf_recalled hrace hT hfam hfound cap
  rw [getDestClients_eq score hkey, getDestClients_eq score hkey]
  simp only [hwalks]

theorem bestTen_of_walkAf (hrace : Unordered race)
    (hT : initClients P nic pool.toBrokerPool = .ok T) (hfam : fam ∈ nic)
    (h : walkAf P T [] race cap (P.number fam)
      (bucket A score (P.number fam) key (pool.hosts fam)) = .ok clients) :
    BestTen A score P pool key clients := by
  have hnil : BestTen A score P pool key [] := bestTen_nil
  simp only [walkAf, walkCandidates_cold A score key hT hfam] at h
  change (if _ then Except.ok [] else collect _ (race cap (P.number fam) (List.take 10 (distinct
    (stillListed P T [] fam ++ candidates A score P pool.toBrokerPool key fam)))) []) = _ at h
  intro c hc
  split_ifs at h
  · cases h
    cases hc
  · rcases mem_of_collect h c hc with hc | hc
    · cases hc
    · obtain ⟨r, hr, rfl⟩ := List.mem_map.mp hc
      have hmem := (hnil.race hT hfam).mem_iff.mp (hrace.own _ _ _ r hr)
      exact ⟨fam, af_of_mem_candidates (List.mem_of_mem_take hmem), hmem⟩

theorem bestTen_of_getDestClients (hkey : A.hToB pubKeyHex = .ok key) (hrace : Unordered race)
    (hT : initClients P nic pool.toBrokerPool = .ok T)
    (h : getDestClients P T [] A score nic pubKeyHex pool.toBrokerPool walkCap race =
      .ok clients) : BestTen A score P pool key clients := by
  have hwalks : ∀ cap perAf, (buckets A score P nic key pool.toBrokerPool ∅).entries.mapM
      (fun e => walkAf P T [] race cap e.1 e.2) = Except.ok perAf →
      BestTen A score P pool key perAf.flatten := by
    intro cap perAf hperAf c hc
    obtain ⟨cs, hcs, hc⟩ := List.mem_flatten.mp hc
    obtain ⟨e, he, hwalk⟩ := Fallible.exists_of_mem_mapM hperAf hcs
    obtain ⟨fam, hfam, rfl⟩ := mem_entries_buckets rfl he
    exact bestTen_of_walkAf hrace hT hfam hwalk c hc
  rw [getDestClients_eq score hkey] at h
  obtain ⟨perAf, hperAf, h⟩ := Fallible.bind_eq_ok.mp h
  split_ifs at h
  · obtain ⟨perAf', hperAf', h⟩ := Fallible.bind_eq_ok.mp h
    cases h
    exact hwalks 4 perAf' hperAf'
  · cases h
    exact hwalks walkCap perAf hperAf

variable (intOfStr) in
theorem startOnce_of_entry (hkey : A.hToB pubKeyHex = .ok key) (hrace : Unordered race)
    (hT : initClients P nic pool.toBrokerPool = .ok T)
    (hfound : BestTen A score P pool key found)
    (hentry : ∃ t, cachedEntries file pubKeyHex = serialisable (hintsToStore found) t)
    (hcold : getDestClients P T [] A score nic pubKeyHex pool.toBrokerPool walkCap race =
      .ok clients) (now : ℚ) :
    ∃ file' found', startOnce A score P intOfStr pubKeyHex T nic pool walkCap race file now =
        .ok (clients, file') ∧ BestTen A score P pool key found' ∧
      ∃ t, cachedEntries file' pubKeyHex = serialisable (hintsToStore found') t := by
  obtain ⟨t, hentry⟩ := hentry
  have hload : loadFor intOfStr (.ok file) pubKeyHex = .ok (stamped (hintsToStore found) (pyInt t)) :=
    loadFor_of_cachedEntries hentry
  have hwalk : startWalk intOfStr (.ok file) pubKeyHex (fun cachedHints =>
      getDestClients P T cachedHints A score nic pubKeyHex pool.toBrokerPool walkCap race) =
        .ok clients := by
    simp only [startWalk, hload, stamped_hintsToStore,
      getDestClients_recalled hkey hrace hT hfound, hcold]
    rfl
  have hstart : startOnce A score P intOfStr pubKeyHex T nic pool walkCap race file now =
      .ok (clients, if (hintsToStore clients).isEmpty then file
        else storeFor file pubKeyHex (hintsToStore clients) now) :=
    Fallible.bind_eq_ok.mpr ⟨clients, hwalk, rfl⟩
  by_cases hempty : hintsToStore clients = []
  · rw [hempty, List.isEmpty_nil, if_pos rfl] at hstart
    exact ⟨file, found, hstart, hfound, t, hentry⟩
  · rw [if_neg (by simpa using hempty)] at hstart
    refine ⟨_, clients, hstart, bestTen_of_getDestClients hkey hrace hT hcold, now, ?_⟩
    rw [storeFor_eq (exists_brokerFields hempty), cachedEntries_replaced]

/-- Where the order of starting does not matter, every start after the first one finds what the
first one found. -/
theorem starts_settle (hkey : A.hToB pubKeyHex = .ok key) (hrace : Unordered race)
    (hT : initClients P nic pool.toBrokerPool = .ok T) (hfile : cachedEntries file pubKeyHex = [])
    (h : startOnce A score P intOfStr pubKeyHex T nic pool walkCap race file now =
      .ok (clients, file')) (times : List ℚ) :
    starts A score P intOfStr pubKeyHex T nic pool walkCap race file' times =
      .ok (List.replicate times.length clients) := by
  -- the first start walks without hints
  have hcold : getDestClients P T [] A score nic pubKeyHex pool.toBrokerPool walkCap race =
      .ok clients := by
    obtain ⟨cs, hcs, h⟩ := Fallible.bind_eq_ok.mp h
    cases h
    have hentry : cachedEntries file pubKeyHex = serialisable [] 0 := hfile
    have hload : loadFor intOfStr (.ok file) pubKeyHex = .ok [] := loadFor_of_cachedEntries hentry
    simp only [startWalk, hload, List.filterMap_nil] at hcs
    cases hwalk : getDestClients P T [] A score nic pubKeyHex pool.toBrokerPool walkCap race with
    | error exc =>
      rw [hwalk] at hcs
      cases hcs
    | ok cs' =>
      rw [hwalk] at hcs
      cases hcs
      rfl
  have hlater : ∀ (times : List ℚ) (file : Option Json) (found : List BrokerClient),
      BestTen A score P pool key found →
      (∃ t, cachedEntries file pubKeyHex = serialisable (hintsToStore found) t) →
      starts A score P intOfStr pubKeyHex T nic pool walkCap race file times =
        .ok (List.replicate times.length clients) := by
    intro times
    induction times with
    | nil => exact fun file found _ _ => rfl
    | cons now times ih =>
      intro file found hfound hentry
      obtain ⟨file', found', hstart, hfound', hentry'⟩ :=
        startOnce_of_entry intOfStr hkey hrace hT hfound hentry hcold now
      exact Fallible.bind_eq_ok.mpr ⟨_, hstart,
        Fallible.bind_eq_ok.mpr ⟨_, ih file' found' hfound' hentry', rfl⟩⟩
  obtain ⟨file'', found, hstart, hfound, hentry⟩ := startOnce_of_entry intOfStr hkey
    hrace hT bestTen_nil ⟨0, hfile⟩ hcold now
  rw [h] at hstart
  cases hstart
  exact hlater times file' found hfound hentry

def quickest (order : List BrokerClient) : Race := fun _ _ racers =>
  (order.filter (· ∈ racers)).map fun client => (client, .ok true)

theorem unordered_quickest (order : List BrokerClient) : Unordered (quickest order) where
  perm cap af racers racers' h := by
    unfold quickest
    simp only [h.mem_iff]
  own cap af racers r hr := by
    obtain ⟨client, hclient, rfl⟩ := List.mem_map.mp hr
    exact of_decide_eq_true (List.mem_filter.mp hclient).2

/-- The lower ranked of two brokers is the quicker one, and stays the one that is found. -/
theorem starts_settle_pair : ∃ T file,
    initClients linux [.v4] pairPool.toBrokerPool = .ok T ∧
    startOnce concrete hostValue linux decimalInt (concrete.toH [7]) T [.v4] pairPool 2
      (quickest [⟨IP4, "b", 1883⟩, ⟨IP4, "a", 1883⟩]) none 5 = .ok ([⟨IP4, "b", 1883⟩], file) ∧
    starts concrete hostValue linux decimalInt (concrete.toH [7]) T [.v4] pairPool 2
      (quickest [⟨IP4, "b", 1883⟩, ⟨IP4, "a", 1883⟩]) file [6, 7] =
        .ok [[⟨IP4, "b", 1883⟩], [⟨IP4, "b", 1883⟩]] := by
  have hT : initClients linux [.v4] pairPool.toBrokerPool = .ok pairTable := by decide +kernel
  have hstart : startOnce concrete hostValue linux decimalInt (concrete.toH [7]) pairTable [.v4]
      pairPool 2 (quickest [⟨IP4, "b", 1883⟩, ⟨IP4, "a", 1883⟩]) none 5 =
        .ok ([⟨IP4, "b", 1883⟩], storeFor none (concrete.toH [7])
          (hintsToStore [⟨IP4, "b", 1883⟩]) 5) := by
    have hfirst : getDestClients linux pairTable [] concrete hostValue [.v4] (concrete.toH [7])
        pairPool.toBrokerPool 2 (quickest [⟨IP4, "b", 1883⟩, ⟨IP4, "a", 1883⟩]) =
          .ok [⟨IP4, "b", 1883⟩] := by decide +kernel
    have hwalk : startWalk decimalInt (.ok none) (concrete.toH [7]) (fun cachedHints =>
        getDestClients linux pairTable cachedHints concrete hostValue [.v4] (concrete.toH [7])
          pairPool.toBrokerPool 2 (quickest [⟨IP4, "b", 1883⟩, ⟨IP4, "a", 1883⟩])) =
            .ok [⟨IP4, "b", 1883⟩] := congrArg (Except.mapError Sum.inr) hfirst
    exact Fallible.bind_eq_ok.mpr ⟨_, hwalk, rfl⟩
  exact ⟨pairTable, _, hT, hstart, starts_settle (concrete_lawful.hToB_toH [7])
    (unordered_quickest _) hT rfl hstart [6, 7]⟩

end Spec

end Restarts

end Sidewire
