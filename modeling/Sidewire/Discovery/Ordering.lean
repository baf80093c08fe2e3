import Sidewire.Discovery.Ranking
import Sidewire.Lib.Fallible
import Sidewire.Lib.KeySort

/-! # What a ranking depends on

Two peers that hold the same brokers rank them alike, whatever the order of
their dictionaries, and brokers that only one of them holds do not change the
order of the others. The scores are written into copies of the pool's records,
so the pool stays as it was.
-/

namespace Sidewire

open KeySort

variable {KP σ : Type} [LinearOrder σ]

def rank (A : Aio KP) (score : Bytes → Bytes → Bytes → σ) (af : ℕ) (key : Bytes)
    (host : String) : σ := score [UInt8.ofNat af] key (A.toB (.str host))

def order (A : Aio KP) (score : Bytes → Bytes → Bytes → σ) (af : ℕ) (key : Bytes)
    (hosts : PyDict String Server) : List (String × Server) :=
  byKey (fun e => rank A score af key e.1) hosts.entries

def scored (A : Aio KP) (score : Bytes → Bytes → Bytes → σ) (af : ℕ) (key : Bytes)
    (e : String × Server) : Server × σ := (e.2, rank A score af key e.1)

def Ranked (supported : List ℕ) (servers : PyDict ℕ (PyDict String Server)) : Prop :=
  ∀ af ∈ supported, af < 256 ∧ ∃ hosts, servers.get? af = some hosts

variable {A : Aio KP} {score : Bytes → Bytes → Bytes → σ} {af : ℕ} {pubKeyHex : String}
  {key : Bytes} {hosts hosts' : PyDict String Server}
  {supported supported' : List ℕ} {servers servers' : PyDict ℕ (PyDict String Server)}

theorem bucket_eq_order (A : Aio KP) (score : Bytes → Bytes → Bytes → σ) (af : ℕ) (key : Bytes)
    (hosts : PyDict String Server) :
    bucket A score af key hosts = (order A score af key hosts).map (scored A score af key) :=
  (map_byKey (scored A score af key) Prod.snd hosts.entries).symm

theorem rendezvousHash_spec (A : Aio KP) (score : Bytes → Bytes → Bytes → σ)
    (hkey : A.hToB pubKeyHex = .ok key) (h : Ranked supported servers) :
    ∃ d, rendezvousHash A score supported pubKeyHex servers = .ok d ∧
      ∀ af ∈ supported, ∀ hosts, servers.get? af = some hosts →
        d.get? af = some (bucket A score af key hosts) := by
  have hloop : ∀ f : PyDict ℕ (List (Server × σ)) → ℕ → Except PyExc (PyDict ℕ (List (Server × σ))),
      (∀ d af hosts, af < 256 → servers.get? af = some hosts →
        f d af = .ok (d.set af (bucket A score af key hosts))) →
      ∀ (supported : List ℕ) (d₀ : PyDict ℕ (List (Server × σ))), Ranked supported servers →
      ∃ d, supported.foldlM f d₀ = Except.ok d ∧ ∀ af hosts, servers.get? af = some hosts →
        (af ∈ supported → d.get? af = some (bucket A score af key hosts)) ∧
        (af ∉ supported → d.get? af = d₀.get? af) := by
    intro f hround supported
    induction supported with
    | nil => exact fun d₀ _ => ⟨d₀, rfl, fun _ _ _ => ⟨fun haf => (by cases haf), fun _ => rfl⟩⟩
    | cons af supported ih =>
      intro d₀ hranked
      obtain ⟨hlt, hosts, hhosts⟩ := hranked af (List.mem_cons_self ..)
      obtain ⟨d, hd, hbuckets⟩ := ih (d₀.set af (bucket A score af key hosts))
        fun af' haf' => hranked af' (List.mem_cons_of_mem af haf')
      refine ⟨d, ?_, ?_⟩
      · rw [List.foldlM_cons, hround d₀ af hosts hlt hhosts]
        exact hd
      · intro af' hosts' hhosts'
        obtain ⟨hin, hout⟩ := hbuckets af' hosts' hhosts'
        apply PyDict.get?_of_loop (P := (· = some (bucket A score af' key hosts'))) hin hout
        rintro rfl
        rw [Option.some.inj (hhosts.symm.trans hhosts')]
  have hall : ∃ d, rendezvousHash A score supported pubKeyHex servers = .ok d ∧
      ∀ af hosts, servers.get? af = some hosts →
        (af ∈ supported → d.get? af = some (bucket A score af key hosts)) ∧
        (af ∉ supported → d.get? af = none) := by
    refine hloop _ ?_ supported ∅ h
    intro d af hosts hlt hhosts
    simp only [hhosts, scoreBucket_eq hlt hkey]
    rfl
  obtain ⟨d, hd, hbuckets⟩ := hall
  exact ⟨d, hd, fun af haf hosts hhosts => (hbuckets af hosts hhosts).1 haf⟩

structure Record (σ : Type) where
  server : Server
  score : Option σ := none
  deriving DecidableEq

/-- The loop over the hosts of a family. Each record is copied to a new object, which gets the
score; the hosts refer to their records by number. -/
def scoreCopies (A : Aio KP) (score : Bytes → Bytes → Bytes → σ) (af : ℕ) (pubKeyHex : String) :
    List (String × ℕ) → List (Record σ) → Except PyExc (List (Record σ) × List (ℕ × σ))
  | [], heap => .ok (heap, [])
  | (host, ref) :: hosts, heap =>
    match heap[ref]? with
    | none => .error (.keyError host)
    | some record => do
      let copy := heap.length
      let heap := heap ++ [record]
      let s ← getServerScore A score af host pubKeyHex
      let heap := heap.modify copy fun r => { r with score := some s }
      let (heap, bucket) ← scoreCopies A score af pubKeyHex hosts heap
      return (heap, (copy, s) :: bucket)

/-- `rendezvous_hash` on records that are objects. -/
def rendezvousHashMem (A : Aio KP) (score : Bytes → Bytes → Bytes → σ) (supported : List ℕ)
    (pubKeyHex : String) (servers : PyDict ℕ (PyDict String ℕ)) (heap : List (Record σ)) :
    Except PyExc (List (Record σ) × PyDict ℕ (List ℕ)) :=
  supported.foldlM (fun (heap, afBuckets) af => do
    let hosts ← match servers.get? af with
      | some hosts => .ok hosts
      | none => .error (.keyError (toString af))
    let (heap, bucket) ← scoreCopies A score af pubKeyHex hosts.entries heap
    return (heap, afBuckets.set af ((byKey Prod.snd bucket).map Prod.fst))) (heap, ∅)

def Reads (heap : List (Record σ)) (refs : PyDict String ℕ) (hosts : PyDict String Server) : Prop :=
  List.Forall₂ (fun r e => r.1 = e.1 ∧ ∃ record, heap[r.2]? = some record ∧ record.server = e.2)
    refs.entries hosts.entries

def ReadsBucket (heap : List (Record σ)) (refs : List ℕ) (bucket : List (Server × σ)) : Prop :=
  List.Forall₂ (fun r u => heap[r]? = some ⟨u.1, some u.2⟩) refs bucket

variable {heap heap' : List (Record σ)} {refs : PyDict ℕ (PyDict String ℕ)}

omit [LinearOrder σ] in
theorem getElem?_of_isPrefix {i : ℕ} {r : Record σ} (h : heap <+: heap') (hi : heap[i]? = some r) :
    heap'[i]? = some r := by
  obtain ⟨rest, rfl⟩ := h
  rw [List.getElem?_append_left (List.getElem?_eq_some_iff.mp hi).1]
  exact hi

omit [LinearOrder σ] in
theorem scoreCopies_spec (A : Aio KP) (score : Bytes → Bytes → Bytes → σ)
    (hlt : af < 256) (hkey : A.hToB pubKeyHex = .ok key) :
    ∀ {rs : List (String × ℕ)} {es : List (String × Server)} (heap : List (Record σ)),
      List.Forall₂ (fun r e => r.1 = e.1 ∧ ∃ record, heap[r.2]? = some record ∧
        record.server = e.2) rs es →
      ∃ heap' bucket, scoreCopies A score af pubKeyHex rs heap = .ok (heap', bucket) ∧
        heap <+: heap' ∧ List.Forall₂ (fun b u => b.2 = u.2 ∧ heap'[b.1]? = some ⟨u.1, some u.2⟩)
          bucket (es.map (scored A score af key)) := by
  intro rs
  induction rs with
  | nil =>
    intro es heap h
    cases h
    exact ⟨heap, [], rfl, List.prefix_rfl, .nil⟩
  | cons r rs ih =>
    intro es heap h
    obtain ⟨host, ref⟩ := r
    obtain ⟨e, es, ⟨rfl, record, hrecord, hserver⟩, htail, rfl⟩ := List.forall₂_cons_left_iff.mp h
    have hpush : (heap ++ [record]).modify heap.length
        (fun r => { r with score := some (rank A score af key e.1) }) =
          heap ++ [⟨record.server, some (rank A score af key e.1)⟩] := by
      simp [List.modify_eq_set_getElem?]
    have hext : ∀ (i : ℕ) (r : Record σ), heap[i]? = some r →
        (heap ++ [⟨record.server, some (rank A score af key e.1)⟩])[i]? = some r :=
      fun i r hi => getElem?_of_isPrefix (List.prefix_append _ _) hi
    obtain ⟨heap', bucket, hcopies, hprefix, hbucket⟩ :=
      ih (heap ++ [⟨record.server, some (rank A score af key e.1)⟩]) (htail.imp
        fun r e ⟨hhost, record', hrecord', hserver'⟩ => ⟨hhost, record', hext _ _ hrecord', hserver'⟩)
    refine ⟨heap', (heap.length, rank A score af key e.1) :: bucket, ?_, ?_, ?_⟩
    · simp only [scoreCopies, hrecord, getServerScore_eq hlt hkey]
      change (do
        let (heap, bucket) ← scoreCopies A score af pubKeyHex rs ((heap ++ [record]).modify
          heap.length fun r => { r with score := some (rank A score af key e.1) })
        return (heap, (_, rank A score af key e.1) :: bucket)) = _
      rw [hpush, hcopies]
      rfl
    · exact (List.prefix_append _ _).trans hprefix
    · apply List.Forall₂.cons ⟨rfl, _⟩ hbucket
      apply getElem?_of_isPrefix hprefix
      rw [List.getElem?_concat_length, hserver]
      rfl

def ReadsPool (supported : List ℕ) (heap : List (Record σ)) (refs : PyDict ℕ (PyDict String ℕ))
    (servers : PyDict ℕ (PyDict String Server)) : Prop :=
  ∀ af ∈ supported, ∃ rs hosts, refs.get? af = some rs ∧ servers.get? af = some hosts ∧
    Reads heap rs hosts

omit [LinearOrder σ] in
theorem ReadsPool.of_isPrefix (h : ReadsPool supported heap refs servers) (hheap : heap <+: heap') :
    ReadsPool supported heap' refs servers := by
  intro af haf
  obtain ⟨rs, hosts, hrs, hhosts, hreads⟩ := h af haf
  refine ⟨rs, hosts, hrs, hhosts, hreads.imp ?_⟩
  rintro r e ⟨hhost, record, hrecord, hserver⟩
  exact ⟨hhost, record, getElem?_of_isPrefix hheap hrecord, hserver⟩

omit [LinearOrder σ] in
theorem ReadsBucket.of_isPrefix {rs : List ℕ} {us : List (Server × σ)} (h : ReadsBucket heap rs us)
    (hheap : heap <+: heap') : ReadsBucket heap' rs us :=
  h.imp fun _ _ hr => getElem?_of_isPrefix hheap hr

theorem readsBucket_byKey {bs : List (ℕ × σ)} {us : List (Server × σ)}
    (h : List.Forall₂ (fun b u => b.2 = u.2 ∧ heap[b.1]? = some ⟨u.1, some u.2⟩) bs us) :
    ReadsBucket heap ((byKey Prod.snd bs).map Prod.fst) (byKey Prod.snd us) := by
  rw [ReadsBucket, List.forall₂_map_left_iff]
  exact (forall₂_byKey (fun _ _ hbu => hbu.1) h).imp fun _ _ hbu => hbu.2

/-- With records as objects the buckets are the same, and every record of before is untouched. -/
theorem rendezvousHashMem_spec (A : Aio KP) (score : Bytes → Bytes → Bytes → σ)
    (hkey : A.hToB pubKeyHex = .ok key) (h : Ranked supported servers)
    (hreads : ReadsPool supported heap refs servers) :
    ∃ heap' d, rendezvousHashMem A score supported pubKeyHex refs heap = .ok (heap', d) ∧
      heap <+: heap' ∧ ∀ af ∈ supported, ∀ hosts, servers.get? af = some hosts →
        ∃ rs, d.get? af = some rs ∧ ReadsBucket heap' rs (bucket A score af key hosts) := by
  have hloop : ∀ (supported : List ℕ) (heap : List (Record σ)) (d₀ : PyDict ℕ (List ℕ)),
      Ranked supported servers → ReadsPool supported heap refs servers →
      ∃ heap' d, supported.foldlM (fun (heap, afBuckets) af => do
        let hosts ← match refs.get? af with
          | some hosts => .ok hosts
          | none => .error (.keyError (toString af))
        let (heap, bucket) ← scoreCopies A score af pubKeyHex hosts.entries heap
        return (heap, afBuckets.set af ((byKey Prod.snd bucket).map Prod.fst))) (heap, d₀) =
          Except.ok (heap', d) ∧ heap <+: heap' ∧ ∀ af,
        (af ∈ supported → ∀ hosts, servers.get? af = some hosts →
          ∃ rs, d.get? af = some rs ∧ ReadsBucket heap' rs (bucket A score af key hosts)) ∧
        (af ∉ supported → d.get? af = d₀.get? af) := by
    intro supported
    induction supported with
    | nil =>
      exact fun heap d₀ _ _ => ⟨heap, d₀, rfl, List.prefix_rfl, fun _ =>
        ⟨fun haf => (by cases haf), fun _ => rfl⟩⟩
    | cons af supported ih =>
      intro heap d₀ hranked hreads
      obtain ⟨hlt, _⟩ := hranked af (List.mem_cons_self ..)
      obtain ⟨rs, hosts, hrs, hhosts, hread⟩ := hreads af (List.mem_cons_self ..)
      obtain ⟨heap₁, bs, hcopies, hheap₁, hbs⟩ :=
        scoreCopies_spec A score hlt hkey heap hread
      have hbucket := readsBucket_byKey hbs
      obtain ⟨heap', d, hd, hheap', hbuckets⟩ :=
        ih heap₁ (d₀.set af ((byKey Prod.snd bs).map Prod.fst))
          (fun af' haf' => hranked af' (List.mem_cons_of_mem af haf'))
          (ReadsPool.of_isPrefix (fun af' haf' => hreads af' (List.mem_cons_of_mem af haf')) hheap₁)
      refine ⟨heap', d, ?_, hheap₁.trans hheap', ?_⟩
      · rw [List.foldlM_cons]
        simp only [hrs]
        change (scoreCopies A score af pubKeyHex rs.entries heap >>= fun x =>
          pure (x.1, d₀.set af ((byKey Prod.snd x.2).map Prod.fst))) >>= _ = _
        rw [hcopies]
        exact hd
      · intro af'
        obtain ⟨hin, hout⟩ := hbuckets af'
        apply PyDict.get?_of_loop (P := fun o => ∀ hosts, servers.get? af' = some hosts →
          ∃ rs, o = some rs ∧ ReadsBucket heap' rs (bucket A score af' key hosts)) hin hout
        rintro rfl hosts' hhosts'
        rw [← Option.some.inj (hhosts.symm.trans hhosts')]
        exact ⟨_, rfl, hbucket.of_isPrefix hheap'⟩
  obtain ⟨heap', d, hd, hheap', hbuckets⟩ := hloop supported heap ∅ h hreads
  exact ⟨heap', d, hd, hheap', fun af haf => (hbuckets af).1 haf⟩

def Separates (A : Aio KP) (score : Bytes → Bytes → Bytes → σ) (af : ℕ) (key : Bytes)
    (hosts : PyDict String Server) : Prop :=
  ∀ e ∈ hosts.entries, ∀ e' ∈ hosts.entries,
    rank A score af key e.1 = rank A score af key e'.1 → e.1 = e'.1

omit [LinearOrder σ] in
theorem Separates.eq_of_rank_eq (h : Separates A score af key hosts) :
    ∀ e ∈ hosts.entries, ∀ e' ∈ hosts.entries,
      rank A score af key e.1 = rank A score af key e'.1 → e = e' := by
  intro e he e' he' hrank
  have hhost := h e he e' he' hrank
  have hget := PyDict.get?_eq_some_iff.mpr he
  have hget' := PyDict.get?_eq_some_iff.mpr he'
  rw [hhost, hget'] at hget
  exact Prod.ext hhost (Option.some.inj hget).symm

theorem order_eq_of_perm (h : Separates A score af key hosts)
    (hperm : hosts.entries.Perm hosts'.entries) :
    order A score af key hosts = order A score af key hosts' :=
  byKey_eq_of_perm h.eq_of_rank_eq hperm

theorem order_of_subset (h : Separates A score af key hosts')
    (hsub : hosts.entries ⊆ hosts'.entries) : order A score af key hosts =
      (order A score af key hosts').filter (· ∈ hosts.entries) := by
  apply byKey_of_subset h.eq_of_rank_eq
  · exact List.Nodup.of_map _ hosts.nodup
  · exact List.Nodup.of_map _ hosts'.nodup
  · exact hsub

/-- Two hosts rank their pools for one destination: what the pools have in common decides the
order, a pool that lacks some brokers has the other's order without them, and no record of a pool
changes. -/
theorem ranking_of_set (hkey : A.hToB pubKeyHex = .ok key) (h : Ranked supported servers)
    (h' : Ranked supported' servers')
    (hsep : ∀ af ∈ supported', ∀ hosts', servers'.get? af = some hosts' →
      Separates A score af key hosts')
    (hreads : ReadsPool supported heap refs servers) :
    ∃ d d' heap' ds, rendezvousHash A score supported pubKeyHex servers = .ok d ∧
      rendezvousHash A score supported' pubKeyHex servers' = .ok d' ∧
      rendezvousHashMem A score supported pubKeyHex refs heap = .ok (heap', ds) ∧
      heap <+: heap' ∧
      ∀ af ∈ supported, af ∈ supported' → ∀ hosts hosts', servers.get? af = some hosts →
        servers'.get? af = some hosts' →
        (∃ us rs, d.get? af = some us ∧ ds.get? af = some rs ∧ ReadsBucket heap' rs us) ∧
        (hosts.entries.Perm hosts'.entries → d.get? af = d'.get? af) ∧
        (hosts.entries ⊆ hosts'.entries →
          ∃ brokers : List (String × Server), brokers.Perm hosts'.entries ∧
            d'.get? af = some (brokers.map (scored A score af key)) ∧
            d.get? af = some ((brokers.filter (· ∈ hosts.entries)).map (scored A score af key))) := by
  obtain ⟨d, hd, hbuckets⟩ := rendezvousHash_spec A score hkey h
  obtain ⟨d', hd', hbuckets'⟩ := rendezvousHash_spec A score hkey h'
  obtain ⟨heap', ds, hds, hheap, hread⟩ := rendezvousHashMem_spec A score hkey h hreads
  refine ⟨d, d', heap', ds, hd, hd', hds, hheap, ?_⟩
  intro af haf haf' hosts hosts' hhosts hhosts'
  have hget := hbuckets af haf hosts hhosts
  have hget' := hbuckets' af haf' hosts' hhosts'
  have hsep' := hsep af haf' hosts' hhosts'
  rw [bucket_eq_order] at hget hget'
  refine ⟨?_, ?_, ?_⟩
  · obtain ⟨rs, hrs, hbucket⟩ := hread af haf hosts hhosts
    rw [bucket_eq_order] at hbucket
    exact ⟨_, rs, hget, hrs, hbucket⟩
  · intro hperm
    rw [hget, hget', ← order_eq_of_perm hsep' hperm.symm]
  · intro hsub
    refine ⟨order A score af key hosts', perm_byKey _ _, hget', ?_⟩
    rw [hget, order_of_subset hsep' hsub]

def residue (af _key host : Bytes) : ℕ := (BigEndian.ofBytes af * BigEndian.ofBytes host) % 3

/-- A pool of three brokers in another order has the order of a pool of two, and one more. -/
theorem ranking_of_set_three : ∃ d d' heap' ds,
    rendezvousHash concrete residue [10] (concrete.toH [7]) ((poolV6 ["a", "b"]).servers linux) =
      .ok d ∧
    rendezvousHash concrete residue [10] (concrete.toH [7])
      ((poolV6 ["c", "b", "a"]).servers linux) = .ok d' ∧
    rendezvousHashMem concrete residue [10] (concrete.toH [7])
      ((∅ : PyDict ℕ (PyDict String ℕ)).set 10 (((∅ : PyDict String ℕ).set "a" 0).set "b" 1))
      [⟨⟨some 10, some "a", 1883, none⟩, none⟩, ⟨⟨some 10, some "b", 1883, none⟩, none⟩] =
      .ok (heap', ds) ∧
    [⟨⟨some 10, some "a", 1883, none⟩, none⟩, ⟨⟨some 10, some "b", 1883, none⟩, none⟩] <+: heap' ∧
    ∃ brokers : List (String × Server), brokers.Perm (poolV6 ["c", "b", "a"]).v6.entries ∧
      d'.get? 10 = some (brokers.map (scored concrete residue 10 [7])) ∧
      d.get? 10 = some ((brokers.filter (· ∈ (poolV6 ["a", "b"]).v6.entries)).map
        (scored concrete residue 10 [7])) := by
  have hranked : ∀ pool : BrokerPool, Ranked [10] (pool.servers linux) := by
    intro pool af haf
    obtain rfl := List.mem_singleton.mp haf
    exact ⟨by decide, pool.v6, pool.get?_servers linux .v6⟩
  have hreads : ReadsPool [10]
      [⟨⟨some 10, some "a", 1883, none⟩, (none : Option ℕ)⟩,
        ⟨⟨some 10, some "b", 1883, none⟩, none⟩]
      ((∅ : PyDict ℕ (PyDict String ℕ)).set 10 (((∅ : PyDict String ℕ).set "a" 0).set "b" 1))
      ((poolV6 ["a", "b"]).servers linux) := by
    intro af haf
    obtain rfl := List.mem_singleton.mp haf
    exact ⟨_, _, PyDict.get?_set_self _ _ _, (poolV6 ["a", "b"]).get?_servers linux .v6,
      .cons ⟨rfl, _, rfl, rfl⟩ (.cons ⟨rfl, _, rfl, rfl⟩ .nil)⟩
  have hsep : ∀ e ∈ (poolV6 ["c", "b", "a"]).v6.entries,
      ∀ e' ∈ (poolV6 ["c", "b", "a"]).v6.entries,
        rank concrete residue 10 [7] e.1 = rank concrete residue 10 [7] e'.1 → e.1 = e'.1 := by
    decide +kernel
  obtain ⟨d, d', heap', ds, hd, hd', hds, hheap, hall⟩ :=
    ranking_of_set (A := concrete) (concrete_lawful.hToB_toH [7]) (hranked (poolV6 ["a", "b"]))
      (hranked (poolV6 ["c", "b", "a"]))
      (fun af haf hosts' hhosts' => by
        obtain rfl := List.mem_singleton.mp haf
        obtain rfl := Option.some.inj
          (((poolV6 ["c", "b", "a"]).get?_servers linux .v6).symm.trans hhosts')
        exact hsep)
      hreads
  refine ⟨d, d', heap', ds, hd, hd', hds, hheap, ?_⟩
  exact (hall 10 (by decide) (by decide) (poolV6 ["a", "b"]).v6 (poolV6 ["c", "b", "a"]).v6
    ((poolV6 ["a", "b"]).get?_servers linux .v6)
    ((poolV6 ["c", "b", "a"]).get?_servers linux .v6)).2.2 (by decide +kernel)

end Sidewire
