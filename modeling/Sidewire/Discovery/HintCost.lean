import Sidewire.Discovery.Candidates

/-! # What hints cost

The same walk with and without cached hints, every broker behaving the same in
both. The hinted brokers come first among the ten that race, so stale hints push
ranked brokers out of the race; the hints cost nothing exactly if enough live
brokers are left among the ten.
-/

namespace Sidewire

section Results

variable {KP σ : Type} [LinearOrder σ]

/-- `per_af_results` of the last walk of a call. -/
def perAfResults (P : Platform) (T : ClientTable) (hints : List Hint) (A : Aio KP)
    (score : Bytes → Bytes → Bytes → σ) (nic : List Family) (destPubHex : String)
    (pool : BrokerPool) (walkCap : ℚ) (race : Race) : Except PyExc (List (List BrokerClient)) := do
  let afBuckets ← rendezvousHash A score (nic.map P.number) destPubHex (pool.servers P)
  let perAf ← afBuckets.entries.mapM fun e => walkAf P T hints race walkCap e.1 e.2
  if perAf.flatten = [] ∧ walkCap < 4 then
    afBuckets.entries.mapM fun e => walkAf P T hints race 4 e.1 e.2
  else return perAf

variable {A : Aio KP} {score : Bytes → Bytes → Bytes → σ} {P : Platform} {T : ClientTable}
  {hints : List Hint} {nic : List Family} {pool : BrokerPool} {key : Bytes} {pubKeyHex : String}
  {cap : ℚ} {race : Race}

theorem perAfResults_eq (score : Bytes → Bytes → Bytes → σ) (hkey : A.hToB pubKeyHex = .ok key) :
    perAfResults P T hints A score nic pubKeyHex pool cap race = (do
      let perAf ← (buckets A score P nic key pool ∅).entries.mapM fun e =>
        walkAf P T hints race cap e.1 e.2
      if perAf.flatten = [] ∧ cap < 4 then
        (buckets A score P nic key pool ∅).entries.mapM fun e => walkAf P T hints race 4 e.1 e.2
      else return perAf) := by
  simp only [perAfResults, rendezvousHash_eq hkey]
  rfl

theorem getDestClients_eq_flatten (score : Bytes → Bytes → Bytes → σ)
    (hkey : A.hToB pubKeyHex = .ok key) :
    getDestClients P T hints A score nic pubKeyHex pool cap race =
      (perAfResults P T hints A score nic pubKeyHex pool cap race).map List.flatten := by
  rw [getDestClients_eq score hkey, perAfResults_eq score hkey]
  cases (buckets A score P nic key pool ∅).entries.mapM
    fun e => walkAf P T hints race cap e.1 e.2 with
  | error exc => rfl
  | ok perAf =>
    change (if perAf.flatten = [] ∧ cap < 4 then _ else Except.ok perAf.flatten) =
      (if perAf.flatten = [] ∧ cap < 4 then _ else Except.ok perAf).map List.flatten
    split_ifs
    · cases (buckets A score P nic key pool ∅).entries.mapM
        fun e => walkAf P T hints race 4 e.1 e.2 <;> rfl
    · rfl

end Results

/-- Each broker either connects before the cap or never does, in whatever order they complete. -/
def FixedOutcome (live : BrokerClient → Bool) (race : Race) : Prop :=
  ∀ cap af racers, (∀ r ∈ race cap af racers, r.2 = .ok (live r.1)) ∧
    (((race cap af racers).map Prod.fst).filter live).Perm (racers.filter live)

def inTurn (live : BrokerClient → Bool) : Race :=
  fun _ _ racers => racers.map fun client => (client, .ok (live client))

theorem fixedOutcome_inTurn (live : BrokerClient → Bool) : FixedOutcome live (inTurn live) := by
  intro cap af racers
  constructor
  · intro r hr
    obtain ⟨client, -, rfl⟩ := List.mem_map.mp hr
    rfl
  · have hracers : (inTurn live cap af racers).map Prod.fst = racers := by
      simp [inTurn, Function.comp_def]
    rw [hracers]

section Count

variable {σ : Type} {P : Platform} {T : ClientTable} {hints : List Hint} {nicAf : ℕ}
  {us : List (Server × σ)} {live : BrokerClient → Bool} {race : Race} {cap : ℚ}

theorem needed_mono {m n : ℕ} (h : m ≤ n) : needed m ≤ needed n := by
  have := Nat.size_le_size h
  simp only [needed]
  omega

def liveRacers (live : BrokerClient → Bool) (candidates : List BrokerClient) : ℕ :=
  (candidates.take 10).countP live

def walkCount (live : BrokerClient → Bool) (candidates : List BrokerClient) : ℕ :=
  min (needed candidates.length) (liveRacers live candidates)

theorem walkAf_of_fixedOutcome (hrace : FixedOutcome live race) (hnamed : ∀ u ∈ us, u.1.Named)
    (hints : List Hint) (cap : ℚ) (nicAf : ℕ) : ∃ cs,
      walkAf P T hints race cap nicAf us = .ok cs ∧
      cs.length = walkCount live (distinct (hinted P T hints nicAf ++ ranked P T us)) := by
  have hcandidates : walkCandidates P T hints nicAf us =
      .ok (distinct (hinted P T hints nicAf ++ ranked P T us)) :=
    walkCandidates_eq_ok_iff.mpr ⟨hnamed, rfl⟩
  generalize distinct (hinted P T hints nicAf ++ ranked P T us) = cs at hcandidates ⊢
  simp only [walkAf, hcandidates]
  change ∃ found, (if needed cs.length = 0 then Except.ok [] else
    collect (needed cs.length) (race cap nicAf (cs.take 10)) []) = Except.ok found ∧ _
  obtain ⟨hresults, hlive⟩ := hrace cap nicAf (cs.take 10)
  by_cases hneeded : needed cs.length = 0
  · exact ⟨[], if_pos hneeded, by simp [walkCount, hneeded]⟩
  · refine ⟨_, (if_neg hneeded).trans
      (collect_of_outcome live _ [] hresults (Nat.pos_of_ne_zero hneeded)), ?_⟩
    rw [List.nil_append, List.length_take, hlive.length_eq, walkCount, liveRacers,
      List.countP_eq_length_filter]
    rfl

theorem named_of_walkAf {cs : List BrokerClient}
    (h : walkAf P T hints race cap nicAf us = .ok cs) : ∀ u ∈ us, u.1.Named := by
  obtain ⟨candidates, hcandidates, -⟩ := Fallible.bind_eq_ok.mp h
  exact (walkCandidates_eq_ok_iff.mp hcandidates).1

/-- Among the ten brokers that race with the hints in front there are as many live ones as the
family's walk finds without hints. -/
def KeepsLive (P : Platform) (T : ClientTable) (hints : List Hint) (live : BrokerClient → Bool)
    (nicAf : ℕ) (us : List (Server × σ)) : Prop :=
  min (needed (distinct (ranked P T us)).length) (liveRacers live (distinct (ranked P T us))) ≤
    liveRacers live (distinct (hinted P T hints nicAf ++ ranked P T us))

theorem walkCount_le_iff :
    walkCount live (distinct (hinted P T [] nicAf ++ ranked P T us)) ≤
      walkCount live (distinct (hinted P T hints nicAf ++ ranked P T us)) ↔
      KeepsLive P T hints live nicAf us := by
  have hneeded := needed_mono
    (length_distinct_le_append (hinted P T hints nicAf) (ranked P T us))
  change walkCount live (distinct (ranked P T us)) ≤ _ ↔ _
  simp only [walkCount, KeepsLive, le_min_iff]
  constructor
  · exact And.right
  · exact fun h => ⟨(min_le_left _ _).trans hneeded, h⟩

end Count

section Spec

variable {KP σ : Type} [LinearOrder σ] {A : Aio KP} {score : Bytes → Bytes → Bytes → σ}
  {P : Platform} {T : ClientTable} {hints : List Hint} {nic : List Family} {pool : BrokerPool}
  {key : Bytes} {pubKeyHex : String} {live : BrokerClient → Bool} {race : Race} {cap : ℚ}
  {perAf : List (List BrokerClient)}

theorem mem_bucket {fam : Family} {e : String × Server} (he : e ∈ (pool.hosts fam).entries)
    (A : Aio KP) (score : Bytes → Bytes → Bytes → σ) (af : ℕ) (key : Bytes) :
    ∃ u ∈ bucket A score af key (pool.hosts fam), u.1 = e.2 := by
  have hmem := (bucket_perm A score af key (pool.hosts fam)).symm.subset (List.mem_map_of_mem he)
  exact List.mem_map.mp hmem

theorem named_of_mem_buckets {e : ℕ × List (Server × σ)}
    (hnamed : ∀ fam ∈ nic, ∀ e ∈ (pool.hosts fam).entries, e.2.Named)
    (he : e ∈ (buckets A score P nic key pool ∅).entries) : ∀ u ∈ e.2, u.1.Named := by
  obtain ⟨fam, hfam, rfl⟩ := mem_entries_buckets rfl he
  intro u hu
  obtain ⟨entry, hentry, hserver⟩ := mem_hosts_of_mem_bucket hu
  rw [← hserver]
  exact hnamed fam hfam entry hentry

theorem perAfResults_of_fixedOutcome (score : Bytes → Bytes → Bytes → σ)
    (hkey : A.hToB pubKeyHex = .ok key) (hrace : FixedOutcome live race)
    (hnamed : ∀ fam ∈ nic, ∀ e ∈ (pool.hosts fam).entries, e.2.Named) (hints : List Hint)
    (cap : ℚ) : ∃ perAf, perAfResults P T hints A score nic pubKeyHex pool cap race = .ok perAf ∧
      List.Forall₂ (fun e cs => cs.length = walkCount live
        (distinct (hinted P T hints e.1 ++ ranked P T e.2)))
        (buckets A score P nic key pool ∅).entries perAf := by
  have hwalks : ∀ cap, ∃ perAf, (buckets A score P nic key pool ∅).entries.mapM
      (fun e => walkAf P T hints race cap e.1 e.2) = Except.ok perAf ∧
      List.Forall₂ (fun e cs => cs.length = walkCount live
        (distinct (hinted P T hints e.1 ++ ranked P T e.2)))
        (buckets A score P nic key pool ∅).entries perAf := by
    intro cap
    obtain ⟨perAf, hperAf, -⟩ := Fallible.exists_mapM_eq_ok
      (f := fun e : ℕ × List (Server × σ) => walkAf P T hints race cap e.1 e.2)
      (l := (buckets A score P nic key pool ∅).entries) (by
        intro e he
        obtain ⟨cs, hcs, -⟩ := walkAf_of_fixedOutcome hrace
          (named_of_mem_buckets hnamed he) hints cap e.1
        exact ⟨cs, hcs⟩)
    refine ⟨perAf, hperAf, ?_⟩
    apply (Fallible.mapM_eq_ok_iff.mp hperAf).imp
    intro e cs hcs
    obtain ⟨cs', hcs', hlen⟩ :=
      walkAf_of_fixedOutcome (T := T) hrace (named_of_walkAf hcs) hints cap e.1
    rw [hcs, Except.ok.injEq] at hcs'
    rw [hcs', hlen]
  obtain ⟨perAf, hperAf, hlen⟩ := hwalks cap
  obtain ⟨perAf', hperAf', hlen'⟩ := hwalks 4
  rw [perAfResults_eq score hkey, hperAf]
  change ∃ result, (if perAf.flatten = [] ∧ cap < 4 then _ else Except.ok perAf) = _ ∧ _
  split_ifs
  · exact ⟨perAf', hperAf', hlen'⟩
  · exact ⟨perAf, rfl, hlen⟩

theorem named_of_perAfResults (hkey : A.hToB pubKeyHex = .ok key)
    (h : perAfResults P T hints A score nic pubKeyHex pool cap race = .ok perAf) :
    ∀ fam ∈ nic, ∀ e ∈ (pool.hosts fam).entries, e.2.Named := by
  rw [perAfResults_eq score hkey] at h
  obtain ⟨first, hfirst, -⟩ := Fallible.bind_eq_ok.mp h
  intro fam hfam e he
  obtain ⟨cs, -, hcs⟩ := Fallible.exists_of_mapM_eq_ok hfirst
    (PyDict.get?_eq_some_iff.mp (get?_buckets hfam ∅))
  obtain ⟨u, hu, hserver⟩ := mem_bucket he A score (P.number fam) key
  rw [← hserver]
  exact named_of_walkAf hcs u hu

theorem forall₂_length_le_iff {α β : Type} {f g : α → ℕ} {es : List α} {bs bs' : List (List β)}
    (h : List.Forall₂ (fun e cs => cs.length = f e) es bs)
    (h' : List.Forall₂ (fun e cs => cs.length = g e) es bs') :
    List.Forall₂ (fun cs cs' => cs.length ≤ cs'.length) bs bs' ↔ ∀ e ∈ es, f e ≤ g e := by
  induction h generalizing bs' with
  | nil =>
    cases h'
    simp
  | cons hb _ ih =>
    cases h' with
    | cons hb' h' =>
      rw [List.forall₂_cons, ih h', List.forall_mem_cons, hb, hb']

/-- Each family's walk finds at least as many clients with the hints as without them, whichever way
the brokers complete, exactly if in every family the hints leave enough live brokers in the race. -/
theorem hints_cost_nothing_iff (T : ClientTable) (score : Bytes → Bytes → Bytes → σ)
    (hints : List Hint) (live : BrokerClient → Bool) (nic : List Family) (pool : BrokerPool)
    (cap : ℚ) (hkey : A.hToB pubKeyHex = .ok key) :
    (∀ race race' perAf perAf', FixedOutcome live race → FixedOutcome live race' →
      perAfResults P T [] A score nic pubKeyHex pool cap race = .ok perAf →
      perAfResults P T hints A score nic pubKeyHex pool cap race' = .ok perAf' →
      List.Forall₂ (fun cs cs' => cs.length ≤ cs'.length) perAf perAf') ↔
      ((∀ fam ∈ nic, ∀ e ∈ (pool.hosts fam).entries, e.2.Named) → ∀ fam ∈ nic,
        KeepsLive P T hints live (P.number fam)
          (bucket A score (P.number fam) key (pool.hosts fam))) := by
  have hcompare : ∀ {race race' : Race} {perAf perAf' : List (List BrokerClient)},
      FixedOutcome live race → FixedOutcome live race' →
      perAfResults P T [] A score nic pubKeyHex pool cap race = .ok perAf →
      perAfResults P T hints A score nic pubKeyHex pool cap race' = .ok perAf' →
      (List.Forall₂ (fun cs cs' => cs.length ≤ cs'.length) perAf perAf' ↔ ∀ fam ∈ nic,
        KeepsLive P T hints live (P.number fam)
          (bucket A score (P.number fam) key (pool.hosts fam))) := by
    intro race race' perAf perAf' hrace hrace' h h'
    have hnamed := named_of_perAfResults hkey h
    obtain ⟨perAf₁, h₁, hlen⟩ :=
      perAfResults_of_fixedOutcome (T := T) score hkey hrace hnamed [] cap
    obtain ⟨perAf₂, h₂, hlen'⟩ :=
      perAfResults_of_fixedOutcome (T := T) score hkey hrace' hnamed hints cap
    rw [h, Except.ok.injEq] at h₁
    rw [h', Except.ok.injEq] at h₂
    subst h₁ h₂
    rw [forall₂_length_le_iff hlen hlen']
    simp only [walkCount_le_iff]
    constructor
    · intro hall fam hfam
      have hmem : (P.number fam, bucket A score (P.number fam) key (pool.hosts fam)) ∈
          (buckets A score P nic key pool ∅).entries :=
        PyDict.get?_eq_some_iff.mp (get?_buckets hfam ∅)
      have hkeeps := hall _ hmem
      exact hkeeps
    · intro hall e he
      obtain ⟨fam, hfam, rfl⟩ := mem_entries_buckets rfl he
      exact hall fam hfam
  constructor
  · intro h hnamed
    have hfixed := fixedOutcome_inTurn live
    obtain ⟨perAf, hperAf, -⟩ :=
      perAfResults_of_fixedOutcome (T := T) (P := P) score hkey hfixed hnamed [] cap
    obtain ⟨perAf', hperAf', -⟩ :=
      perAfResults_of_fixedOutcome (T := T) (P := P) score hkey hfixed hnamed hints cap
    exact (hcompare hfixed hfixed hperAf hperAf').mp
      (h _ _ perAf perAf' hfixed hfixed hperAf hperAf')
  · intro h race race' perAf perAf' hrace hrace' hperAf hperAf'
    exact (hcompare hrace hrace' hperAf hperAf').mpr (h (named_of_perAfResults hkey hperAf))

def hostValue (_af _key host : Bytes) : ℕ := BigEndian.ofBytes host

def pairTable : ClientTable :=
  ((∅ : ClientTable).set IP4 (((∅ : PyDict String BrokerClient).set "a" ⟨IP4, "a", 1883⟩).set "b"
    ⟨IP4, "b", 1883⟩)).set 10 ∅

/-- A hint for the second of two brokers costs nothing, the first being dead. -/
theorem hints_cost_nothing_pair : ∃ perAf perAf',
    perAfResults linux pairTable [] concrete hostValue [.v4] (concrete.toH [7])
      pairPool.toBrokerPool 2 (inTurn fun c => c.host = "b") = .ok perAf ∧
    perAfResults linux pairTable [⟨2, "b"⟩] concrete hostValue [.v4] (concrete.toH [7])
      pairPool.toBrokerPool 2 (inTurn fun c => c.host = "b") = .ok perAf' ∧
    List.Forall₂ (fun cs cs' => cs.length ≤ cs'.length) perAf perAf' := by
  have hplain : perAfResults linux pairTable [] concrete hostValue [.v4] (concrete.toH [7])
      pairPool.toBrokerPool 2 (inTurn fun c => c.host = "b") = .ok [[⟨IP4, "b", 1883⟩]] := by
    decide +kernel
  have hhinted : perAfResults linux pairTable [⟨2, "b"⟩] concrete hostValue [.v4]
      (concrete.toH [7]) pairPool.toBrokerPool 2 (inTurn fun c => c.host = "b") =
        .ok [[⟨IP4, "b", 1883⟩]] := by
    decide +kernel
  have hfixed := fixedOutcome_inTurn fun c => c.host = "b"
  refine ⟨_, _, hplain, hhinted, ?_⟩
  apply (hints_cost_nothing_iff pairTable hostValue [⟨2, "b"⟩] (fun c => c.host = "b") [.v4]
    pairPool.toBrokerPool 2 (concrete_lawful.hToB_toH [7])).mpr ?_ _ _ _ _ hfixed hfixed hplain
      hhinted
  intro _ fam hfam
  obtain rfl := List.mem_singleton.mp hfam
  unfold KeepsLive
  decide +kernel

def dozen : BrokerPool where
  v4 := ["a", "b", "c", "d", "e", "f", "g", "h", "i", "j", "k", "l"].foldl
    (fun d host => d.set host ⟨some IP4, some host, 1883, none⟩) ∅
  v6 := ∅

def staleHints : List Hint :=
  ["c", "d", "e", "f", "g", "h", "i", "j", "k", "l"].map fun host => ⟨2, host⟩

/-- The two best ranked brokers are live; ten hinted dead ones keep both out of the race. -/
theorem stale_hints_cost : FixedOutcome (fun c => c.host ∈ ["a", "b"])
      (inTurn fun c => c.host ∈ ["a", "b"]) ∧
    (initClients linux [.v4] dozen >>= fun T => getDestClients linux T [] concrete hostValue [.v4]
      (concrete.toH [7]) dozen 2 (inTurn fun c => c.host ∈ ["a", "b"])) =
      .ok [⟨2, "a", 1883⟩, ⟨2, "b", 1883⟩] ∧
    (initClients linux [.v4] dozen >>= fun T => getDestClients linux T staleHints concrete hostValue
      [.v4] (concrete.toH [7]) dozen 2 (inTurn fun c => c.host ∈ ["a", "b"])) = .ok [] := by
  exact ⟨fixedOutcome_inTurn _, by decide +kernel, by decide +kernel⟩

end Spec

end Sidewire
