import Sidewire.Lib.PyDict
import Sidewire.Mqtt.Concrete

/-! # Rendezvous ranking

Each address family a host supports gets the brokers of its pool sorted by their
score for the destination key. The family enters the score as the number the
host's platform gives it.
-/

namespace Sidewire

/-- `socket.AF_INET`, the same on every platform. -/
def IP4 : ℕ := 2

structure Platform where
  ip6 : ℕ
  ip6_ne : ip6 ≠ IP4
  ip6_lt : ip6 < 256

inductive Family | v4 | v6
  deriving DecidableEq, Repr

def Platform.number (P : Platform) : Family → ℕ
  | .v4 => IP4
  | .v6 => P.ip6

/-- A broker's entry in the pool: the number of its family in the database, its host and port, and
the weight that a custom pool gives it. -/
structure Server where
  af : Option ℕ
  host : Option String
  port : ℕ
  weight : Option ℚ := none
  deriving DecidableEq, Repr

structure BrokerPool where
  v4 : PyDict String Server
  v6 : PyDict String Server

def BrokerPool.hosts (pool : BrokerPool) : Family → PyDict String Server
  | .v4 => pool.v4
  | .v6 => pool.v6

/-- The pool as a host holds it, under its own family numbers. -/
def BrokerPool.servers (pool : BrokerPool) (P : Platform) : PyDict ℕ (PyDict String Server) :=
  ((∅ : PyDict ℕ (PyDict String Server)).set IP4 pool.v4).set P.ip6 pool.v6

variable {KP σ : Type} [LinearOrder σ] (A : Aio KP) (rendezvousScore : Bytes → Bytes → Bytes → σ)

def getServerScore (af : ℕ) (host pubKeyHex : String) : Except PyExc σ := do
  let afByte ← if af < 256 then .ok [UInt8.ofNat af]
    else .error (.valueError "bytes must be in range(0, 256)")
  let pubKey ← A.hToB pubKeyHex
  return rendezvousScore afByte pubKey (A.toB (.str host))

def scoreBucket (af : ℕ) (pubKeyHex : String) (hosts : PyDict String Server) :
    Except PyExc (List (Server × σ)) := do
  let scored ← hosts.entries.mapM fun (host, server) => do
    let score ← getServerScore A rendezvousScore af host pubKeyHex
    return (server, score)
  return scored.insertionSort fun u v => u.2 ≤ v.2

def rendezvousHash (supported : List ℕ) (pubKeyHex : String)
    (servers : PyDict ℕ (PyDict String Server)) :
    Except PyExc (PyDict ℕ (List (Server × σ))) :=
  supported.foldlM (fun afBuckets af => do
    let hosts ← match servers.get? af with
      | some hosts => .ok hosts
      | none => .error (.keyError (toString af))
    let bucket ← scoreBucket A rendezvousScore af pubKeyHex hosts
    return afBuckets.set af bucket) ∅

def ranking (P : Platform) (nic : List Family) (pubKeyHex : String) (pool : BrokerPool)
    (fam : Family) : Except PyExc (Option (List Server)) := do
  let afBuckets ← rendezvousHash A rendezvousScore (nic.map P.number) pubKeyHex (pool.servers P)
  return (afBuckets.get? (P.number fam)).map (List.map Prod.fst)

variable {A rendezvousScore}

theorem Platform.number_lt (P : Platform) (fam : Family) : P.number fam < 256 := by
  cases fam
  · exact (by decide : IP4 < 256)
  · exact P.ip6_lt

theorem Platform.number_inj (P : Platform) {fam fam' : Family} :
    P.number fam = P.number fam' ↔ fam = fam' := by
  have := P.ip6_ne
  cases fam <;> cases fam' <;> simp [Platform.number, this, Ne.symm this]

theorem BrokerPool.get?_servers (pool : BrokerPool) (P : Platform) (fam : Family) :
    (pool.servers P).get? (P.number fam) = some (pool.hosts fam) := by
  cases fam with
  | v4 =>
    rw [Platform.number, BrokerPool.servers, PyDict.get?_set_ne P.ip6_ne.symm,
      PyDict.get?_set_self]
    rfl
  | v6 =>
    rw [Platform.number, BrokerPool.servers, PyDict.get?_set_self]
    rfl

def bucket (A : Aio KP) (rendezvousScore : Bytes → Bytes → Bytes → σ) (af : ℕ) (key : Bytes)
    (hosts : PyDict String Server) : List (Server × σ) :=
  (hosts.entries.map fun e =>
    (e.2, rendezvousScore [UInt8.ofNat af] key (A.toB (.str e.1)))).insertionSort
      fun u v => u.2 ≤ v.2

section Spec

variable {af : ℕ} {pubKeyHex : String} {key : Bytes}

omit [LinearOrder σ] in
theorem getServerScore_eq (haf : af < 256) (hkey : A.hToB pubKeyHex = .ok key) (host : String) :
    getServerScore A rendezvousScore af host pubKeyHex =
      .ok (rendezvousScore [UInt8.ofNat af] key (A.toB (.str host))) := by
  simp only [getServerScore, if_pos haf, hkey]
  rfl

theorem scoreBucket_eq (haf : af < 256) (hkey : A.hToB pubKeyHex = .ok key)
    (hosts : PyDict String Server) :
    scoreBucket A rendezvousScore af pubKeyHex hosts =
      .ok (bucket A rendezvousScore af key hosts) := by
  have hscored : (hosts.entries.mapM fun (host, server) => do
      let score ← getServerScore A rendezvousScore af host pubKeyHex
      return (server, score)) = Except.ok (hosts.entries.map fun e =>
        (e.2, rendezvousScore [UInt8.ofNat af] key (A.toB (.str e.1)))) := by
    simp only [getServerScore_eq haf hkey]
    exact List.mapM_pure
  simp only [scoreBucket, hscored]
  rfl

def buckets (A : Aio KP) (rendezvousScore : Bytes → Bytes → Bytes → σ) (P : Platform)
    (nic : List Family) (key : Bytes) (pool : BrokerPool)
    (d : PyDict ℕ (List (Server × σ))) : PyDict ℕ (List (Server × σ)) :=
  nic.foldl (fun d fam =>
    d.set (P.number fam) (bucket A rendezvousScore (P.number fam) key (pool.hosts fam))) d

theorem rendezvousHash_eq (hkey : A.hToB pubKeyHex = .ok key) (P : Platform) (nic : List Family)
    (pool : BrokerPool) :
    rendezvousHash A rendezvousScore (nic.map P.number) pubKeyHex (pool.servers P) =
      .ok (buckets A rendezvousScore P nic key pool ∅) := by
  rw [rendezvousHash, buckets]
  generalize (∅ : PyDict ℕ (List (Server × σ))) = d
  induction nic generalizing d with
  | nil => rfl
  | cons fam nic ih =>
    rw [List.map_cons, List.foldlM_cons, List.foldl_cons]
    simp only [pool.get?_servers P fam, scoreBucket_eq (P.number_lt fam) hkey]
    exact ih _

theorem get?_buckets {P : Platform} {nic : List Family} {pool : BrokerPool} {fam : Family}
    (h : fam ∈ nic) (d : PyDict ℕ (List (Server × σ))) :
    (buckets A rendezvousScore P nic key pool d).get? (P.number fam) =
      some (bucket A rendezvousScore (P.number fam) key (pool.hosts fam)) := by
  have hset : ∀ (nic : List Family) (d : PyDict ℕ (List (Server × σ))),
      d.get? (P.number fam) = some (bucket A rendezvousScore (P.number fam) key (pool.hosts fam)) →
      (buckets A rendezvousScore P nic key pool d).get? (P.number fam) =
        some (bucket A rendezvousScore (P.number fam) key (pool.hosts fam)) := by
    intro nic
    induction nic with
    | nil => exact fun d hd => hd
    | cons fam' nic ih =>
      intro d hd
      apply ih
      simp only [PyDict.get?_set, P.number_inj]
      split_ifs with hfam
      · rw [hfam]
      · exact hd
  induction nic generalizing d with
  | nil => cases h
  | cons fam' nic ih =>
    rcases List.mem_cons.mp h with rfl | h
    · exact hset nic _ (PyDict.get?_set_self _ _ _)
    · exact ih h _

theorem ranking_eq (hkey : A.hToB pubKeyHex = .ok key) {P : Platform} {nic : List Family}
    {pool : BrokerPool} {fam : Family} (h : fam ∈ nic) :
    ranking A rendezvousScore P nic pubKeyHex pool fam =
      .ok (some ((bucket A rendezvousScore (P.number fam) key (pool.hosts fam)).map Prod.fst)) := by
  simp only [ranking, rendezvousHash_eq hkey]
  change Except.ok (((buckets A rendezvousScore P nic key pool ∅).get? (P.number fam)).map
    (List.map Prod.fst)) = _
  rw [get?_buckets h]
  rfl

end Spec

section Platforms

variable {P Q : Platform} {hosts : PyDict String Server} {key : Bytes}

theorem bucket_perm (A : Aio KP) (rendezvousScore : Bytes → Bytes → Bytes → σ) (af : ℕ)
    (key : Bytes) (hosts : PyDict String Server) :
    ((bucket A rendezvousScore af key hosts).map Prod.fst).Perm (hosts.entries.map Prod.snd) := by
  have h := (List.perm_insertionSort (fun u v : Server × σ => u.2 ≤ v.2)
    (hosts.entries.map fun e =>
      (e.2, rendezvousScore [UInt8.ofNat af] key (A.toB (.str e.1))))).map Prod.fst
  rw [List.map_map] at h
  exact h

theorem bucket_of_constant {af : ℕ} {c : σ}
    (h : ∀ host, rendezvousScore [UInt8.ofNat af] key (A.toB (.str host)) = c) :
    (bucket A rendezvousScore af key hosts).map Prod.fst = hosts.entries.map Prod.snd := by
  rw [bucket, List.Pairwise.insertionSort_eq, List.map_map]
  · rfl
  · simp only [h, List.pairwise_map, le_refl]
    exact List.pairwise_of_forall fun _ _ => trivial

theorem pairwise_of_bucket {af : ℕ} {g : Server → σ}
    (hg : ∀ e ∈ hosts.entries,
      rendezvousScore [UInt8.ofNat af] key (A.toB (.str e.1)) = g e.2)
    (h : (bucket A rendezvousScore af key hosts).map Prod.fst = hosts.entries.map Prod.snd) :
    (hosts.entries.map Prod.snd).Pairwise fun u v => g u ≤ g v := by
  have hscored : (hosts.entries.map fun e =>
      (e.2, rendezvousScore [UInt8.ofNat af] key (A.toB (.str e.1)))) =
      (hosts.entries.map Prod.snd).map fun u => (u, g u) := by
    rw [List.map_map]
    exact List.map_congr_left fun e he => by rw [hg e he]; rfl
  have hsnd : ∀ e ∈ bucket A rendezvousScore af key hosts, e.2 = g e.1 := by
    intro e he
    rw [bucket, List.mem_insertionSort, hscored, List.mem_map] at he
    obtain ⟨u, -, rfl⟩ := he
    rfl
  have hsorted := List.pairwise_insertionSort (fun u v : Server × σ => u.2 ≤ v.2)
    (hosts.entries.map fun e =>
      (e.2, rendezvousScore [UInt8.ofNat af] key (A.toB (.str e.1))))
  rw [← h, List.pairwise_map]
  apply hsorted.imp_of_mem
  intro u v hu hv huv
  rwa [← hsnd u hu, ← hsnd v hv]

theorem ofNat_number_ne (h : P.ip6 ≠ Q.ip6) : UInt8.ofNat P.ip6 ≠ UInt8.ofNat Q.ip6 := by
  intro heq
  have := congrArg UInt8.toNat heq
  simp only [UInt8.toNat_ofNat', Nat.mod_eq_of_lt P.ip6_lt, Nat.mod_eq_of_lt Q.ip6_lt] at this
  exact h this

/-- `to_b` tells the names of the hosts apart, as it does for ASCII names. -/
def ToldApart (A : Aio KP) (hosts : PyDict String Server) : Prop :=
  ∀ e ∈ hosts.entries, ∀ e' ∈ hosts.entries, A.toB (.str e.1) = A.toB (.str e'.1) → e.1 = e'.1

theorem exists_score_of_ne [Nontrivial σ] (hhosts : ToldApart A hosts) (key : Bytes)
    (h : P.ip6 ≠ Q.ip6) {u v : Server}
    (hu : u ∈ hosts.entries.map Prod.snd) (hv : v ∈ hosts.entries.map Prod.snd) (huv : u ≠ v) :
    ∃ score : Bytes → Bytes → Bytes → σ, (bucket A score P.ip6 key hosts).map Prod.fst ≠
      (bucket A score Q.ip6 key hosts).map Prod.fst := by
  classical
  obtain ⟨lo, hi, hlt⟩ := exists_pair_lt σ
  -- some broker comes before a different one
  obtain ⟨a, as, b, has, hb, hab⟩ : ∃ a as b, hosts.entries.map Prod.snd = a :: as ∧ b ∈ as ∧
      a ≠ b := by
    cases hs : hosts.entries.map Prod.snd with
    | nil => rw [hs] at hu; cases hu
    | cons a as =>
      rw [hs] at hu hv
      rcases List.mem_cons.mp hu with rfl | hu
      · rcases List.mem_cons.mp hv with rfl | hv
        · exact absurd rfl huv
        · exact ⟨u, as, v, rfl, hv, huv⟩
      · by_cases hau : a = u
        · rcases List.mem_cons.mp hv with rfl | hv
          · exact absurd hau.symm huv
          · exact ⟨a, as, v, rfl, hv, hau ▸ huv⟩
        · exact ⟨a, as, u, rfl, hu, hau⟩
  refine ⟨fun af _ host => if af = [UInt8.ofNat Q.ip6] ∧ ∃ e ∈ hosts.entries,
    A.toB (.str e.1) = host ∧ e.2 = a then hi else lo, ?_⟩
  intro heq
  rw [bucket_of_constant (c := lo)] at heq
  · have hpair := pairwise_of_bucket (g := fun w => if w = a then hi else lo) ?_ heq.symm
    · rw [has, List.pairwise_cons] at hpair
      have := hpair.1 b hb
      rw [if_pos rfl, if_neg (Ne.symm hab)] at this
      exact absurd this (not_le.mpr hlt)
    · intro e he
      have hiff : (∃ e' ∈ hosts.entries, A.toB (.str e'.1) = A.toB (.str e.1) ∧ e'.2 = a) ↔
          e.2 = a := by
        constructor
        · rintro ⟨e', he', hname, ha⟩
          have hget := PyDict.get?_eq_some_iff.mpr he
          have hget' := PyDict.get?_eq_some_iff.mpr he'
          rw [hhosts e' he' e he hname, hget] at hget'
          rw [Option.some.inj hget', ha]
        · intro ha
          exact ⟨e, he, rfl, ha⟩
      simp only [true_and, hiff]
  · intro host
    rw [if_neg]
    rintro ⟨hP, -⟩
    exact ofNat_number_ne h (List.cons.inj hP).1

/-- The IPv6 brokers of a pool come in the same order on both platforms whatever the scoring
function, if the platforms number IPv6 alike or the pool has no two different brokers; and only
then, where no two names are the same to the hash. -/
theorem same_ranking_iff [Nontrivial σ] (hA : A.Lawful) (pool : BrokerPool) (key : Bytes)
    (P Q : Platform) {nicP nicQ : List Family} (hP : .v6 ∈ nicP) (hQ : .v6 ∈ nicQ) :
    ((P.ip6 = Q.ip6 ∨ ∀ u ∈ pool.v6.entries.map Prod.snd, ∀ v ∈ pool.v6.entries.map Prod.snd,
        u = v) → ∀ score : Bytes → Bytes → Bytes → σ,
        ranking A score P nicP (A.toH key) pool .v6 =
          ranking A score Q nicQ (A.toH key) pool .v6) ∧
      (ToldApart A pool.v6 → (∀ score : Bytes → Bytes → Bytes → σ,
        ranking A score P nicP (A.toH key) pool .v6 =
          ranking A score Q nicQ (A.toH key) pool .v6) →
        P.ip6 = Q.ip6 ∨ ∀ u ∈ pool.v6.entries.map Prod.snd, ∀ v ∈ pool.v6.entries.map Prod.snd,
          u = v) := by
  simp only [ranking_eq (σ := σ) (hA.hToB_toH key) hP, ranking_eq (σ := σ) (hA.hToB_toH key) hQ,
    Except.ok.injEq, Option.some.injEq]
  constructor
  · rintro (heq | hall) score
    · simp only [Platform.number, heq]
    · have hperm := (bucket_perm A score (P.number .v6) key (pool.hosts .v6)).trans
        (bucket_perm A score (Q.number .v6) key (pool.hosts .v6)).symm
      have hany : ∀ us : List Server, us.Pairwise fun _ _ => True :=
        fun us => List.pairwise_of_forall fun _ _ => trivial
      apply hperm.eq_of_pairwise _ (hany _) (hany _)
      intro u v hu hv _ _
      have hmem := (bucket_perm A score (P.number .v6) key (pool.hosts .v6)).subset hu
      have hmem' := (bucket_perm A score (Q.number .v6) key (pool.hosts .v6)).subset hv
      exact hall u hmem v hmem'
  · intro hhosts h
    by_contra hno
    rw [not_or] at hno
    obtain ⟨hne, hno⟩ := hno
    apply hno
    intro u hu v hv
    by_contra huv
    obtain ⟨score, hscore⟩ := exists_score_of_ne (σ := σ) hhosts key hne hu hv huv
    exact hscore (h score)

def linux : Platform := ⟨10, by decide, by decide⟩

def windows : Platform := ⟨23, by decide, by decide⟩

def poolV6 (hosts : List String) : BrokerPool where
  v4 := ∅
  v6 := hosts.foldl (fun d host => d.set host ⟨some 10, some host, 1883, none⟩) ∅

/-- One broker comes in the same order on platforms that number IPv6 differently. -/
theorem same_ranking_single : linux.ip6 ≠ windows.ip6 ∧
    ∀ score : Bytes → Bytes → Bytes → ℕ,
      ranking concrete score linux [.v4, .v6] (concrete.toH [7]) (poolV6 ["a"]) .v6 =
        ranking concrete score windows [.v6] (concrete.toH [7]) (poolV6 ["a"]) .v6 := by
  have hall : ∀ u ∈ (poolV6 ["a"]).v6.entries.map Prod.snd,
      ∀ v ∈ (poolV6 ["a"]).v6.entries.map Prod.snd, u = v := by decide +kernel
  exact ⟨by decide, (same_ranking_iff (σ := ℕ) concrete_lawful (poolV6 ["a"]) [7] linux windows
    (by decide) (by decide)).1 (Or.inr hall)⟩

/-- A score that multiplies family and host, modulo three, puts two brokers in opposite orders on
Linux and on Windows. -/
theorem ranking_linux_ne_windows :
    ranking concrete (fun af _ host => (BigEndian.ofBytes af * BigEndian.ofBytes host) % 3) linux
        [.v4, .v6] (concrete.toH [7]) (poolV6 ["a", "b"]) .v6 ≠
      ranking concrete (fun af _ host => (BigEndian.ofBytes af * BigEndian.ofBytes host) % 3)
        windows [.v4, .v6] (concrete.toH [7]) (poolV6 ["a", "b"]) .v6 := by
  decide +kernel

end Platforms

end Sidewire
