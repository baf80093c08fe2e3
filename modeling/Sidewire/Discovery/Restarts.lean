import Sidewire.Discovery.HintFile
import Sidewire.Discovery.Outage
import Sidewire.Discovery.ServerList

/-! # Starts of a node, one after the other

At each start a node races the brokers of its last start ahead of the ranked
ones, and remembers those it finds now. Of the ten places in a race the
remembered brokers take three at most. From an empty entry, and while the pool
stays the same, they come from the ten best ranked, so that a start only orders
the race anew.
-/

namespace Sidewire

section Distinct

variable {α : Type} [DecidableEq α] {l l' r acc : List α} {a : α} {n : ℕ}

theorem foldl_push_of_nodup (h : r.Nodup) (acc : List α) :
    r.foldl push acc = acc ++ r.filter (· ∉ acc) := by
  induction r generalizing acc with
  | nil => simp
  | cons a r ih =>
    rw [List.nodup_cons] at h
    rw [List.foldl_cons, ih h.2]
    unfold push
    split_ifs with ha
    · rw [List.filter_cons_of_neg (by simpa using ha)]
    · rw [List.filter_cons_of_pos (by simpa using ha), List.append_assoc]
      congr 1
      rw [List.singleton_append, List.cons.injEq]
      refine ⟨rfl, List.filter_congr fun b hb => ?_⟩
      have hba : b ≠ a := fun heq => h.1 (heq ▸ hb)
      simp [hba]

theorem distinct_append (l : List α) (h : r.Nodup) :
    distinct (l ++ r) = distinct l ++ r.filter (· ∉ l) := by
  rw [distinct, List.foldl_append, ← distinct, foldl_push_of_nodup h]
  simp only [mem_distinct]

theorem length_foldl_push_le (l acc : List α) :
    (l.foldl push acc).length ≤ acc.length + l.length := by
  induction l generalizing acc with
  | nil => simp
  | cons a l ih =>
    have hpush : (push acc a).length ≤ acc.length + 1 := by
      unfold push
      split_ifs <;> simp
    have hrest := ih (push acc a)
    rw [List.foldl_cons, List.length_cons]
    omega

theorem length_distinct_le (l : List α) : (distinct l).length ≤ l.length := by
  simpa [distinct] using length_foldl_push_le l []

theorem prefix_foldl_push (l acc : List α) : acc <+: l.foldl push acc := by
  induction l generalizing acc with
  | nil => exact List.prefix_refl acc
  | cons a l ih =>
    apply List.IsPrefix.trans _ (ih (push acc a))
    unfold push
    split_ifs
    · exact List.prefix_refl acc
    · exact List.prefix_append acc [a]

theorem mem_take_distinct (h : l.length ≤ n) (ha : a ∈ l) : a ∈ (distinct (l ++ r)).take n := by
  have hprefix : distinct l <+: distinct (l ++ r) := by
    rw [distinct, distinct, List.foldl_append]
    exact prefix_foldl_push r _
  obtain ⟨rest, hrest⟩ := hprefix
  have hlen : (distinct l).length ≤ n := (length_distinct_le l).trans h
  rw [← hrest, List.take_append, List.take_of_length_le hlen]
  exact List.mem_append_left _ (mem_distinct.mpr ha)

theorem length_distinct_append (hr : r.Nodup) (hl : ∀ a ∈ l, a ∈ r) :
    (distinct (l ++ r)).length = r.length := by
  apply List.Perm.length_eq
  apply (List.perm_ext_iff_of_nodup (nodup_distinct _) hr).mpr
  intro a
  rw [mem_distinct, List.mem_append]
  constructor
  · rintro (ha | ha)
    · exact hl a ha
    · exact ha
  · exact Or.inr

theorem take_distinct_perm (hr : r.Nodup) (hl : ∀ a ∈ l, a ∈ r.take n) :
    ((distinct (l ++ r)).take n).Perm (r.take n) := by
  have hnodup : ((distinct (l ++ r)).take n).Nodup :=
    (nodup_distinct _).sublist (List.take_sublist _ _)
  have hsub : ((distinct (l ++ r)).take n) ⊆ r.take n := by
    have hfront : distinct l ⊆ r.take n := fun a ha => hl a (mem_distinct.mp ha)
    have hcount : (distinct l).length + ((r.take n).filter (· ∉ l)).length = (r.take n).length := by
      rw [← List.length_append]
      apply List.Perm.length_eq
      apply (List.perm_ext_iff_of_nodup _ (hr.sublist (List.take_sublist n r))).mpr
      · intro a
        simp only [List.mem_append, mem_distinct, List.mem_filter, decide_eq_true_eq]
        constructor
        · rintro (ha | ⟨ha, -⟩)
          · exact hl a ha
          · exact ha
        · intro ha
          by_cases hal : a ∈ l
          · exact Or.inl hal
          · exact Or.inr ⟨ha, hal⟩
      · apply (nodup_distinct l).append ((hr.sublist (List.take_sublist n r)).filter _)
        intro a ha ha'
        exact of_decide_eq_true (List.mem_filter.mp ha').2 (mem_distinct.mp ha)
    rw [distinct_append l hr, List.take_append]
    intro a ha
    rcases List.mem_append.mp ha with ha | ha
    · exact hfront (List.mem_of_mem_take ha)
    · -- behind the elements put first there is room for the rest of the first ones only
      have hsplit : r.filter (· ∉ l) = (r.take n).filter (· ∉ l) ++ (r.drop n).filter (· ∉ l) := by
        rw [← List.filter_append, List.take_append_drop]
      rcases Nat.lt_or_ge n r.length with hlt | hge
      · have hroom : n - (distinct l).length ≤ ((r.take n).filter (· ∉ l)).length := by
          rw [List.length_take] at hcount
          omega
        rw [hsplit, List.take_append_of_le_length hroom] at ha
        exact (List.mem_filter.mp (List.mem_of_mem_take ha)).1
      · rw [List.take_of_length_le hge]
        exact (List.mem_filter.mp (List.mem_of_mem_take ha)).1
  apply (List.subperm_of_subset hnodup hsub).perm_of_length_le
  rw [List.length_take, List.length_take,
    length_distinct_append hr fun a ha => List.mem_of_mem_take (hl a ha)]

end Distinct

/-- `client_to_hint`. -/
def clientToHint (client : BrokerClient) : Option Json :=
  if client.host = "" then none
  else some (.dict [("af", .int client.af), ("host", .str client.host), ("port", .int client.port)])

def hintsToStore (clients : List BrokerClient) : List Json := clients.filterMap clientToHint

def recalled (clients : List BrokerClient) : List Hint :=
  (clients.filter fun client => client.host ≠ "").map fun client => ⟨client.af, client.host⟩

theorem stamped_hintsToStore (clients : List BrokerClient) (ts : ℤ) :
    (stamped (hintsToStore clients) ts).filterMap CachedBroker.hint = recalled clients := by
  induction clients with
  | nil => rfl
  | cons client clients ih =>
    unfold hintsToStore recalled at ih ⊢
    by_cases hhost : client.host = ""
    · have hnone : clientToHint client = none := if_pos hhost
      rw [List.filterMap_cons_none hnone, List.filter_cons_of_neg (by simpa using hhost)]
      exact ih
    · have hsome : clientToHint client = some (.dict [("af", .int client.af),
          ("host", .str client.host), ("port", .int client.port)]) := if_neg hhost
      rw [List.filterMap_cons_some hsome, List.filter_cons_of_pos (by simpa using hhost),
        List.map_cons, ← ih]
      simp [stamped, brokerFields, Json.get?, PyDict.lookup, Json.asInt, Json.asStr,
        CachedBroker.hint]

theorem exists_brokerFields {clients : List BrokerClient} (h : hintsToStore clients ≠ []) :
    ∃ b ∈ hintsToStore clients, (brokerFields b).isSome := by
  obtain ⟨b, hb⟩ := List.exists_mem_of_ne_nil _ h
  obtain ⟨client, -, hclient⟩ := List.mem_filterMap.mp hb
  refine ⟨b, hb, ?_⟩
  unfold clientToHint at hclient
  split_ifs at hclient
  cases hclient
  rfl

structure Launch where
  nic : List Family
  pool : KeyedPool
  walkCap : ℚ
  clock : ℚ

structure Starting where
  launch : Launch
  discovery : Discovery

/-- The cache file, the start under way and, as history, what the starts have stored and when. -/
structure Restarts where
  file : Option Json
  starting : Option Starting
  stored : List (List BrokerClient × ℚ)

namespace Restarts

/-- A router is made and started; its discovery takes a step; it ends, and the clients found are
stored, at a time or, on an error of the disk, not at all; the process exits; something else is
written to the file. -/
inductive Action
  | launch (x : Launch)
  | discovery (a : Discovery.Act)
  | finish (written : Option ℚ)
  | exit
  | write (file : Option Json)

def first (file : Option Json) : Restarts := ⟨file, none, []⟩

section Step

variable {KP σ : Type} [LinearOrder σ] (A : Aio KP) (score : Bytes → Bytes → Bytes → σ)
  (P : Platform) (intOfStr : String → Except LoadError ℤ) (pubKeyHex : String)

/-- `Router.__init__` and `Router.start` up to the walks. -/
def begin (file : Option Json) (x : Launch) : Except (LoadError ⊕ PyExc) Discovery :=
  match initClients P x.nic x.pool.toBrokerPool with
  | .error exc => .error (.inr exc)
  | .ok clients =>
    match loadFor intOfStr (.ok file) pubKeyHex with
    | .error exc => .error (.inl exc)
    | .ok cachedHints =>
      (Discovery.start P clients (cachedHints.filterMap CachedBroker.hint) A score x.nic pubKeyHex
        x.pool.toBrokerPool x.walkCap x.clock fun _ => {}).mapError .inr

def step (s : Restarts) : Action → Option Restarts
  | .launch x =>
    match s.starting, begin A score P intOfStr pubKeyHex s.file x with
    | none, .ok discovery => some { s with starting := some ⟨x, discovery⟩ }
    | _, _ => none
  | .discovery a =>
    s.starting.bind fun y => (y.discovery.step a).map fun discovery =>
      { s with starting := some { y with discovery } }
  | .finish written =>
    s.starting.bind fun y =>
      match y.discovery.result with
      | some (.ok clients) =>
        match written with
        | some now =>
          if (hintsToStore clients).isEmpty then some { s with starting := none }
          else some
            { file := storeFor s.file pubKeyHex (hintsToStore clients) now
              starting := none
              stored := (clients, now) :: s.stored }
        | none => some { s with starting := none }
      | _ => none
  | .exit => some { s with starting := none }
  | .write file => some { s with file }

end Step

/-- The clients of no start, or of one that has stored them. -/
def Known (s : Restarts) (found : List BrokerClient) : Prop :=
  found = [] ∨ ∃ now, (found, now) ∈ s.stored

/-- The entry of the key is what a start has stored, or empty. -/
def Genuine (pubKeyHex : String) (s : Restarts) (file : Option Json) : Prop :=
  ∃ found now, s.Known found ∧ cachedEntries file pubKeyHex = serialisable (hintsToStore found) now

/-- The launches are of a kind, connects fail as networks do, and what others write may bring back
an earlier entry of the key but does not make one up. -/
def Undisturbed (Allowed : Launch → Prop) (pubKeyHex : String) (s : Restarts) : Action → Prop
  | .launch x => Allowed x
  | .discovery a => a.Networked
  | .write file => s.Genuine pubKeyHex file
  | _ => True

section Invariant

variable {KP σ : Type} [LinearOrder σ] {A : Aio KP} {score : Bytes → Bytes → Bytes → σ}
  {P : Platform} {intOfStr : String → Except LoadError ℤ} {pubKeyHex : String} {key : Bytes}
  {Allowed : Launch → Prop} {Q : List BrokerClient → Prop} {s t : Restarts} {a : Action}
  {as : List Action} {x : Launch} {file : Option Json} {found : List BrokerClient}

structure GoesOn (A : Aio KP) (score : Bytes → Bytes → Bytes → σ) (P : Platform) (key : Bytes)
    (y : Starting) (T : ClientTable) (found : List BrokerClient) : Prop where
  table : initClients P y.launch.nic y.launch.pool.toBrokerPool = .ok T
  sound : y.discovery.Sound
  families : y.discovery.families =
    (buckets A score P y.launch.nic key y.launch.pool.toBrokerPool ∅).entries.map fun e =>
      (e.1, Discovery.contenders P T (recalled found) e)

/-- The file and the starts have the clients of earlier starts, all of a kind. -/
structure Remembers (A : Aio KP) (score : Bytes → Bytes → Bytes → σ) (P : Platform)
    (pubKeyHex : String) (key : Bytes) (Allowed : Launch → Prop) (Q : List BrokerClient → Prop)
    (s : Restarts) : Prop where
  entry : s.Genuine pubKeyHex s.file
  kind : ∀ x ∈ s.stored, Q x.1
  goesOn : ∀ y, s.starting = some y → Allowed y.launch ∧
    ∃ T found, s.Known found ∧ GoesOn A score P key y T found

theorem remembers_first (h : cachedEntries file pubKeyHex = []) :
    Remembers A score P pubKeyHex key Allowed Q (first file) where
  entry := ⟨[], 0, Or.inl rfl, h⟩
  kind x hx := by cases hx
  goesOn y hy := by cases hy

theorem Remembers.known (h : Remembers A score P pubKeyHex key Allowed Q s) (hnil : Q [])
    (hfound : s.Known found) : Q found := by
  obtain rfl | ⟨now, hmem⟩ := hfound
  · exact hnil
  · exact h.kind _ hmem

theorem named_of_keyed (x : Launch) :
    ∀ fam ∈ x.nic, ∀ e ∈ (x.pool.hosts fam).entries, e.2.Named := by
  intro fam _ e he
  obtain ⟨hhost, haf⟩ := x.pool.keyed fam e he
  exact ⟨by rw [haf]; rfl, by rw [hhost]; rfl⟩

theorem begin_of_genuine (score : Bytes → Bytes → Bytes → σ) (P : Platform)
    (intOfStr : String → Except LoadError ℤ) (hkey : A.hToB pubKeyHex = .ok key)
    (h : s.Genuine pubKeyHex s.file) (x : Launch) : ∃ T found, s.Known found ∧
      initClients P x.nic x.pool.toBrokerPool = .ok T ∧
      begin A score P intOfStr pubKeyHex s.file x = .ok (Discovery.started P T (recalled found)
        (buckets A score P x.nic key x.pool.toBrokerPool ∅) x.walkCap x.clock fun _ => {}) := by
  obtain ⟨found, now, hfound, hentry⟩ := h
  obtain ⟨T, hT, -⟩ := seeded_initClients P x.nic x.pool.toBrokerPool
  refine ⟨T, found, hfound, hT, ?_⟩
  have hload : loadFor intOfStr (.ok s.file) pubKeyHex =
      .ok (stamped (hintsToStore found) (pyInt now)) :=
    loadFor_of_cachedEntries hentry
  have hstart : Discovery.start P T (recalled found) A score x.nic pubKeyHex x.pool.toBrokerPool
      x.walkCap x.clock (fun _ => {}) = .ok (Discovery.started P T (recalled found)
        (buckets A score P x.nic key x.pool.toBrokerPool ∅) x.walkCap x.clock fun _ => {}) :=
    Discovery.start_eq score hkey (named_of_keyed x)
  simp only [begin, hT, hload, stamped_hintsToStore, hstart]
  rfl

theorem Remembers.frame (h : Remembers A score P pubKeyHex key Allowed Q s)
    (hstored : t.stored = s.stored) (hfile : s.Genuine pubKeyHex t.file)
    (hgoesOn : ∀ y, t.starting = some y → Allowed y.launch ∧
      ∃ T found, s.Known found ∧ GoesOn A score P key y T found) :
    Remembers A score P pubKeyHex key Allowed Q t where
  entry := by
    unfold Genuine Known at hfile ⊢
    rw [hstored]
    exact hfile
  kind := by
    rw [hstored]
    exact h.kind
  goesOn := by
    unfold Known at hgoesOn ⊢
    rw [hstored]
    exact hgoesOn

theorem Remembers.store {clients : List BrokerClient} {now : ℚ}
    (h : Remembers A score P pubKeyHex key Allowed Q s) (hclients : Q clients)
    (hne : hintsToStore clients ≠ []) :
    Remembers A score P pubKeyHex key Allowed Q
      ⟨storeFor s.file pubKeyHex (hintsToStore clients) now, none, (clients, now) :: s.stored⟩ where
  entry := by
    refine ⟨clients, now, Or.inr ⟨now, List.mem_cons_self ..⟩, ?_⟩
    rw [storeFor_eq (exists_brokerFields hne), cachedEntries_replaced]
  kind := by
    intro x hx
    rcases List.mem_cons.mp hx with rfl | hx
    · exact hclients
    · exact h.kind x hx
  goesOn y hy := by cases hy

/-- A step keeps the memory, if a start that knows clients of the kind returns such clients. -/
theorem Remembers.step (hkey : A.hToB pubKeyHex = .ok key) (hnil : Q [])
    (hreturn : ∀ y T found clients, Allowed y.launch → Q found →
      GoesOn A score P key y T found → y.discovery.result = some (.ok clients) → Q clients)
    (h : Remembers A score P pubKeyHex key Allowed Q s) (ha : Undisturbed Allowed pubKeyHex s a)
    (hstep : Restarts.step A score P intOfStr pubKeyHex s a = some t) :
    Remembers A score P pubKeyHex key Allowed Q t := by
  cases a with
  | launch x =>
    obtain ⟨T, found, hfound, hT, hbegin⟩ := begin_of_genuine score P intOfStr hkey h.entry x
    simp only [Restarts.step, hbegin] at hstep
    cases hs : s.starting with
    | some y =>
      rw [hs] at hstep
      cases hstep
    | none =>
      rw [hs] at hstep
      cases hstep
      refine h.frame rfl h.entry ?_
      rintro y hy
      cases hy
      exact ⟨ha, T, found, hfound, hT, Discovery.sound_started .., Discovery.families_started ..⟩
  | discovery a =>
    obtain ⟨y, hy, hstep⟩ := Option.bind_eq_some_iff.mp hstep
    obtain ⟨discovery, hd, rfl⟩ := Option.map_eq_some_iff.mp hstep
    obtain ⟨hallowed, T, found, hfound, hgoes⟩ := h.goesOn y hy
    have hmove := Discovery.step_cases hd
    refine h.frame rfl h.entry ?_
    rintro y' hy'
    cases hy'
    exact ⟨hallowed, T, found, hfound, hgoes.table, hmove.sound ha hgoes.sound,
      (hmove.families ha).trans hgoes.families⟩
  | finish written =>
    obtain ⟨y, hy, hstep⟩ := Option.bind_eq_some_iff.mp hstep
    obtain ⟨hallowed, T, found, hfound, hgoes⟩ := h.goesOn y hy
    have hidle : ∀ y', none = some y' → Allowed y'.launch ∧
        ∃ T found, s.Known found ∧ GoesOn A score P key y' T found := by
      intro y' hy'
      cases hy'
    cases hr : y.discovery.result with
    | none =>
      rw [hr] at hstep
      cases hstep
    | some r =>
      cases r with
      | error exc =>
        rw [hr] at hstep
        cases hstep
      | ok clients =>
        have hclients := hreturn y T found clients hallowed (h.known hnil hfound) hgoes hr
        simp only [hr] at hstep
        cases written with
        | none =>
          cases hstep
          exact h.frame rfl h.entry hidle
        | some now =>
          by_cases hempty : hintsToStore clients = []
          · simp only [hempty, List.isEmpty_nil, if_true] at hstep
            cases hstep
            exact h.frame rfl h.entry hidle
          · simp only [List.isEmpty_iff, hempty, if_false] at hstep
            cases hstep
            exact h.store hclients hempty
  | exit =>
    cases hstep
    exact h.frame rfl h.entry fun y hy => by cases hy
  | write file =>
    cases hstep
    exact h.frame rfl ha h.goesOn

theorem Remembers.run (hkey : A.hToB pubKeyHex = .ok key) (hnil : Q [])
    (hreturn : ∀ y T found clients, Allowed y.launch → Q found →
      GoesOn A score P key y T found → y.discovery.result = some (.ok clients) → Q clients)
    (hfile : cachedEntries file pubKeyHex = [])
    (hmeets : Machine.Meets (Restarts.step A score P intOfStr pubKeyHex)
      (Undisturbed Allowed pubKeyHex) (first file) as)
    (hrun : Machine.run (Restarts.step A score P intOfStr pubKeyHex) (first file) as = some s) :
    Remembers A score P pubKeyHex key Allowed Q s :=
  Machine.run_invariant (fun _ _ _ h ha hstep => h.step hkey hnil hreturn ha hstep)
    (remembers_first hfile) hmeets hrun

end Invariant

def pairLaunch : Launch := ⟨[.v4], pairPool, 2, 100⟩

def pairStarts : List Action :=
  [.launch pairLaunch, .discovery (.begin 0 ⟨IP4, "b", 1883⟩),
    .discovery (.connectEnds 0 ⟨IP4, "b", 1883⟩ (.ok 0)), .discovery (.collect 0),
    .discovery .gather, .finish (some 105), .launch pairLaunch]

theorem exists_run_pairStarts : ∃ s y,
    Machine.run (step concrete hostValue linux decimalInt (concrete.toH [7])) (first none)
      pairStarts = some s ∧ s.starting = some y ∧ y.launch.nic = [.v4] ∧
    s.stored = [([⟨IP4, "b", 1883⟩], 105)] ∧
    y.discovery.walks.map AfWalk.candidates = [[⟨IP4, "b", 1883⟩, ⟨IP4, "a", 1883⟩]] := by
  obtain ⟨s, hrun, hs⟩ := Machine.exists_run_of_any
    (step concrete hostValue linux decimalInt (concrete.toH [7])) (first none) pairStarts
    (fun s => s.starting.any (fun y => y.launch.nic = [.v4] ∧
      y.discovery.walks.map AfWalk.candidates = [[⟨IP4, "b", 1883⟩, ⟨IP4, "a", 1883⟩]]) ∧
      s.stored = [([⟨IP4, "b", 1883⟩], 105)]) (by decide +kernel)
  simp only [decide_eq_true_eq, Option.any_eq_true] at hs
  obtain ⟨⟨y, hy, hnic, hwalks⟩, hstored⟩ := hs
  exact ⟨s, y, hrun, hy, hnic, hstored, hwalks⟩

theorem meets_pairStarts (Allowed : Launch → Prop) (h : Allowed pairLaunch) :
    Machine.Meets (step concrete hostValue linux decimalInt (concrete.toH [7]))
      (Undisturbed Allowed (concrete.toH [7])) (first none) pairStarts := by
  apply Machine.meets_of_mem
  intro a ha s
  simp only [pairStarts, List.mem_cons, List.not_mem_nil, or_false] at ha
  rcases ha with rfl | rfl | rfl | rfl | rfl | rfl | rfl
  · exact h
  · trivial
  · trivial
  · trivial
  · trivial
  · trivial
  · exact h

def stillListed (P : Platform) (T : ClientTable) (found : List BrokerClient) (fam : Family) :
    List BrokerClient :=
  (found.filter fun c => c.host ≠ "" ∧ c.af = P.number fam).filterMap fun c =>
    T.at? (P.number fam) c.host

structure Modest (P : Platform) (found : List BrokerClient) : Prop where
  af : ∀ c ∈ found, ∃ fam, c.af = P.number fam
  few : ∀ af, (found.filter fun c => c.af = af).length ≤ 3

theorem modest_nil (P : Platform) : Modest P [] :=
  ⟨fun c hc => (by cases hc), fun af => Nat.zero_le 3⟩

section Races

variable {KP σ : Type} [LinearOrder σ] {A : Aio KP} {score : Bytes → Bytes → Bytes → σ}
  {P : Platform} {intOfStr : String → Except LoadError ℤ} {pubKeyHex : String} {key : Bytes}
  {y : Starting} {T : ClientTable} {found clients : List BrokerClient} {fam : Family}
  {w : AfWalk} {c : BrokerClient} {pool : KeyedPool} {nic : List Family} {n : ℕ}

theorem ianaToAf_number (P : Platform) (fam : Family) : P.ianaToAf (P.number fam) = P.number fam := by
  cases fam with
  | v4 => rfl
  | v6 =>
    unfold Platform.ianaToAf Platform.number
    simp only [P.ip6_ne, if_false, ite_self]

theorem hinted_recalled (T : ClientTable) (h : ∀ c ∈ found, ∃ fam, c.af = P.number fam)
    (fam : Family) : hinted P T (recalled found) (P.number fam) = stillListed P T found fam := by
  unfold hinted recalled stillListed
  rw [List.filter_map, List.filterMap_map, List.filter_filter]
  congr 1
  apply List.filter_congr
  intro c hc
  obtain ⟨fam', hfam'⟩ := h c hc
  simp only [Function.comp_apply, hfam', ianaToAf_number, Bool.decide_and]
  exact Bool.and_comm _ _

theorem length_stillListed_le (h : Modest P found) (T : ClientTable) (fam : Family) :
    (stillListed P T found fam).length ≤ 3 := by
  apply (List.length_filterMap_le _ _).trans
  apply le_trans _ (h.few (P.number fam))
  apply List.Sublist.length_le
  apply List.monotone_filter_right
  intro c hc
  simp only [decide_eq_true_eq] at hc ⊢
  exact hc.2

theorem ranked_eq_candidates (hT : initClients P nic pool.toBrokerPool = .ok T) (hfam : fam ∈ nic) :
    ranked P T (bucket A score (P.number fam) key (pool.hosts fam)) =
      candidates A score P pool.toBrokerPool key fam := by
  rw [ranked, candidates, ← List.filterMap_eq_map]
  apply List.filterMap_congr
  intro u hu
  obtain ⟨e, he, hserver⟩ := mem_hosts_of_mem_bucket hu
  obtain ⟨hhost, haf⟩ := pool.keyed fam e he
  rw [hserver] at hhost haf
  have hat := at?_initClients hT hfam e.1
  rw [PyDict.get?_eq_some_iff.mpr he] at hat
  simp only [Server.clientAt, haf, hhost, Option.bind_some, ianaToAf_iana, Function.comp_apply,
    clientOf, Option.getD_some, hat, Option.map_some, hserver]

theorem candidates_nodup (A : Aio KP) (score : Bytes → Bytes → Bytes → σ) (P : Platform)
    (pool : KeyedPool) (key : Bytes) (fam : Family) :
    (candidates A score P pool.toBrokerPool key fam).Nodup :=
  (nodup_candidates A score P pool key fam).of_map

theorem GoesOn.exists_walk (h : GoesOn A score P key y T found)
    (hfound : ∀ c ∈ found, ∃ fam, c.af = P.number fam) (hfam : fam ∈ y.launch.nic) :
    ∃ w ∈ y.discovery.walks, w.nicAf = P.number fam ∧ w.candidates =
      distinct (stillListed P T found fam ++
        candidates A score P y.launch.pool.toBrokerPool key fam) := by
  have hmem : (P.number fam, Discovery.contenders P T (recalled found) (P.number fam,
      bucket A score (P.number fam) key (y.launch.pool.hosts fam))) ∈ y.discovery.families := by
    rw [h.families]
    exact List.mem_map_of_mem (PyDict.get?_eq_some_iff.mp (get?_buckets hfam ∅))
  obtain ⟨w, hw, heq⟩ := List.mem_map.mp hmem
  obtain ⟨haf, hcand⟩ := Prod.mk.inj heq
  refine ⟨w, hw, haf, hcand.trans ?_⟩
  rw [Discovery.contenders, hinted_recalled T hfound, ranked_eq_candidates h.table hfam]

theorem GoesOn.mem_walk (h : GoesOn A score P key y T found) (hw : w ∈ y.discovery.walks)
    (hst : w.stage = .finished) (hc : c ∈ w.afFound) : ∃ fam ∈ y.launch.nic,
      c.af = P.number fam ∧ w.nicAf = P.number fam ∧
      c ∈ (Discovery.contenders P T (recalled found) (P.number fam,
        bucket A score (P.number fam) key (y.launch.pool.hosts fam))).take 10 := by
  have hover : w.stage ≠ .collecting := by
    rw [hst]
    exact WalkStage.noConfusion
  have hcand := (((h.sound.walks w hw).postcondition hover).found c hc).1
  have hmem : (w.nicAf, w.candidates) ∈ y.discovery.families := List.mem_map_of_mem hw
  rw [h.families] at hmem
  obtain ⟨e, he, heq⟩ := List.mem_map.mp hmem
  obtain ⟨fam, hfam, rfl⟩ := mem_entries_buckets rfl he
  obtain ⟨haf, hcands⟩ := Prod.mk.inj heq
  rw [← hcands] at hcand
  exact ⟨fam, hfam, ((Discovery.mem_contenders_iff h.table hfam).mp (List.mem_of_mem_take hcand)).1,
    haf.symm, hcand⟩

theorem length_filter_found_le {ws : List AfWalk} (hnodup : (ws.map AfWalk.nicAf).Nodup)
    (haf : ∀ w ∈ ws, ∀ c ∈ w.afFound, c.af = w.nicAf) (hlen : ∀ w ∈ ws, w.afFound.length ≤ n)
    (af : ℕ) : ((ws.flatMap AfWalk.afFound).filter fun c => c.af = af).length ≤ n := by
  induction ws with
  | nil => exact Nat.zero_le n
  | cons w ws ih =>
    rw [List.map_cons, List.nodup_cons] at hnodup
    rw [List.forall_mem_cons] at haf hlen
    rw [List.flatMap_cons, List.filter_append, List.length_append]
    by_cases hw : w.nicAf = af
    · have hrest : (ws.flatMap AfWalk.afFound).filter (fun c => c.af = af) = [] := by
        rw [List.filter_eq_nil_iff]
        intro c hc hcaf
        obtain ⟨w', hw', hc⟩ := List.mem_flatMap.mp hc
        apply hnodup.1
        rw [hw, ← of_decide_eq_true hcaf, haf.2 w' hw' c hc]
        exact List.mem_map_of_mem hw'
      rw [hrest, List.length_nil, Nat.add_zero]
      exact (List.length_filter_le _ _).trans hlen.1
    · have hnone : w.afFound.filter (fun c => c.af = af) = [] := by
        rw [List.filter_eq_nil_iff]
        intro c hc hcaf
        exact hw ((haf.1 c hc).symm.trans (of_decide_eq_true hcaf))
      rw [hnone, List.length_nil, Nat.zero_add]
      exact ih hnodup.2 haf.2 hlen.2

theorem GoesOn.modest (h : GoesOn A score P key y T found)
    (hr : y.discovery.result = some (.ok clients)) : Modest P clients := by
  obtain ⟨heq, hover⟩ := h.sound.result _ hr
  cases heq
  constructor
  · intro c hc
    obtain ⟨w, hw, hc⟩ := List.mem_flatMap.mp hc
    obtain ⟨fam, -, haf, -⟩ := h.mem_walk hw (hover w hw) hc
    exact ⟨fam, haf⟩
  · apply length_filter_found_le
    · have hkeys := congrArg (List.map Prod.fst) h.families
      rw [Discovery.families, List.map_map, List.map_map] at hkeys
      have hnicAf : y.discovery.walks.map AfWalk.nicAf =
          (buckets A score P y.launch.nic key y.launch.pool.toBrokerPool ∅).keys := hkeys
      rw [hnicAf]
      exact PyDict.nodup_keys _
    · intro w hw c hc
      obtain ⟨fam, -, haf, hnicAf, -⟩ := h.mem_walk hw (hover w hw) hc
      rw [haf, hnicAf]
    · intro w hw
      exact (h.sound.walks w hw).atMost.trans (min_le_left _ _)

def BestTen (A : Aio KP) (score : Bytes → Bytes → Bytes → σ) (P : Platform) (pool : KeyedPool)
    (key : Bytes) (found : List BrokerClient) : Prop :=
  ∀ c ∈ found, ∃ fam, c.af = P.number fam ∧
    c ∈ (candidates A score P pool.toBrokerPool key fam).take 10

theorem BestTen.af (h : BestTen A score P pool key found) :
    ∀ c ∈ found, ∃ fam, c.af = P.number fam := by
  intro c hc
  obtain ⟨fam, haf, -⟩ := h c hc
  exact ⟨fam, haf⟩

theorem bestTen_nil : BestTen A score P pool key [] := fun c hc => by cases hc

theorem BestTen.stillListed (h : BestTen A score P pool key found)
    (hT : initClients P nic pool.toBrokerPool = .ok T) (hfam : fam ∈ nic) :
    ∀ c ∈ stillListed P T found fam,
      c ∈ (candidates A score P pool.toBrokerPool key fam).take 10 := by
  intro c hc
  obtain ⟨c', hc', hat⟩ := List.mem_filterMap.mp hc
  obtain ⟨hmem, hcond⟩ := List.mem_filter.mp hc'
  simp only [decide_eq_true_eq] at hcond
  obtain ⟨fam', haf', htake⟩ := h c' hmem
  rw [hcond.2, P.number_inj] at haf'
  subst haf'
  have hcand := List.mem_of_mem_take htake
  rw [← ranked_eq_candidates hT hfam] at hcand
  obtain ⟨u, hu, af, host, haf, hhost, hat'⟩ := mem_ranked hcand
  obtain ⟨e, he, hserver⟩ := mem_hosts_of_mem_bucket hu
  have hkeyed := (pool.keyed fam e he).2
  rw [hserver, haf, Option.some.injEq] at hkeyed
  rw [hkeyed, ianaToAf_iana] at hat'
  have hplace := (ClientTable.placed_initClients hT _ _ _ hat').2
  rw [← hplace, hat, Option.some.injEq] at hat'
  exact hat' ▸ htake

/-- With the pool unchanged, a start that remembers some of the best ten races the best ten. -/
theorem BestTen.race (h : BestTen A score P pool key found)
    (hT : initClients P nic pool.toBrokerPool = .ok T) (hfam : fam ∈ nic) :
    ((distinct (Restarts.stillListed P T found fam ++
      candidates A score P pool.toBrokerPool key fam)).take 10).Perm
        ((candidates A score P pool.toBrokerPool key fam).take 10) :=
  take_distinct_perm (candidates_nodup A score P pool key fam) (h.stillListed hT hfam)

theorem GoesOn.bestTen (h : GoesOn A score P key y T found)
    (hfound : BestTen A score P y.launch.pool key found)
    (hr : y.discovery.result = some (.ok clients)) :
    BestTen A score P y.launch.pool key clients := by
  obtain ⟨heq, hover⟩ := h.sound.result _ hr
  cases heq
  intro c hc
  obtain ⟨w, hw, hc⟩ := List.mem_flatMap.mp hc
  obtain ⟨fam, hfam, haf, -, hc⟩ := h.mem_walk hw (hover w hw) hc
  rw [Discovery.contenders, hinted_recalled T hfound.af, ranked_eq_candidates h.table hfam] at hc
  exact ⟨fam, haf, (hfound.race h.table hfam).mem_iff.mp hc⟩

variable {file : Option Json} {as : List Action} {s : Restarts}

/-- In whatever way its starts go, a node with an entry that its starts have written can start
again, and in each family's race run those of an earlier start's brokers that are still listed,
first and in their order, and the seven best ranked. -/
theorem remembered_race (score : Bytes → Bytes → Bytes → σ) (P : Platform)
    (intOfStr : String → Except LoadError ℤ) (hkey : A.hToB pubKeyHex = .ok key)
    (hfile : cachedEntries file pubKeyHex = [])
    (hmeets : Machine.Meets (step A score P intOfStr pubKeyHex)
      (Undisturbed (fun _ => True) pubKeyHex) (first file) as)
    (hrun : Machine.run (step A score P intOfStr pubKeyHex) (first file) as = some s) :
    (s.starting = none → ∀ x, ∃ t, step A score P intOfStr pubKeyHex s (.launch x) = some t) ∧
    ∀ y, s.starting = some y → ∃ T found, s.Known found ∧
      initClients P y.launch.nic y.launch.pool.toBrokerPool = .ok T ∧
      ∀ fam ∈ y.launch.nic, ∃ w ∈ y.discovery.walks, w.nicAf = P.number fam ∧
        w.candidates = distinct (stillListed P T found fam ++
          candidates A score P y.launch.pool.toBrokerPool key fam) ∧
        (∀ c ∈ stillListed P T found fam, c ∈ w.candidates.take 10) ∧
        ∀ c ∈ (candidates A score P y.launch.pool.toBrokerPool key fam).take 7,
          c ∈ w.candidates.take 10 := by
  have h : Remembers A score P pubKeyHex key (fun _ => True) (Modest P) s :=
    Remembers.run hkey (modest_nil P)
      (fun y T found clients _ _ hgoes hr => hgoes.modest hr) hfile hmeets hrun
  constructor
  · intro hs x
    obtain ⟨T, found, -, -, hbegin⟩ := begin_of_genuine score P intOfStr hkey h.entry x
    exact Option.isSome_iff_exists.mp (by simp only [step, hs, hbegin, Option.isSome_some])
  · intro y hy
    obtain ⟨-, T, found, hknown, hgoes⟩ := h.goesOn y hy
    have hmodest := h.known (modest_nil P) hknown
    refine ⟨T, found, hknown, hgoes.table, fun fam hfam => ?_⟩
    obtain ⟨w, hw, hnicAf, hcand⟩ := hgoes.exists_walk hmodest.af hfam
    have hfew := length_stillListed_le hmodest T fam
    refine ⟨w, hw, hnicAf, hcand, fun c hc => ?_, fun c hc => ?_⟩
    · rw [hcand]
      exact mem_take_distinct (hfew.trans (by decide)) hc
    · rw [hcand, ← List.take_append_drop 7 (candidates A score P _ key fam), ← List.append_assoc]
      apply mem_take_distinct _ (List.mem_append_right _ hc)
      rw [List.length_append, List.length_take]
      omega

/-- The second start of the pair. -/
theorem remembered_race_pair : ∃ s y T found,
    Machine.run (step concrete hostValue linux decimalInt (concrete.toH [7])) (first none)
      pairStarts = some s ∧ s.starting = some y ∧ s.Known found ∧
    initClients linux [.v4] y.launch.pool.toBrokerPool = .ok T ∧ ∃ w ∈ y.discovery.walks,
      w.candidates = [⟨IP4, "b", 1883⟩, ⟨IP4, "a", 1883⟩] ∧
      w.candidates = distinct (stillListed linux T found .v4 ++
        candidates concrete hostValue linux y.launch.pool.toBrokerPool [7] .v4) := by
  obtain ⟨s, y, hrun, hy, hnic, -, hwalks⟩ := exists_run_pairStarts
  obtain ⟨-, hraces⟩ := remembered_race hostValue linux decimalInt (concrete_lawful.hToB_toH [7])
    (rfl : cachedEntries none (concrete.toH [7]) = []) (meets_pairStarts _ trivial) hrun
  obtain ⟨T, found, hknown, hT, hfams⟩ := hraces y hy
  obtain ⟨w, hw, -, hcand, -⟩ := hfams .v4 (by rw [hnic]; exact List.mem_singleton_self _)
  rw [hnic] at hT
  have hpair : w.candidates ∈ y.discovery.walks.map AfWalk.candidates := List.mem_map_of_mem hw
  rw [hwalks, List.mem_singleton] at hpair
  exact ⟨s, y, T, found, hrun, hy, hknown, hT, w, hw, hpair, hcand⟩

/-- While the pool stays the same, whatever connects and whatever fails, each start races the ten
best ranked brokers as the first one did, the remembered ones earlier, and wants as many. -/
theorem best_ten_race (score : Bytes → Bytes → Bytes → σ) (P : Platform)
    (intOfStr : String → Except LoadError ℤ) (hkey : A.hToB pubKeyHex = .ok key)
    (hfile : cachedEntries file pubKeyHex = [])
    (hmeets : Machine.Meets (step A score P intOfStr pubKeyHex)
      (Undisturbed (fun x => x.pool = pool) pubKeyHex) (first file) as)
    (hrun : Machine.run (step A score P intOfStr pubKeyHex) (first file) as = some s)
    (hy : s.starting = some y) (hfam : fam ∈ y.launch.nic) :
    ∃ w ∈ y.discovery.walks, w.nicAf = P.number fam ∧
      (w.candidates.take 10).Perm ((candidates A score P pool.toBrokerPool key fam).take 10) ∧
      w.needed = needed (candidates A score P pool.toBrokerPool key fam).length := by
  have h : Remembers A score P pubKeyHex key (fun x => x.pool = pool)
      (BestTen A score P pool key) s := by
    refine Remembers.run hkey bestTen_nil ?_ hfile hmeets hrun
    rintro y T found clients rfl hfound hgoes hr
    exact hgoes.bestTen hfound hr
  obtain ⟨rfl, T, found, hknown, hgoes⟩ := h.goesOn y hy
  have hbest := h.known bestTen_nil hknown
  obtain ⟨w, hw, hnicAf, hcand⟩ := hgoes.exists_walk hbest.af hfam
  refine ⟨w, hw, hnicAf, ?_, ?_⟩
  · rw [hcand]
    exact hbest.race hgoes.table hfam
  · have hsub : ∀ c ∈ stillListed P T found fam,
        c ∈ candidates A score P y.launch.pool.toBrokerPool key fam :=
      fun c hc => List.mem_of_mem_take (hbest.stillListed hgoes.table hfam c hc)
    rw [AfWalk.needed, hcand, length_distinct_append
      (candidates_nodup A score P y.launch.pool key fam) hsub]

/-- The second start of the pair races both brokers, as the first one did. -/
theorem best_ten_race_pair : ∃ s y, Machine.run
      (step concrete hostValue linux decimalInt (concrete.toH [7])) (first none) pairStarts = some s ∧
    s.starting = some y ∧ ∃ w ∈ y.discovery.walks, w.needed = 1 ∧
      (w.candidates.take 10).Perm [⟨IP4, "a", 1883⟩, ⟨IP4, "b", 1883⟩] := by
  obtain ⟨s, y, hrun, hy, hnic, -, -⟩ := exists_run_pairStarts
  have hranked : candidates concrete hostValue linux pairPool.toBrokerPool [7] .v4 =
      [⟨IP4, "a", 1883⟩, ⟨IP4, "b", 1883⟩] := by decide +kernel
  obtain ⟨w, hw, -, hperm, hneeded⟩ := best_ten_race hostValue linux decimalInt
    (concrete_lawful.hToB_toH [7]) (rfl : cachedEntries none (concrete.toH [7]) = [])
    (meets_pairStarts (fun x => x.pool = pairPool) rfl) hrun hy
    (by rw [hnic]; exact List.mem_singleton_self Family.v4)
  rw [hranked] at hperm hneeded
  exact ⟨s, y, hrun, hy, w, hw, hneeded, hperm⟩

end Races

end Restarts

end Sidewire
