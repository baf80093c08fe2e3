import Sidewire.Discovery.HintCost
import Sidewire.Discovery.Race

/-! # What a discovery returns

Whatever the order in which the connects end, a walk that is over has found as
many clients as it wants or had no more to wait for, and has cancelled the rest.
Every call can be brought to its result.
-/

namespace Sidewire

def BrokerPool.Normalised (P : Platform) (nic : List Family) (pool : BrokerPool) : Prop :=
  ∀ fam ∈ nic, ∀ e ∈ (pool.hosts fam).entries,
    e.2.host = some e.1 ∧ ∃ af, e.2.af = some af ∧ P.ianaToAf af = P.number fam

theorem needed_eq_log (n : ℕ) : needed n = min 3 (Nat.log 2 n) := by
  rcases Nat.eq_zero_or_pos n with rfl | hn
  · rfl
  · have hlog : ∀ m, m < n.size ↔ m < Nat.log 2 n + 1 := by
      intro m
      rw [Nat.lt_size, Nat.lt_succ_iff, Nat.le_log_iff_pow_le (by decide) hn.ne']
    have hsize : n.size = Nat.log 2 n + 1 :=
      le_antisymm (not_lt.mp fun h => lt_irrefl _ ((hlog _).mp h))
        (not_lt.mp fun h => lt_irrefl _ ((hlog _).mpr h))
    rw [needed, hsize]
    omega

namespace AfWalk

variable {w w' : AfWalk} {c : BrokerClient}

structure Postcondition (w : AfWalk) : Prop where
  found : ∀ c ∈ w.afFound, c ∈ w.candidates.take 10 ∧ w.attempts c = .ended .client
  distinct : w.afFound.Nodup
  atMost : w.afFound.length ≤ min 3 (Nat.log 2 w.candidates.length)
  skipped : w.candidates.length < 2 → w.afFound = []
  smaller : w.afFound.length < min 3 (Nat.log 2 w.candidates.length) →
    w.timedOut = true ∨ ∀ c ∈ w.candidates.take 10, ∃ r, w.attempts c = .ended r
  cancelled : ∀ c ∈ w.racers, w.attempts c = .cancelled ∨ ∃ r, w.attempts c = .ended r

theorem needed_eq (w : AfWalk) : w.needed = min 3 (Nat.log 2 w.candidates.length) :=
  needed_eq_log _

theorem mem_take_of_mem_racers (h : c ∈ w.racers) : c ∈ w.candidates.take 10 := by
  unfold racers at h
  split_ifs at h
  · cases h
  · exact h

theorem Tallied.ended_of_length (h : w.Tallied) (hlen : w.gathered.length = w.racers.length)
    (hc : c ∈ w.racers) : c ∈ w.gathered ∧ ∃ r, w.attempts c = .ended r := by
  have hsub : w.gathered ⊆ w.racers :=
    fun c hc => ((h.ended c).mp (List.mem_append_left _ hc)).1
  have hperm : w.gathered.Perm w.racers :=
    (List.subperm_of_subset (List.Nodup.of_append_left h.once) hsub).perm_of_length_le hlen.ge
  have hmem : c ∈ w.gathered := hperm.mem_iff.mpr hc
  exact ⟨hmem, ((h.ended c).mp (List.mem_append_left _ hmem)).2⟩

theorem Sound.postcondition (h : w.Sound) (hs : w.stage ≠ .collecting) : w.Postcondition where
  found c hc := by
    rw [h.found] at hc
    obtain ⟨hgath, hclient⟩ := List.mem_filter.mp hc
    have hmem := ((h.ended c).mp (List.mem_append_left _ hgath)).1
    exact ⟨mem_take_of_mem_racers hmem, of_decide_eq_true hclient⟩
  distinct := by
    rw [h.found]
    exact (List.Nodup.of_append_left h.once).sublist List.filter_sublist
  atMost := w.needed_eq ▸ h.atMost
  skipped hlt := by
    have hle := h.atMost
    rw [AfWalk.needed, needed_eq_zero hlt] at hle
    exact List.length_eq_zero_iff.mp (Nat.le_zero.mp hle)
  smaller hlt := by
    rw [← w.needed_eq] at hlt
    rcases h.short hs hlt with ht | hlen
    · exact .inl ht
    · right
      intro c hc
      have hneeded : w.needed ≠ 0 := by omega
      exact (h.ended_of_length hlen (by rw [racers, if_neg hneeded]; exact hc)).2
  cancelled c hc := by
    have hrun := h.cancelled hs c hc
    cases ha : w.attempts c with
    | waiting => rw [ha] at hrun; cases hrun
    | connecting now => rw [ha] at hrun; cases hrun
    | ended r => exact .inr ⟨r, rfl⟩
    | cancelled => exact .inl rfl

def todo : Attempt → ℕ
  | .waiting => 2
  | .connecting _ => 1
  | .ended _ | .cancelled => 0

def ahead (w : AfWalk) : ℕ :=
  if w.stage = .collecting then
    2 * (w.racers.map fun c => todo (w.attempts c)).sum + w.completed.length + 1
  else 0

theorem ahead_finish {stage : WalkStage} (h : stage ≠ .collecting) : (w.finish stage).ahead = 0 :=
  if_neg h

theorem ahead_goOn_le (w : AfWalk) : w.goOn.ahead ≤ w.ahead := by
  unfold goOn
  split_ifs
  · exact (ahead_finish WalkStage.noConfusion).trans_le (Nat.zero_le _)
  · exact le_rfl

theorem todo_setAttempt_lt {a : Attempt} (hc : c ∈ w.racers)
    (hlt : todo a < todo (w.attempts c)) :
    (w.racers.map fun c' => todo ((w.setAttempt c a).attempts c')).sum <
      (w.racers.map fun c' => todo (w.attempts c')).sum := by
  apply List.sum_lt_sum
  · intro c' _
    by_cases hcc : c' = c
    · subst hcc
      simpa [setAttempt] using hlt.le
    · simp [setAttempt, hcc]
  · refine ⟨c, hc, ?_⟩
    simpa [setAttempt] using hlt

theorem ahead_setAttempt_lt {a : Attempt} (hs : w.stage = .collecting) (hc : c ∈ w.racers)
    (hlt : todo a < todo (w.attempts c)) : (w.setAttempt c a).ahead < w.ahead := by
  have hsum := todo_setAttempt_lt hc hlt
  have hs' : (w.setAttempt c a).stage = .collecting := hs
  have hracers : (w.setAttempt c a).racers = w.racers := racers_congr rfl
  rw [ahead, ahead, if_pos hs, if_pos hs', hracers]
  change 2 * _ + w.completed.length + 1 < _
  omega

theorem ahead_settle_lt (hs : w.stage = .collecting) (hc : c ∈ w.racers)
    (ha : (w.attempts c).running = true) (r : CallResult) : (w.settle c r).ahead < w.ahead := by
  have hpos : todo (.ended r) < todo (w.attempts c) := by
    cases hat : w.attempts c with
    | waiting => exact Nat.zero_lt_two
    | connecting now => exact Nat.zero_lt_one
    | ended r => rw [hat] at ha; cases ha
    | cancelled => rw [hat] at ha; cases ha
  have hsum := todo_setAttempt_lt hc hpos
  have hs' : (w.settle c r).stage = .collecting := hs
  have hracers : (w.settle c r).racers = w.racers := racers_congr rfl
  have hlen : (w.settle c r).completed.length = w.completed.length + 1 := by simp [settle]
  rw [ahead, ahead, if_pos hs, if_pos hs', hracers, hlen]
  change 2 * (w.racers.map fun c' => todo ((w.setAttempt c (.ended r)).attempts c')).sum + _ + 1 < _
  omega

theorem exists_collect (hs : w.stage = .collecting) (hc : w.completed ≠ []) :
    ∃ w', w.collect = some w' ∧ w'.ahead < w.ahead := by
  obtain ⟨c, rest, hc⟩ := List.exists_cons_of_ne_nil hc
  have hless : ∀ afFound, AfWalk.ahead { w with
      completed := rest
      gathered := w.gathered ++ [c]
      afFound
      stage := .collecting } < w.ahead := by
    intro afFound
    rw [ahead, ahead, if_pos hs, if_pos rfl, hc, List.length_cons]
    change 2 * (w.racers.map fun c' => todo (w.attempts c')).sum + rest.length + 1 < _
    omega
  have hzero : 0 < w.ahead := (Nat.zero_le _).trans_lt (hless [])
  unfold collect
  simp only [hs, hc]
  split
  · refine ⟨_, rfl, ?_⟩
    split_ifs
    · exact (ahead_finish WalkStage.noConfusion).trans_lt hzero
    · exact (ahead_goOn_le _).trans_lt (hless _)
  · exact ⟨_, rfl, (ahead_finish WalkStage.noConfusion).trans_lt hzero⟩
  · exact ⟨_, rfl, (ahead_goOn_le _).trans_lt (hless _)⟩

theorem Sound.exists_running (h : w.Sound) (hs : w.stage = .collecting) (hc : w.completed = []) :
    ∃ c ∈ w.racers, (w.attempts c).running = true := by
  have hlt := (h.collecting hs).2
  obtain ⟨c, hcr, hcg⟩ : ∃ c ∈ w.racers, c ∉ w.gathered := by
    by_contra hall
    push Not at hall
    exact absurd ((nodup_racers h.nodup).length_le_of_subset hall) (not_le.mpr hlt)
  refine ⟨c, hcr, ?_⟩
  cases ha : w.attempts c with
  | waiting => rfl
  | connecting now => rfl
  | ended r =>
    have hmem := (h.ended c).mpr ⟨hcr, r, ha⟩
    rw [hc, List.append_nil] at hmem
    exact absurd hmem hcg
  | cancelled => exact absurd ha (h.awaited hs c hcr)

end AfWalk

namespace Discovery

variable {s s' s₀ : Discovery} {a : Act} {as : List Act} {f : ℕ} {w w' : AfWalk}

/-- A step of a call whose connects succeed and whose caps do not elapse. -/
def Act.Smooth : Act → Prop
  | .begin _ _ | .collect _ | .gather | .connectEnds _ _ (.ok _) => True
  | _ => False

theorem Act.Smooth.networked (h : a.Smooth) : a.Networked := by
  cases a with
  | connectEnds f c e =>
    cases e with
    | ok p => trivial
    | error exc => exact h.elim
  | _ => trivial

theorem sum_map_set_lt {α : Type} {g : α → ℕ} {x y : α} : ∀ {l : List α} {f : ℕ},
    l[f]? = some x → g y < g x → ((l.set f y).map g).sum < (l.map g).sum
  | [], f, hf, _ => by simp at hf
  | z :: l, 0, hf, hlt => by
    simp only [List.getElem?_cons_zero, Option.some.injEq] at hf
    subst hf
    simpa using hlt
  | z :: l, f + 1, hf, hlt => by
    rw [List.getElem?_cons_succ] at hf
    have := sum_map_set_lt hf hlt
    simpa using this

def ahead (s : Discovery) : ℕ := (s.walks.map AfWalk.ahead).sum

theorem ahead_setWalk_lt (hf : s.walks[f]? = some w) (hlt : w'.ahead < w.ahead) :
    (s.setWalk f w w').ahead < s.ahead := sum_map_set_lt hf hlt

structure SameRound (s s' : Discovery) : Prop where
  result : s'.result = s.result
  retried : s'.retried = s.retried
  walkCap : s'.walkCap = s.walkCap

theorem exists_step (hs : s.Sound) (hw : w ∈ s.walks) (hc : w.stage = .collecting) :
    ∃ a s', a.Smooth ∧ s.step a = some s' ∧ s'.ahead < s.ahead ∧ SameRound s s' := by
  obtain ⟨f, hlt, rfl⟩ := List.getElem_of_mem hw
  have hf : s.walks[f]? = some s.walks[f] := List.getElem?_eq_getElem hlt
  generalize s.walks[f] = w at hw hc hf
  by_cases hq : w.completed = []
  · obtain ⟨c, hcr, hrun⟩ := (hs.walks w hw).exists_running hc hq
    cases ha : w.attempts c with
    | waiting =>
      rcases tryClient_cases (s.session c) s.clock with h | h | h
      · refine ⟨.begin f c, s.setWalk f w (w.settle c .client), trivial, ?_,
          ahead_setWalk_lt hf (AfWalk.ahead_settle_lt hc hcr hrun _), rfl, rfl, rfl⟩
        simp only [step, hf, hc, hcr, ha, and_self, if_true, h]
      · refine ⟨.begin f c, s.setWalk f w (w.settle c .noClient), trivial, ?_,
          ahead_setWalk_lt hf (AfWalk.ahead_settle_lt hc hcr hrun _), rfl, rfl, rfl⟩
        simp only [step, hf, hc, hcr, ha, and_self, if_true, h]
      · have hless : (w.setAttempt c (.connecting s.clock)).ahead < w.ahead :=
          AfWalk.ahead_setAttempt_lt hc hcr (by rw [ha]; exact Nat.one_lt_two)
        refine ⟨.begin f c, s.setWalk f w (w.setAttempt c (.connecting s.clock)), trivial, ?_,
          ahead_setWalk_lt hf hless, rfl, rfl, rfl⟩
        simp only [step, hf, hc, hcr, ha, and_self, if_true, h]
    | connecting now =>
      refine ⟨.connectEnds f c (.ok 0), (s.setSession c ((s.session c).tried now (.ok 0)).1).setWalk
        f w (w.settle c ((s.session c).tried now (.ok 0)).2), trivial, ?_,
        ahead_setWalk_lt hf (AfWalk.ahead_settle_lt hc hcr hrun _), rfl, rfl, rfl⟩
      simp only [step, hf, ha, hc, hcr, and_self, if_true]
    | ended r => rw [ha] at hrun; cases hrun
    | cancelled => rw [ha] at hrun; cases hrun
  · obtain ⟨w', hw', hless⟩ := AfWalk.exists_collect hc hq
    refine ⟨.collect f, s.setWalk f w w', trivial, ?_, ahead_setWalk_lt hf hless, rfl, rfl, rfl⟩
    simp only [step, hf, Option.bind_some, hw', Option.map_some]

theorem exists_over (hs : s.Sound) : ∃ bs t, Machine.run step s bs = some t ∧
    (∀ b ∈ bs, b.Smooth) ∧ (∀ w ∈ t.walks, w.stage = .finished) ∧ SameRound s t ∧ t.Sound := by
  induction hn : s.ahead using Nat.strong_induction_on generalizing s with
  | _ n ih =>
    by_cases hall : ∀ w ∈ s.walks, w.stage = .finished
    · exact ⟨[], s, rfl, by simp, hall, ⟨rfl, rfl, rfl⟩, hs⟩
    · push Not at hall
      obtain ⟨w, hw, hover⟩ := hall
      have hc : w.stage = .collecting := by
        cases hst : w.stage with
        | collecting => rfl
        | finished => exact absurd hst hover
        | raised exc => exact absurd hst ((hs.walks w hw).quiet exc)
      obtain ⟨a, s', ha, hstep, hless, hsame⟩ := exists_step hs hw hc
      obtain ⟨bs, t, hrun, hsmooth, hall, hsame', ht⟩ :=
        ih _ (hn ▸ hless) ((step_cases hstep).sound ha.networked hs) rfl
      exact ⟨a :: bs, t, Machine.run_cons_eq_some.mpr ⟨s', hstep, hrun⟩,
        List.forall_mem_cons.mpr ⟨ha, hsmooth⟩, hall, ⟨hsame'.result.trans hsame.result,
          hsame'.retried.trans hsame.retried, hsame'.walkCap.trans hsame.walkCap⟩, ht⟩

theorem gather_of_over (hall : ∀ w ∈ s.walks, w.stage = .finished) : s.gather =
    if s.walks.flatMap AfWalk.afFound = [] ∧ s.walkCap < 4 ∧ s.retried = false then
      some { s with
        retried := true
        walks := s.walks.map fun w => .start (s.clock + 4) w.nicAf w.candidates }
    else some { s with result := some (.ok (s.walks.flatMap AfWalk.afFound)) } := by
  have hnone : s.walks.findSome? AfWalk.exception = none := by
    rw [List.findSome?_eq_none_iff]
    intro w hw
    rw [AfWalk.exception, hall w hw]
  unfold gather
  rw [hnone]
  simp only [if_pos hall]

/-- The walks that are over are gathered, once or once more. -/
theorem exists_result (hs : s.Sound) (hr : s.result = none) :
    ∃ bs t, Machine.run step s bs = some t ∧ (∀ b ∈ bs, b.Smooth) ∧ t.result.isSome = true := by
  obtain ⟨bs, t, hrun, hsmooth, hall, hsame, ht⟩ := exists_over hs
  have htr : t.result = none := hsame.result.trans hr
  have hgather : ∀ u : Discovery, u.result = none → u.step .gather = u.gather := by
    intro u hu
    simp only [step, hu, Option.isSome_none, Bool.false_eq_true, if_false]
  by_cases hagain : t.walks.flatMap AfWalk.afFound = [] ∧ t.walkCap < 4 ∧ t.retried = false
  · have hstep := (hgather t htr).trans ((gather_of_over hall).trans (if_pos hagain))
    obtain ⟨bs', u, hrun', hsmooth', hall', hsame', -⟩ :=
      exists_over ((step_cases hstep).sound trivial ht)
    have hur : u.result = none := hsame'.result.trans htr
    have hstop : ¬ (u.walks.flatMap AfWalk.afFound = [] ∧ u.walkCap < 4 ∧ u.retried = false) := by
      rintro ⟨-, -, hu⟩
      rw [hsame'.retried] at hu
      cases hu
    have hstep' := (hgather u hur).trans ((gather_of_over hall').trans (if_neg hstop))
    refine ⟨bs ++ .gather :: (bs' ++ [.gather]), _, Machine.run_append.mpr ⟨t, hrun,
      Machine.run_cons_eq_some.mpr ⟨_, hstep, Machine.run_append.mpr ⟨u, hrun',
        Machine.run_cons_eq_some.mpr ⟨_, hstep', rfl⟩⟩⟩⟩, ?_, rfl⟩
    intro b hb
    simp only [List.mem_append, List.mem_cons, List.not_mem_nil, or_false] at hb
    rcases hb with hb | rfl | hb | rfl
    · exact hsmooth b hb
    · trivial
    · exact hsmooth' b hb
    · trivial
  · have hstep := (hgather t htr).trans ((gather_of_over hall).trans (if_neg hagain))
    refine ⟨bs ++ [.gather], _, Machine.run_append.mpr ⟨t, hrun,
      Machine.run_cons_eq_some.mpr ⟨_, hstep, rfl⟩⟩, ?_, rfl⟩
    intro b hb
    rcases List.mem_append.mp hb with hb | hb
    · exact hsmooth b hb
    · rw [List.mem_singleton.mp hb]
      trivial

section Spec

variable {KP σ : Type} [LinearOrder σ] {A : Aio KP} {score : Bytes → Bytes → Bytes → σ}
  {P : Platform} {T : ClientTable} {hints : List Hint} {nic : List Family} {pool : BrokerPool}
  {key : Bytes} {destPubHex : String} {walkCap clock : ℚ} {session : BrokerClient → Session}

def contenders (P : Platform) (T : ClientTable) (hints : List Hint)
    (e : ℕ × List (Server × σ)) : List BrokerClient :=
  distinct (hinted P T hints e.1 ++ ranked P T e.2)

theorem named_of_normalised (hpool : pool.Normalised P nic) :
    ∀ fam ∈ nic, ∀ e ∈ (pool.hosts fam).entries, e.2.Named := by
  intro fam hfam e he
  obtain ⟨hhost, af, haf, -⟩ := hpool fam hfam e he
  exact ⟨by rw [haf]; rfl, by rw [hhost]; rfl⟩

def started (P : Platform) (T : ClientTable) (hints : List Hint)
    (afBuckets : PyDict ℕ (List (Server × σ))) (walkCap clock : ℚ)
    (session : BrokerClient → Session) : Discovery where
  clock := clock
  session := session
  walkCap := walkCap
  walks := afBuckets.entries.map fun e =>
    .start (clock + walkCap) e.1 (contenders P T hints e)
  unwinding := []
  retried := false
  result := none

omit [LinearOrder σ] in
theorem sound_started (P : Platform) (T : ClientTable) (hints : List Hint)
    (afBuckets : PyDict ℕ (List (Server × σ))) (walkCap clock : ℚ)
    (session : BrokerClient → Session) :
    (started P T hints afBuckets walkCap clock session).Sound := by
  refine ⟨?_, ?_, ?_⟩
  · intro w hw
    obtain ⟨e, -, rfl⟩ := List.mem_map.mp hw
    exact AfWalk.sound_start _ _ (nodup_distinct _)
  · intro w hw ht
    obtain ⟨e, -, rfl⟩ := List.mem_map.mp hw
    cases ht
  · intro r hr
    cases hr

omit [LinearOrder σ] in
theorem families_started (P : Platform) (T : ClientTable) (hints : List Hint)
    (afBuckets : PyDict ℕ (List (Server × σ))) (walkCap clock : ℚ)
    (session : BrokerClient → Session) :
    (started P T hints afBuckets walkCap clock session).families =
      afBuckets.entries.map fun e => (e.1, contenders P T hints e) := by
  rw [Discovery.families, started, List.map_map]
  rfl

theorem start_eq (score : Bytes → Bytes → Bytes → σ) (hkey : A.hToB destPubHex = .ok key)
    (hnamed : ∀ fam ∈ nic, ∀ e ∈ (pool.hosts fam).entries, e.2.Named) :
    Discovery.start P T hints A score nic destPubHex pool walkCap clock session =
      .ok (started P T hints (buckets A score P nic key pool ∅) walkCap clock session) := by
  have hwalks : (buckets A score P nic key pool ∅).entries.mapM (fun e => do
      let candidateClients ← walkCandidates P T hints e.1 e.2
      return AfWalk.start (clock + walkCap) e.1 candidateClients) =
      Except.ok ((buckets A score P nic key pool ∅).entries.map fun e =>
        AfWalk.start (clock + walkCap) e.1 (contenders P T hints e)) := by
    rw [Fallible.mapM_eq_ok_iff, List.forall₂_map_right_iff, List.forall₂_same]
    intro e he
    have hcand : walkCandidates P T hints e.1 e.2 = .ok (contenders P T hints e) :=
      walkCandidates_eq_ok_iff.mpr ⟨named_of_mem_buckets hnamed he, rfl⟩
    rw [hcand]
    rfl
  exact Fallible.bind_eq_ok.mpr ⟨_, rendezvousHash_eq hkey P nic pool,
    Fallible.bind_eq_ok.mpr ⟨_, hwalks, rfl⟩⟩

theorem af_of_mem_contenders (hpool : pool.Normalised P nic) (hT : T.Placed)
    {e : ℕ × List (Server × σ)} (he : e ∈ (buckets A score P nic key pool ∅).entries)
    {c : BrokerClient} (hc : c ∈ contenders P T hints e) : c.af = e.1 := by
  rcases List.mem_append.mp (mem_distinct.mp hc) with hc | hc
  · obtain ⟨hint, -, -, hat⟩ := mem_hinted hc
    exact (hT _ _ _ hat).1
  · obtain ⟨u, hu, af, host, haf, -, hat⟩ := mem_ranked hc
    obtain ⟨fam, hfam, rfl⟩ := mem_entries_buckets rfl he
    obtain ⟨entry, hentry, hserver⟩ := mem_hosts_of_mem_bucket hu
    obtain ⟨-, af', haf', hnorm⟩ := hpool fam hfam entry hentry
    rw [hserver, haf, Option.some.injEq] at haf'
    rw [(hT _ _ _ hat).1, haf', hnorm]

theorem nodup_found (hs : s.Sound) (hover : ∀ w ∈ s.walks, w.stage = .finished)
    (hfam : (s.families.map Prod.fst).Nodup)
    (haf : ∀ x ∈ s.families, ∀ c ∈ x.2, c.af = x.1) :
    (s.walks.flatMap AfWalk.afFound).Nodup := by
  have hpost : ∀ w ∈ s.walks, w.Postcondition := by
    intro w hw
    apply (hs.walks w hw).postcondition
    rw [hover w hw]
    exact WalkStage.noConfusion
  have hfound : ∀ w ∈ s.walks, ∀ c ∈ w.afFound, c.af = w.nicAf := by
    intro w hw c hc
    have hmem := List.mem_of_mem_take ((hpost w hw).found c hc).1
    exact haf (w.nicAf, w.candidates) (List.mem_map_of_mem hw) c hmem
  rw [List.nodup_flatMap]
  refine ⟨fun w hw => (hpost w hw).distinct, ?_⟩
  rw [Discovery.families, List.map_map, List.Nodup, List.pairwise_map] at hfam
  apply List.Pairwise.imp_of_mem _ hfam
  intro w w' hw hw' hne c hc hc'
  exact hne ((hfound w hw c hc).symm.trans (hfound w' hw' c hc'))

/-- Whatever the outcomes of the connects and the order in which they end: the clients returned are
distinct, each walk that is over has met its postcondition, and a call can always go on to its
result. -/
theorem discovery_postcondition (score : Bytes → Bytes → Bytes → σ) (hints : List Hint)
    (walkCap clock : ℚ) (session : BrokerClient → Session) (hkey : A.hToB destPubHex = .ok key)
    (hpool : pool.Normalised P nic) (hT : T.Placed) :
    ∃ afBuckets s₀, rendezvousHash A score (nic.map P.number) destPubHex (pool.servers P) =
        .ok afBuckets ∧
      Discovery.start P T hints A score nic destPubHex pool walkCap clock session = .ok s₀ ∧
      ∀ as s, Machine.run step s₀ as = some s → (∀ a ∈ as, a.Networked) →
        s.families = afBuckets.entries.map (fun e => (e.1, contenders P T hints e)) ∧
        (∀ w ∈ s.walks, w.stage ≠ .collecting →
          w.Postcondition ∧ (w.timedOut = true → w.deadline ≤ s.clock)) ∧
        (∀ r, s.result = some r → ∃ clients, r = .ok clients ∧ clients.Nodup ∧
          clients = s.walks.flatMap AfWalk.afFound ∧ ∀ w ∈ s.walks, w.stage = .finished) ∧
        (s.result = none → ∃ bs t, Machine.run step s bs = some t ∧ (∀ b ∈ bs, b.Networked) ∧
          t.result.isSome = true) := by
  refine ⟨_, _, rendezvousHash_eq hkey P nic pool,
    start_eq score hkey (named_of_normalised hpool), ?_⟩
  intro as s hrun hnet
  obtain ⟨hs, hfam⟩ := run_sound (sound_started ..) hrun hnet
  have hfamilies := hfam.trans (families_started ..)
  refine ⟨hfamilies, fun w hw hst => ?_, fun r hr => ?_, fun hr => ?_⟩
  · exact ⟨(hs.walks w hw).postcondition hst, hs.elapsed w hw⟩
  · obtain ⟨rfl, hover⟩ := hs.result r hr
    refine ⟨_, rfl, nodup_found hs hover ?_ ?_, rfl, hover⟩
    · rw [hfamilies, List.map_map]
      exact (buckets A score P nic key pool ∅).nodup_keys
    · intro x hx c hc
      rw [hfamilies] at hx
      obtain ⟨e, he, rfl⟩ := List.mem_map.mp hx
      exact af_of_mem_contenders hpool hT he hc
  · obtain ⟨bs, t, hrun', hsmooth, ht⟩ := exists_result hs hr
    exact ⟨bs, t, hrun', fun b hb => (hsmooth b hb).networked, ht⟩

omit [LinearOrder σ] in
/-- Step by step, a walk finds what `walk_af` makes of the results in the order they were
gathered. -/
theorem walkAf_of_gathered (hs : w.Sound) {us : List (Server × σ)}
    (hcand : walkCandidates P T hints w.nicAf us = .ok w.candidates) (cap : ℚ) :
    walkAf P T hints (fun _ _ _ => w.gathered.map fun c =>
      (c, .ok (decide (w.attempts c = .ended .client)))) cap w.nicAf us = .ok w.afFound := by
  have hle : w.afFound.length ≤ needed w.candidates.length := hs.atMost
  simp only [walkAf, hcand]
  change (if needed w.candidates.length = 0 then Except.ok [] else
    collect (needed w.candidates.length) _ []) = _
  split_ifs with hneeded
  · rw [hneeded] at hle
    rw [List.length_eq_zero_iff.mp (Nat.le_zero.mp hle)]
  · rw [collect_of_outcome (fun c => decide (w.attempts c = .ended .client)) _ []
      (by simp) (Nat.pos_of_ne_zero hneeded), List.map_map]
    have hfilter : (w.gathered.map (Prod.fst ∘ fun c => (c, (.ok (decide
        (w.attempts c = .ended .client)) : Except PyExc Bool)))).filter
          (fun c => decide (w.attempts c = .ended .client)) = w.afFound := by
      rw [hs.found]
      exact congrArg _ (List.map_id _)
    rw [hfilter, List.nil_append, List.length_nil, Nat.sub_zero, List.take_of_length_le hle]

theorem normalised_pairPool : pairPool.toBrokerPool.Normalised linux [.v4] := by
  intro fam hfam e he
  obtain rfl := List.mem_singleton.mp hfam
  obtain ⟨hhost, haf⟩ := pairPool.keyed .v4 e he
  exact ⟨hhost, _, haf, rfl⟩

/-- Two brokers: the call returns, and the clients it returns are distinct. -/
theorem discovery_postcondition_pair : ∃ T s₀ as s clients,
    initClients linux [.v4] pairPool.toBrokerPool = .ok T ∧
    Discovery.start linux T [] concrete hostValue [.v4] (concrete.toH [7]) pairPool.toBrokerPool 2
      100 (fun _ => {}) = .ok s₀ ∧
    Machine.run step s₀ as = some s ∧ s.result = some (.ok clients) ∧ clients.Nodup := by
  obtain ⟨T, hT, -⟩ := seeded_initClients linux [.v4] pairPool.toBrokerPool
  obtain ⟨afBuckets, s₀, -, hstart, hall⟩ := discovery_postcondition hostValue [] 2 100 (fun _ => {})
    (concrete_lawful.hToB_toH [7]) normalised_pairPool (ClientTable.placed_initClients hT)
  have hnone : s₀.result = none := by
    obtain ⟨buckets, -, h⟩ := Fallible.bind_eq_ok.mp hstart
    obtain ⟨walks, -, h⟩ := Fallible.bind_eq_ok.mp h
    cases h
    rfl
  obtain ⟨bs, s, hrun, hnet, hres⟩ := (hall [] s₀ rfl (by simp)).2.2.2 hnone
  obtain ⟨r, hr⟩ := Option.isSome_iff_exists.mp hres
  obtain ⟨clients, rfl, hnodup, -⟩ := (hall bs s hrun hnet).2.2.1 r hr
  exact ⟨T, s₀, bs, s, clients, hT, hstart, hrun, hr, hnodup⟩

end Spec

end Discovery

end Sidewire
