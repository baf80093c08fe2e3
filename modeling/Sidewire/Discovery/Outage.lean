import Sidewire.Discovery.Postcondition

/-! # Outages

A node that finds no broker cannot be reached. Where a family has two candidates
or more and one of those that race accepts the connection in time, the call does
not come back empty: the first walk finds that broker or another, or it is
repeated and no connect of that broker has failed by then.
-/

namespace Sidewire

namespace Discovery

variable {s s' s₀ : Discovery} {a : Act} {as : List Act} {w w' : AfWalk} {c : BrokerClient}

def Repeatable (s : Discovery) : Prop := s.walkCap < 4 ∧ s.retried = false

/-- The broker accepts the connection within the budget of the walk that decides: no connect of it
fails, and no cap but that of a walk to be repeated elapses before its result is gathered. -/
structure Accepts (c : BrokerClient) (s : Discovery) (a : Act) : Prop where
  networked : a.Networked
  connects : ∀ f e, a = .connectEnds f c e → ∃ p, e = .ok p
  unwinds : ∀ k now e, a = .unwinds k (some e) → s.unwinding[k]? = some (c, now) → ∃ p, e = .ok p
  inTime : ∀ f w, a = .elapse f → s.walks[f]? = some w → c ∈ w.racers →
    c ∈ w.gathered ∨ s.Repeatable

theorem Act.Smooth.accepts (h : a.Smooth) : Accepts c s a where
  networked := h.networked
  connects f e ha := by
    subst ha
    cases e with
    | ok p => exact ⟨p, rfl⟩
    | error exc => exact h.elim
  unwinds k now e ha := by
    subst ha
    exact h.elim
  inTime f w ha := by
    subst ha
    exact h.elim

def Open (t : Session) : Prop := t.dispatcherTask ≠ none ∨ t.lastConnect = none

theorem Open.tryClient {t : Session} (h : Open t) {now : ℚ} {r : CallResult}
    (hr : t.tryClient now = .over r) : r = .client := by
  unfold Session.tryClient at hr
  split_ifs at hr with htask hlast
  · cases hr
    rfl
  · obtain ⟨last, hl, -⟩ := hlast
    rcases h with h | h
    · exact absurd h htask
    · rw [h] at hl
      cases hl

theorem open_connected (t : Session) (now : ℚ) (p : ℕ) : Open (t.tried now (.ok p)).1 := by
  left
  change (if t.dispatcherTask = none then t.createDispatcher else t).dispatcherTask ≠ none
  split_ifs with h
  · exact Option.some_ne_none _
  · exact h

structure Fruitful (c : BrokerClient) (repeatable : Prop) (w : AfWalk) : Prop where
  client : ∀ r, w.attempts c = .ended r → r = .client
  found : c ∈ w.racers → w.stage = .finished → w.afFound ≠ [] ∨ repeatable

structure Kept (c : BrokerClient) (s : Discovery) : Prop where
  isOpen : Open (s.session c)
  walks : ∀ w ∈ s.walks, Fruitful c s.Repeatable w
  result : ∀ r, s.result = some r → ∃ clients, r = .ok clients ∧ clients ≠ []

theorem found_of_gathered (h : w.Sound) (hc : c ∈ w.gathered)
    (hclient : ∀ r, w.attempts c = .ended r → r = .client) : w.afFound ≠ [] := by
  obtain ⟨-, r, hr⟩ := (h.ended c).mp (List.mem_append_left _ hc)
  obtain rfl := hclient r hr
  rw [h.found]
  exact List.ne_nil_of_mem (List.mem_filter.mpr ⟨hc, by rw [hr]; rfl⟩)

theorem found_of_inTime (h : w.Sound) (hs : w.stage = .finished) (ht : w.timedOut = false)
    (hc : c ∈ w.racers) (hclient : ∀ r, w.attempts c = .ended r → r = .client) :
    w.afFound ≠ [] := by
  have hne : w.stage ≠ .collecting := by
    rw [hs]
    exact WalkStage.noConfusion
  have hneeded : w.needed ≠ 0 := by
    intro h0
    rw [AfWalk.racers, if_pos h0] at hc
    cases hc
  by_cases hlt : w.afFound.length < w.needed
  · rcases h.short hne hlt with ht' | hlen
    · rw [ht] at ht'
      cases ht'
    · exact found_of_gathered h (h.ended_of_length hlen hc).1 hclient
  · rintro hnil
    rw [hnil] at hlt
    exact hlt (Nat.pos_of_ne_zero hneeded)

theorem goOn_ended (w : AfWalk) (c : BrokerClient) (r : CallResult) :
    w.goOn.attempts c = .ended r ↔ w.attempts c = .ended r := by
  unfold AfWalk.goOn
  split_ifs
  · exact AfWalk.finish_ended w .finished c r
  · exact Iff.rfl

theorem collect_ended (hw : w.collect = some w') (c : BrokerClient) (r : CallResult) :
    w'.attempts c = .ended r ↔ w.attempts c = .ended r := by
  unfold AfWalk.collect at hw
  split at hw
  · dsimp only at hw
    split at hw
    · cases hw
      split_ifs
      · exact AfWalk.finish_ended _ .finished c r
      · exact goOn_ended _ c r
    · cases hw
      exact AfWalk.finish_ended _ _ c r
    · cases hw
      exact goOn_ended _ c r
  · cases hw

theorem fruitful_collecting {repeatable : Prop} (hs : w.stage = .collecting)
    (hclient : ∀ r, w.attempts c = .ended r → r = .client) : Fruitful c repeatable w := by
  refine ⟨hclient, fun _ hst => ?_⟩
  rw [hs] at hst
  cases hst

theorem fruitful_start {repeatable : Prop} (deadline : ℚ) (nicAf : ℕ)
    (candidates : List BrokerClient) :
    Fruitful c repeatable (AfWalk.start deadline nicAf candidates) := by
  refine ⟨fun r hr => (by cases hr), fun hc hst => ?_⟩
  have hneeded : (AfWalk.start deadline nicAf candidates).needed ≠ 0 := by
    intro h0
    rw [AfWalk.racers, if_pos h0] at hc
    cases hc
  have hcollecting : (AfWalk.start deadline nicAf candidates).stage = .collecting := if_neg hneeded
  rw [hcollecting] at hst
  cases hst

theorem Fruitful.settle {repeatable : Prop} {c' : BrokerClient} {r : CallResult}
    (h : Fruitful c repeatable w) (hs : w.stage = .collecting) (hr : c' = c → r = .client) :
    Fruitful c repeatable (w.settle c' r) := by
  have hs' : (w.settle c' r).stage = .collecting := hs
  apply fruitful_collecting hs'
  intro r' hr'
  by_cases hcc : c = c'
  · subst hcc
    simp only [AfWalk.settle, AfWalk.setAttempt, Function.update_self, Attempt.ended.injEq] at hr'
    exact hr' ▸ hr rfl
  · simp only [AfWalk.settle, AfWalk.setAttempt, Function.update_of_ne hcc] at hr'
    exact h.client r' hr'

theorem Kept.setWalk {f : ℕ} {t : Discovery} (h : Kept c s) (hf : s.walks[f]? = some w)
    (hs : w.stage = .collecting) (hsound : s.Sound) (hwalks : t.walks = s.walks.set f w')
    (hopen : Open (t.session c)) (hresult : t.result = s.result)
    (hcap : t.walkCap = s.walkCap) (hretried : t.retried = s.retried)
    (hw : Fruitful c s.Repeatable w') : Kept c t where
  isOpen := hopen
  walks := by
    intro v hv
    rw [Repeatable, hcap, hretried]
    rw [hwalks] at hv
    rcases List.mem_or_eq_of_mem_set hv with hv | rfl
    · exact h.walks v hv
    · exact hw
  result := by
    intro r hr
    rw [hresult] at hr
    have hover := (hsound.result r hr).2 w (List.mem_of_getElem? hf)
    rw [hs] at hover
    cases hover

theorem Kept.step (h : Kept c s) (hsound : s.Sound) (hpresent : ∃ w ∈ s.walks, c ∈ w.racers)
    (ha : Accepts c s a) (hstep : s.Step a s') : Kept c s' := by
  have hsound' := hstep.sound ha.networked hsound
  cases hstep with
  | tick => exact ⟨h.isOpen, h.walks, h.result⟩
  | @begins f c' w r hf hs hc hat hr =>
    have hw := h.walks w (List.mem_of_getElem? hf)
    refine h.setWalk hf hs hsound rfl h.isOpen rfl rfl rfl (hw.settle hs ?_)
    rintro rfl
    exact h.isOpen.tryClient hr
  | @enters f c' w hf hs hc hat =>
    have hw := h.walks w (List.mem_of_getElem? hf)
    refine h.setWalk hf hs hsound rfl h.isOpen rfl rfl rfl (fruitful_collecting hs ?_)
    intro r hr
    by_cases hcc : c = c'
    · subst hcc
      simp [AfWalk.setAttempt] at hr
    · simp only [AfWalk.setAttempt, Function.update_of_ne hcc] at hr
      exact hw.client r hr
  | @connects f c' w now e hf hs hc hat =>
    have hw := h.walks w (List.mem_of_getElem? hf)
    by_cases hcc : c = c'
    · subst hcc
      obtain ⟨p, rfl⟩ := ha.connects f e rfl
      refine h.setWalk hf hs hsound rfl ?_ rfl rfl rfl (hw.settle hs fun _ => rfl)
      simp only [Discovery.setWalk, setSession, Function.update_self]
      exact open_connected _ now p
    · refine h.setWalk hf hs hsound rfl ?_ rfl rfl rfl (hw.settle hs fun hc' => absurd hc'.symm hcc)
      simp only [Discovery.setWalk, setSession, Function.update_of_ne hcc]
      exact h.isOpen
  | @unwinds k c' now e hk session he =>
    refine ⟨?_, h.walks, h.result⟩
    by_cases hcc : c = c'
    · subst hcc
      simp only [setSession, Function.update_self]
      cases e with
      | none => exact he ▸ h.isOpen
      | some e =>
        obtain ⟨p, rfl⟩ := ha.unwinds k now e rfl hk
        exact he ▸ open_connected _ now p
    · simp only [setSession, Function.update_of_ne hcc]
      exact h.isOpen
  | @collects f w w' hf hw =>
    have hmem := List.mem_of_getElem? hf
    obtain ⟨hs, hsame, ht⟩ := AfWalk.same_collect hw
    have hclient : ∀ r, w'.attempts c = .ended r → r = .client :=
      fun r hr => (h.walks w hmem).client r ((collect_ended hw c r).mp hr)
    refine h.setWalk hf hs hsound rfl h.isOpen rfl rfl rfl ⟨hclient, fun hc hst => .inl ?_⟩
    apply found_of_inTime ((hsound.walks w hmem).collect hw) hst _ hc hclient
    rw [ht]
    exact (hsound.walks w hmem).inTime hs
  | @elapses f w hf hs hd =>
    have hmem := List.mem_of_getElem? hf
    have hw := h.walks w hmem
    refine h.setWalk hf hs hsound rfl h.isOpen rfl rfl rfl ⟨?_, fun hc _ => ?_⟩
    · exact fun r hr => hw.client r ((AfWalk.finish_ended w .finished c r).mp hr)
    · rcases ha.inTime f w rfl hf hc with hg | hrep
      · have hfound : w.afFound ≠ [] := found_of_gathered (hsound.walks w hmem) hg hw.client
        exact .inl hfound
      · exact .inr hrep
  | raises hw hst => exact absurd hst ((hsound.walks _ hw).quiet _)
  | repeats _ _ _ _ hr =>
    refine ⟨h.isOpen, ?_, h.result⟩
    intro v hv
    obtain ⟨w, -, rfl⟩ := List.mem_map.mp hv
    exact fruitful_start _ _ _
  | returns hover hr =>
    refine ⟨h.isOpen, h.walks, ?_⟩
    rintro r hres
    cases hres
    refine ⟨_, rfl, fun hnil => ?_⟩
    obtain ⟨w, hw, hc⟩ := hpresent
    rcases (h.walks w hw).found hc (hover w hw) with hfound | hrep
    · exact hfound (List.flatMap_eq_nil_iff.mp hnil w hw)
    · exact hr ⟨hnil, hrep⟩

section Spec

variable {KP σ : Type} [LinearOrder σ] {A : Aio KP} {score : Bytes → Bytes → Bytes → σ}
  {P : Platform} {T : ClientTable} {hints : List Hint} {nic : List Family} {pool : BrokerPool}
  {key : Bytes} {destPubHex : String} {fam : Family}

theorem mem_racers_of_families {af : ℕ} {candidates : List BrokerClient}
    (hfam : (af, candidates) ∈ s.families) (h2 : 2 ≤ candidates.length)
    (hc : c ∈ candidates.take 10) : ∃ w ∈ s.walks, c ∈ w.racers := by
  obtain ⟨w, hw, he⟩ := List.mem_map.mp hfam
  cases he
  have hneeded : w.needed ≠ 0 := (needed_pos h2).ne'
  exact ⟨w, hw, by rwa [AfWalk.racers, if_neg hneeded]⟩

theorem Kept.run {af : ℕ} {candidates : List BrokerClient} (h : Kept c s₀) (hs : s₀.Sound)
    (hfam : (af, candidates) ∈ s₀.families) (h2 : 2 ≤ candidates.length)
    (hc : c ∈ candidates.take 10) (hrun : Machine.run Discovery.step s₀ as = some s)
    (hmeets : Machine.Meets Discovery.step (Accepts c) s₀ as) : Kept c s ∧ s.Sound := by
  have hI : (fun t : Discovery => (Kept c t ∧ t.Sound) ∧ t.families = s₀.families) s := by
    apply Machine.run_invariant (P := Accepts c) _ ⟨⟨h, hs⟩, rfl⟩ hmeets hrun
    rintro t a u ⟨⟨hkept, ht⟩, hfams⟩ ha hstep
    have hstep := step_cases hstep
    refine ⟨⟨hkept.step ht ?_ ha hstep, hstep.sound ha.networked ht⟩,
      (hstep.families ha.networked).trans hfams⟩
    exact mem_racers_of_families (hfams ▸ hfam) h2 hc
  exact hI.1

omit [LinearOrder σ] in
theorem kept_started (P : Platform) (T : ClientTable) (hints : List Hint)
    (afBuckets : PyDict ℕ (List (Server × σ))) (walkCap clock : ℚ)
    (session : BrokerClient → Session) (hfresh : (session c).lastConnect = none) :
    Kept c (started P T hints afBuckets walkCap clock session) where
  isOpen := .inr hfresh
  walks := by
    intro w hw
    obtain ⟨e, -, rfl⟩ := List.mem_map.mp hw
    exact fruitful_start _ _ _
  result r hr := by cases hr

/-- No avoidable outage: where one of the ten brokers that race in a family with two candidates or
more accepts the connection in time, the call comes to a result, and not to an empty one. -/
theorem no_avoidable_outage (score : Bytes → Bytes → Bytes → σ) (T : ClientTable)
    (hints : List Hint) (walkCap clock : ℚ) (session : BrokerClient → Session)
    (hkey : A.hToB destPubHex = .ok key)
    (hnamed : ∀ fam ∈ nic, ∀ e ∈ (pool.hosts fam).entries, e.2.Named)
    (hfresh : ∀ c, (session c).dispatcherTask = none ∧ (session c).lastConnect = none)
    (hfam : fam ∈ nic)
    (h2 : 2 ≤ (contenders P T hints
      (P.number fam, bucket A score (P.number fam) key (pool.hosts fam))).length)
    (hc : c ∈ (contenders P T hints
      (P.number fam, bucket A score (P.number fam) key (pool.hosts fam))).take 10) :
    ∃ s₀, Discovery.start P T hints A score nic destPubHex pool walkCap clock session = .ok s₀ ∧
      ∀ as s, Machine.run Discovery.step s₀ as = some s →
        Machine.Meets Discovery.step (Accepts c) s₀ as →
        (∀ r, s.result = some r → ∃ clients, r = .ok clients ∧ clients ≠ []) ∧
        (s.result = none → ∃ bs t, Machine.run Discovery.step s bs = some t ∧
          Machine.Meets Discovery.step (Accepts c) s bs ∧ t.result.isSome = true) := by
  refine ⟨_, start_eq score hkey hnamed, fun as s hrun hmeets => ?_⟩
  have hmem : (P.number fam, contenders P T hints
      (P.number fam, bucket A score (P.number fam) key (pool.hosts fam))) ∈
      (started P T hints (buckets A score P nic key pool ∅) walkCap clock session).families := by
    rw [families_started]
    exact List.mem_map_of_mem (PyDict.get?_eq_some_iff.mp (get?_buckets hfam ∅))
  obtain ⟨hkept, hs⟩ := (kept_started P T hints _ walkCap clock session (hfresh c).2).run
    (sound_started ..) hmem h2 hc hrun hmeets
  refine ⟨hkept.result, fun hr => ?_⟩
  obtain ⟨bs, t, hrun', hsmooth, ht⟩ := exists_result hs hr
  exact ⟨bs, t, hrun', Machine.meets_of_mem (fun b hb _ => (hsmooth b hb).accepts) s, ht⟩

/-- Two brokers, of which the first accepts: the call comes to a result that is not empty. -/
theorem no_outage_pair : ∃ s₀ as s clients,
    Discovery.start linux pairTable [] concrete hostValue [.v4] (concrete.toH [7])
      pairPool.toBrokerPool 2 100 (fun _ => {}) = .ok s₀ ∧
    Machine.run Discovery.step s₀ as = some s ∧ s.result = some (.ok clients) ∧ clients ≠ [] := by
  obtain ⟨s₀, hstart, hall⟩ := no_avoidable_outage (P := linux) (c := ⟨IP4, "a", 1883⟩) hostValue
    pairTable [] 2 100 (fun _ => {}) (concrete_lawful.hToB_toH [7])
    (named_of_normalised normalised_pairPool) (fun _ => ⟨rfl, rfl⟩)
    (List.mem_singleton_self Family.v4) (by decide +kernel) (by decide +kernel)
  have hnone : s₀.result = none := by
    obtain ⟨buckets, -, h⟩ := Fallible.bind_eq_ok.mp hstart
    obtain ⟨walks, -, h⟩ := Fallible.bind_eq_ok.mp h
    cases h
    rfl
  obtain ⟨bs, s, hrun, hmeets, hres⟩ := (hall [] s₀ rfl trivial).2 hnone
  obtain ⟨r, hr⟩ := Option.isSome_iff_exists.mp hres
  obtain ⟨clients, rfl, hne⟩ := (hall bs s hrun hmeets).1 r hr
  exact ⟨s₀, bs, s, clients, hstart, hrun, hr, hne⟩

def lonePool (server : Server) : BrokerPool where
  v4 := (∅ : PyDict String Server).set "a" server
  v6 := ∅

def loneTable : ClientTable :=
  ((∅ : ClientTable).set IP4 ((∅ : PyDict String BrokerClient).set "a" ⟨IP4, "a", 1883⟩)).set 10 ∅

/-- A single broker that accepts every connection is passed over, the family being skipped. Without
the family in its record the call raises. -/
theorem lone_broker_outage :
    initClients linux [.v4] (lonePool ⟨some IP4, some "a", 1883, none⟩) = .ok loneTable ∧
    (∃ s₀ as s, Discovery.start linux loneTable [] concrete hostValue [.v4] (concrete.toH [7])
        (lonePool ⟨some IP4, some "a", 1883, none⟩) 2 100 (fun _ => {}) = .ok s₀ ∧
      (∃ x ∈ s₀.families, ⟨IP4, "a", 1883⟩ ∈ x.2.take 10) ∧
      Machine.run Discovery.step s₀ as = some s ∧
      Machine.Meets Discovery.step (Accepts ⟨IP4, "a", 1883⟩) s₀ as ∧
      s.result = some (.ok [])) ∧
    (Discovery.start linux loneTable [] concrete hostValue [.v4] (concrete.toH [7])
      (lonePool ⟨none, some "a", 1883, none⟩) 2 100 (fun _ => {})).map Discovery.retried =
        .error (.keyError "af") := by
  refine ⟨by decide +kernel, ?_, by decide +kernel⟩
  let afBuckets := buckets concrete hostValue linux [.v4] [7]
    (lonePool ⟨some IP4, some "a", 1883, none⟩) ∅
  have hs := sound_started linux loneTable [] afBuckets 2 100 fun _ => {}
  have hfams := families_started linux loneTable [] afBuckets 2 100 fun _ => {}
  obtain ⟨bs, s, hrun, hsmooth, hres⟩ := exists_result hs rfl
  obtain ⟨hs', hfams'⟩ := run_sound hs hrun fun b hb => (hsmooth b hb).networked
  refine ⟨_, bs, s, start_eq hostValue (concrete_lawful.hToB_toH [7])
    (by unfold Server.Named; decide +kernel), ?_, hrun,
    Machine.meets_of_mem (fun b hb _ => (hsmooth b hb).accepts) _, ?_⟩
  · rw [hfams]
    decide +kernel
  · obtain ⟨r, hr⟩ := Option.isSome_iff_exists.mp hres
    obtain ⟨rfl, hover⟩ := hs'.result r hr
    have hsmall : ∀ x ∈ s.families, x.2.length < 2 := by
      rw [hfams', hfams]
      decide +kernel
    have hnil : s.walks.flatMap AfWalk.afFound = [] := by
      rw [List.flatMap_eq_nil_iff]
      intro w hw
      have hst : w.stage ≠ .collecting := by
        rw [hover w hw]
        exact WalkStage.noConfusion
      exact ((hs'.walks w hw).postcondition hst).skipped
        (hsmall (w.nicAf, w.candidates) (List.mem_map_of_mem hw))
    rw [hr, hnil]

end Spec

end Discovery

end Sidewire
