import Sidewire.Mqtt.Places
import Sidewire.Router.Calls
import Sidewire.Router.Survival

/-! # Dequeued messages

A dequeued message stays silent if the dispatcher looks at its future or has no
use for it any more; one that went with its whole queue, also if no pass is
suspended inside that queue with the message still ahead. A dispatcher that
ignores futures, or is in the middle of the queue, publishes it again.
-/

namespace Sidewire

def Dispatcher.settings (d : Dispatcher) : ℚ × PyNum × ℚ × Bool :=
  (d.republishDuration, d.interval, d.keepAlive, d.ignoreAcked)

namespace Router

open Exec MQTTClient

variable {KP ι : Type} {A : Aio KP} {r r' : Router KP ι} {a : Action ι} {i j : ι} {draw : ℚ}
  {K m : Meta} {f : ℕ} {c c' : MQTTClient KP} {g g' : Gen} {pc : DispatchPc}

/-- The future of the message that the dispatcher of client `i` publishes in its next step, if it
publishes one. -/
def published (A : Aio KP) (r : Router KP ι) (i : ι) (draw : ℚ) : Option ℕ :=
  match (r.dispatchers i).pc with
  | .walking now g =>
    match g.next (r.clients i) with
    | .yield s m _ =>
      if (r.clients i).pipeAlive then
        match republishMeta A (r.dispatchers i) g now draw s m (r.clients i) with
        | some (.published _) => some m.appAck
        | _ => none
      else none
    | _ => none
  | _ => none

theorem of_published (h : r.published A i draw = some f) :
    ∃ now g s m g' c', (r.dispatchers i).pc = .walking now g ∧
      g.next (r.clients i) = .yield s m g' ∧ m.appAck = f ∧
        republishMeta A (r.dispatchers i) g now draw s m (r.clients i) = some (.published c') := by
  unfold published at h
  split at h
  · rename_i now g hpc
    split at h
    · rename_i s m g' hn
      split_ifs at h
      split at h
      · rename_i c' hp
        cases h
        exact ⟨now, g, s, m, g', c', hpc, hn, rfl, hp⟩
      · cases h
    · cases h
  · cases h

/-- An action that takes back a message of client `i`. -/
def Dequeues (r : Router KP ι) (a : Action ι) (i : ι) (K : Meta) : Prop :=
  ∃ q s, (r.clients i).entry .msg q s = some K ∧
    (a = .dequeueMsg i q none .msg ∨ a = .dequeueMsg i q (some s) .msg)

def Spent (A : Aio KP) (r : Router KP ι) (i : ι) (m : Meta) : Prop :=
  (∃ why, (r.dispatchers i).pc = .finished why) ∨
    (r.dispatchers i).republishDuration ≤
      (r.dispatchers i).pc.startedAt.getD r.clock - m.created ∨
    A.isAscii m.destPkHex = false

/-- The condition under which a dequeue silences what it takes back. -/
def Silences (A : Aio KP) (r : Router KP ι) : Action ι → Prop
  | .dequeueMsg i q (some s) .msg => ∀ m, (r.clients i).entry .msg q s = some m →
      (r.dispatchers i).ignoreAcked = true ∨ Spent A r i m
  | .dequeueMsg i q none .msg => ∀ d s m, (r.clients i).queue .msg q = some d →
      d.metas.get? s = some m →
        (∀ g, (r.dispatchers i).pc.pass = some g → g.ident = d.ident → s ∉ g.seqNos) ∨
        (r.dispatchers i).ignoreAcked = true ∧ (r.clients i).done m = true ∨ Spent A r i m
  | _ => True

structure OutOfReach (c : MQTTClient KP) (pc : DispatchPc) (f : ℕ) : Prop where
  entry : ∀ {t q s m}, c.entry t q s = some m → m.appAck ≠ f
  ahead : ∀ {g}, pc.pass = some g → ∀ s ∈ g.seqNos, ∀ m,
    (c.queueObject g.msgType g.queueIdHex g.ident).get? s = some m → m.appAck ≠ f

theorem OutOfReach.writes {P : Write → Prop} (h : OutOfReach c pc f) (hw : Writes A P c c')
    (hf : f < c.nextObj) : OutOfReach c' pc f := by
  constructor
  · intro t q s m hm
    rcases hw.entry_cases hm with ⟨m₀, hm₀, hc⟩ | ⟨msg, -, -, hn⟩
    · rw [Meta.appAck_eq_of_core hc]
      exact h.entry hm₀
    · omega
  · intro g hg s hs m hm
    rcases hw.object_cases hm with ⟨m₀, hm₀, hc⟩ | ⟨t, q, s, m₀, hm₀, hc⟩ | hn
    · rw [Meta.appAck_eq_of_core hc]
      exact h.ahead hg s hs m₀ hm₀
    · rw [Meta.appAck_eq_of_core hc]
      exact h.entry hm₀
    · omega

theorem next_cases (g : Gen) (c : MQTTClient KP) :
    (∃ s ss, g.seqNos = s :: ss ∧
      ((∃ m, g.next c = .yield s m { g with seqNos := ss }) ∨
        g.next c = .move { g with seqNos := ss })) ∨
    g.seqNos = [] ∧
      ((∃ q qs d, c.queue g.msgType q = some d ∧ g.next c = .move { g with
          queueIds := qs, queueIdHex := q, ident := d.ident
          seqNos := d.metas.keys.insertionSort (· ≤ ·) }) ∨
        (∃ t ts, g.next c = .move { g with
          types := ts, msgType := t, queueIds := (c.msgQueues t).keys }) ∨
        (∃ e, g.next c = .raise e) ∨ g.next c = .stop) := by
  unfold Gen.next
  cases hs : g.seqNos with
  | cons s ss =>
    refine .inl ⟨s, ss, rfl, ?_⟩
    simp only
    cases (c.queueObject g.msgType g.queueIdHex g.ident).get? s with
    | none => exact .inr rfl
    | some m => exact .inl ⟨m, rfl⟩
  | nil =>
    refine .inr ⟨rfl, ?_⟩
    simp only
    cases g.queueIds with
    | cons q qs =>
      simp only
      cases hd : c.queue g.msgType q with
      | none => exact .inr (.inr (.inl ⟨_, rfl⟩))
      | some d => exact .inl ⟨q, qs, d, hd, rfl⟩
    | nil =>
      simp only
      cases g.types with
      | nil => exact .inr (.inr (.inr rfl))
      | cons t ts => exact .inr (.inl ⟨t, ts, rfl⟩)

theorem ahead_of_next (h : g.next c = .move g' ∨ ∃ s m, g.next c = .yield s m g') {s : ℤ}
    (hs : s ∈ g'.seqNos)
    (hm : (c.queueObject g'.msgType g'.queueIdHex g'.ident).get? s = some m) :
    s ∈ g.seqNos ∧ (c.queueObject g.msgType g.queueIdHex g.ident).get? s = some m ∨
      ∃ t q, c.entry t q s = some m := by
  rcases next_cases g c with ⟨s₀, ss, hseq, hn⟩ | ⟨hseq, ⟨q, qs, d, hd, hn⟩ | ⟨t, ts, hn⟩ | ⟨e, hn⟩ | hn⟩
  · have hg : g' = { g with seqNos := ss } := by
      rcases hn with ⟨m₀, hn⟩ | hn <;> rw [hn] at h <;> rcases h with h | ⟨s₁, m₁, h⟩ <;> cases h <;> rfl
    subst hg
    exact .inl ⟨by rw [hseq]; exact List.mem_cons_of_mem _ hs, hm⟩
  all_goals
    rw [hn] at h
    rcases h with h | ⟨s₁, m₁, h⟩ <;> cases h
  · right
    rcases queueObject_get?_iff.mp hm with ⟨e, he, -, hget⟩ | ⟨hne, -⟩
    · exact ⟨_, _, (entry_of_queue he s).trans hget⟩
    · exact absurd rfl (hne d hd)
  · rw [hseq] at hs
    cases hs

theorem pass_of_walkStep {d : Dispatcher} {now : ℚ}
    (h : walkStep A d now draw g c = some (pc, c')) (hg : pc.pass = some g') :
    g.next c = .move g' ∨ ∃ s m, g.next c = .yield s m g' := by
  unfold walkStep at h
  cases hn : g.next c with
  | move g₁ =>
    rw [hn] at h
    cases h
    cases hg
    exact .inl rfl
  | stop =>
    rw [hn] at h
    cases h
    cases hg
  | raise e =>
    rw [hn] at h
    cases h
    cases hg
  | yield s m g₁ =>
    rw [hn] at h
    simp only at h
    split_ifs at h
    · cases h
      cases hg
    · split at h <;> cases h <;> cases hg <;> exact .inr ⟨s, m, rfl⟩

theorem OutOfReach.stride (h : OutOfReach (r.clients i) (r.dispatchers i).pc f)
    (hst : Stride A r i draw pc) : OutOfReach (r.clients i) pc f := by
  refine ⟨h.entry, fun {g'} hg s hs m hm => ?_⟩
  cases hst with
  | start =>
    cases hg
    cases hs
  | walk hpc hw =>
    rcases ahead_of_next (pass_of_walkStep hw hg) hs hm with ⟨hs, hm⟩ | ⟨t, q, hm⟩
    · exact h.ahead (by rw [hpc]; rfl) s hs m hm
    · exact h.entry hm
  | resume hpc =>
    cases hg
    exact h.ahead (by rw [hpc]; rfl) s hs m hm
  | pause _ hpc =>
    rcases hpc with rfl | rfl | rfl <;> cases hg

section Settings

variable [DecidableEq ι]

theorem settings_update (ds : ι → Dispatcher) (i : ι) (d : Dispatcher)
    (h : d.settings = (ds i).settings) (j : ι) :
    (Function.update ds i d j).settings = (ds j).settings := by
  by_cases hj : j = i
  · subst hj
    rw [Function.update_self, h]
  · rw [Function.update_of_ne hj]

theorem settings_setDispatchPc (r : Router KP ι) (i : ι) (pc : DispatchPc) (j : ι) :
    ((r.setDispatchPc i pc).dispatchers j).settings = (r.dispatchers j).settings :=
  settings_update r.dispatchers i { r.dispatchers i with pc } rfl j

theorem dispatch_settings (h : r.dispatch A i draw = some r') (j : ι) :
    (r'.dispatchers j).settings = (r.dispatchers j).settings := by
  unfold dispatch at h
  split at h
  · split_ifs at h
    cases h
    exact settings_setDispatchPc ..
  · split at h
    · cases h
    · cases h
      exact settings_setDispatchPc ..
  · cases h
    exact settings_setDispatchPc ..
  · cases h
    have hping := settings_update r.dispatchers i { r.dispatchers i with lastPing := r.clock } rfl j
    unfold keepAlive
    simp only
    split_ifs
    · exact settings_setDispatchPc ..
    · exact (settings_setDispatchPc ..).trans hping
    · exact (settings_setDispatchPc ..).trans hping
  · cases h
    exact settings_setDispatchPc ..
  · cases h

theorem step_settings (h : r.step A a = some r') (j : ι) :
    (r'.dispatchers j).settings = (r.dispatchers j).settings := by
  have hact := act_of_step h
  cases a with
  | dispatch i draw => exact dispatch_settings hact j
  | cancelDispatcher i =>
    simp only [act] at hact
    split at hact
    · cases hact
    · cases hact
      exact settings_setDispatchPc ..
  | tick t | reconnected i =>
    simp only [act] at hact
    split_ifs at hact
    cases hact
    rfl
  | resume k res =>
    obtain ⟨t, pc, c, recv, calls, -, -, rfl⟩ := resume_spec hact
    rfl
  | queueMsg | sendProbe =>
    cases hact
    rw [call_eq]
    rfl
  | recv | dequeueMsg | addMsgHandler | brokerAck | connectionLost | close | dropPipe =>
    cases hact
    rfl

theorem step_time (hA : A.Lawful) (h : r.step A a = some r') :
    r.clock ≤ r'.clock ∧ KeepsTime r r'.dispatchers := by
  cases step_spec hA h with
  | tick hle => exact ⟨hle, keepsTime_self r⟩
  | recv => exact ⟨le_rfl, keepsTime_self r⟩
  | turn => exact ⟨le_rfl, keepsTime_self r⟩
  | client ds running hd => exact ⟨le_rfl, hd⟩
  | prune ds running hd => exact ⟨le_rfl, hd⟩

theorem step_stride (h : r.step A a = some r') (i : ι) :
    (r'.dispatchers i).pc = (r.dispatchers i).pc ∨
      (∃ why, (r'.dispatchers i).pc = .finished why) ∨
      ∃ draw, Stride A r i draw (r'.dispatchers i).pc := by
  obtain ⟨j, draw, pc, -, hst, hpc⟩ | ⟨j, -, -, hpc⟩ | ⟨-, hpc⟩ := step_dispatchers h
  · by_cases hij : i = j
    · subst hij
      rw [hpc, if_pos rfl]
      exact .inr (.inr ⟨draw, hst⟩)
    · rw [hpc, if_neg hij]
      exact .inl rfl
  · by_cases hij : i = j
    · rw [hpc, if_pos hij]
      exact .inr (.inl ⟨_, rfl⟩)
    · rw [hpc, if_neg hij]
      exact .inl rfl
  · exact .inl (hpc i)

omit [DecidableEq ι] in
theorem since_mono (hclock : r.clock ≤ r'.clock) (hk : KeepsTime r r'.dispatchers)
    (hstarted : ∀ n, (r.dispatchers i).pc.startedAt = some n → n ≤ r.clock) :
    (r.dispatchers i).pc.startedAt.getD r.clock ≤ (r'.dispatchers i).pc.startedAt.getD r'.clock := by
  have hold : (r.dispatchers i).pc.startedAt.getD r.clock ≤ r.clock := by
    cases hs : (r.dispatchers i).pc.startedAt with
    | none => exact le_rfl
    | some n => exact hstarted n hs
  cases hs : (r'.dispatchers i).pc.startedAt with
  | none => exact hold.trans hclock
  | some n =>
    rcases hk i n hs with hn | rfl
    · rw [hn]
      exact le_rfl
    · exact hold

end Settings

structure Silenced (A : Aio KP) (i : ι) (K : Meta) (r : Router KP ι) : Prop where
  lt : K.appAck < (r.clients i).nextObj
  core : ∀ {m}, (r.clients i).Held m → m.appAck = K.appAck → m.core = K.core
  silent : Spent A r i K ∨
    (r.dispatchers i).ignoreAcked = true ∧ K.appAck ∈ (r.clients i).resolved ∨
    OutOfReach (r.clients i) (r.dispatchers i).pc K.appAck

theorem Silenced.not_published (h : Silenced A i K r) (draw : ℚ) :
    r.published A i draw ≠ some K.appAck := by
  intro hp
  obtain ⟨now, g, s, m, g', c', hpc, hnext, hack, hpub⟩ := of_published hp
  have hm : s ∈ g.seqNos ∧
      ((r.clients i).queueObject g.msgType g.queueIdHex g.ident).get? s = some m := by
    unfold Gen.next at hnext
    split at hnext
    · rename_i hseq
      split at hnext
      · cases hnext
      · rename_i hget
        cases hnext
        exact ⟨by rw [hseq]; exact List.mem_cons_self .., hget⟩
    · split at hnext
      · split at hnext <;> cases hnext
      · split at hnext <;> cases hnext
  have hcore := h.core (held_of_queueObject hm.2) hack
  rcases republishMeta_cases hpub with ⟨-, -, he⟩ | ⟨hd, hok, -⟩ | ⟨-, e, c'', he⟩
  · cases he
  · rcases h.silent with (⟨why, hf⟩ | hold | hna) | ⟨hig, hres⟩ | hout
    · rw [hpc] at hf
      cases hf
    · rw [hpc] at hold
      have hyoung := hd.young
      have hcreated : m.created = K.created := (congrArg Meta.created hcore :)
      simp only [DispatchPc.startedAt, Option.getD_some] at hold
      rw [hcreated] at hyoung
      exact absurd hyoung (not_lt.mpr hold)
    · have hascii := (hok.publication hd).1
      rw [Meta.destPkHex_eq_of_core hcore, hna] at hascii
      cases hascii
    · have hw := hd.wanted
      rw [hig, Bool.true_and, done, hack, decide_eq_false_iff_not] at hw
      exact hw hres
    · exact hout.ahead (by rw [hpc]; rfl) s hm.1 m hm.2 hack
  · cases he

theorem Spent.moved (h : Spent A r i K) (hclock : r.clock ≤ r'.clock)
    (hk : KeepsTime r r'.dispatchers)
    (hstarted : ∀ n, (r.dispatchers i).pc.startedAt = some n → n ≤ r.clock)
    (hset : (r'.dispatchers i).settings = (r.dispatchers i).settings)
    (hpc : ∀ why, (r.dispatchers i).pc = .finished why →
      ∃ why, (r'.dispatchers i).pc = .finished why) : Spent A r' i K := by
  rcases h with ⟨why, hf⟩ | hold | hna
  · exact .inl (hpc why hf)
  · right
    left
    have hdur : (r'.dispatchers i).republishDuration = (r.dispatchers i).republishDuration :=
      congrArg (fun x : ℚ × PyNum × ℚ × Bool => x.1) hset
    have hmono := since_mono hclock hk hstarted
    rw [hdur]
    linarith
  · exact .inr (.inr hna)

theorem Silenced.moved {P : Write → Prop} (h : Silenced A i K r)
    (hw : Writes A P (r.clients i) (r'.clients i)) (hclock : r.clock ≤ r'.clock)
    (hk : KeepsTime r r'.dispatchers)
    (hstarted : ∀ n, (r.dispatchers i).pc.startedAt = some n → n ≤ r.clock)
    (hset : (r'.dispatchers i).settings = (r.dispatchers i).settings)
    (hpc : (r'.dispatchers i).pc = (r.dispatchers i).pc ∨
      (∃ why, (r'.dispatchers i).pc = .finished why) ∨
      ∃ draw, Stride A r i draw (r'.dispatchers i).pc) : Silenced A i K r' := by
  refine ⟨h.lt.trans_le hw.grows.nextObj_le, ?_, ?_⟩
  · intro m hm ha
    rcases hw.held_cases hm with ⟨m₀, hm₀, hc⟩ | hn
    · rw [hc]
      exact h.core hm₀ ((Meta.appAck_eq_of_core hc).symm.trans ha)
    · have := h.lt
      omega
  · rcases h.silent with hsp | ⟨hig, hres⟩ | hout
    · left
      refine hsp.moved hclock hk hstarted hset fun why hf => ?_
      rcases hpc with hpc | hpc | ⟨draw, hst⟩
      · exact ⟨why, hpc.trans hf⟩
      · exact hpc
      · exact absurd hf (hst.not_finished why)
    · have hig' : (r'.dispatchers i).ignoreAcked = (r.dispatchers i).ignoreAcked :=
        congrArg (fun x : ℚ × PyNum × ℚ × Bool => x.2.2.2) hset
      exact .inr (.inl ⟨hig'.trans hig, hw.grows.resolved hres⟩)
    · right
      right
      apply OutOfReach.writes _ hw h.lt
      rcases hpc with hpc | ⟨why, hpc⟩ | ⟨draw, hst⟩
      · rw [hpc]
        exact hout
      · rw [hpc]
        exact ⟨hout.entry, fun hg => by cases hg⟩
      · exact hout.stride hst

theorem silenced_of_dequeue [DecidableEq ι] (hs : Sound A r) (hp : Placed (r.clients i))
    (hd : Dequeues r a i K) (hsil : Silences A r a) (h : r.step A a = some r') :
    Silenced A i K r' := by
  have hact := act_of_step h
  obtain ⟨q, s, hK, ha⟩ := hd
  have hheld : (r.clients i).Held K := .inl ⟨.msg, q, s, hK⟩
  -- what changes is client `i`, by a dequeue
  have common : ∀ {c' : MQTTClient KP}, Writes A (fun _ => True) (r.clients i) c' →
      r' = r.setClient i c' →
      (Spent A r i K ∨ (r.dispatchers i).ignoreAcked = true ∧ K.appAck ∈ c'.resolved ∨
        OutOfReach c' (r.dispatchers i).pc K.appAck) → Silenced A i K r' := by
    rintro c' hw rfl hsilent
    have hc : (r.setClient i c').clients i = c' := Function.update_self ..
    refine ⟨?_, ?_, ?_⟩
    · rw [hc]
      exact (hp.lt hheld).trans_le hw.grows.nextObj_le
    · intro m hm hack
      rw [hc] at hm
      rcases hw.held_cases hm with ⟨m₀, hm₀, hcore⟩ | hn
      · rw [hcore]
        exact hp.core hm₀ hheld ((Meta.appAck_eq_of_core hcore).symm.trans hack)
      · have := hp.lt hheld
        omega
    · rw [hc]
      exact hsilent
  have hwrites : ∀ seqNo, Writes A (fun _ => True) (r.clients i)
      ((r.clients i).dequeueMsg q seqNo .msg) :=
    fun seqNo => writes_dequeueMsg (fun _ => trivial) fun _ _ _ _ => trivial
  rcases ha with rfl | rfl
  · cases hact
    refine common (hwrites none) rfl ?_
    cases hq : (r.clients i).queue .msg q with
    | none => simp [entry, hq] at hK
    | some d =>
      have hget : d.metas.get? s = some K := (entry_of_queue hq s).symm.trans hK
      have hc : (r.clients i).dequeueMsg q none .msg = (r.clients i).unlinkQueue .msg q d := by
        unfold MQTTClient.dequeueMsg
        rw [hq]
      rw [hc]
      rcases hsil d s K hq hget with hahead | ⟨hig, hdone⟩ | hsp
      · right
        right
        have hentry : ∀ {t' q' s' m}, ((r.clients i).unlinkQueue .msg q d).entry t' q' s' = some m →
            m.appAck ≠ K.appAck := by
          intro t' q' s' m hm hack
          rw [entry_unlinkQueue] at hm
          split_ifs at hm with hkey
          obtain ⟨h₁, h₂, -⟩ := (hs.tracked i).place_unique hm hK hack
          exact hkey ⟨h₁, h₂⟩
        refine ⟨hentry, fun {g} hg s' hs' m hm hack => ?_⟩
        rcases queueObject_get?_iff.mp hm with ⟨e, he, -, hse⟩ | ⟨-, e, he, hse⟩
        · exact hentry ((entry_of_queue he s').trans hse) hack
        · change ((r.clients i).unlinked.set d.ident d.metas).get? g.ident = some e at he
          rw [PyDict.get?_set] at he
          split_ifs at he with hid
          · cases he
            obtain ⟨-, -, rfl⟩ := (hs.tracked i).place_unique ((entry_of_queue hq s').trans hse) hK hack
            exact hahead g hg hid hs'
          · exact hp.apart hK ⟨e, he, hse⟩ hack.symm
      · exact .inr (.inl ⟨hig, of_decide_eq_true hdone⟩)
      · exact .inl hsp
  · cases hact
    refine common (hwrites (some s)) rfl ?_
    rcases hsil K hK with hig | hsp
    · right
      left
      refine ⟨hig, ?_⟩
      cases hq : (r.clients i).queue .msg q with
      | none => simp [entry, hq] at hK
      | some d =>
        have hget : d.metas.get? s = some K := (entry_of_queue hq s).symm.trans hK
        simp only [MQTTClient.dequeueMsg, hq, hget]
        split_ifs with hdone
        · exact of_decide_eq_true hdone
        · exact List.mem_cons_self ..
    · exact .inl hsp

end Router

namespace Host

open Exec MQTTClient

variable {KP ι : Type} [DecidableEq ι] {A : Aio KP} {h h' : Host KP ι} {a : HostAction ι} {i : ι}
  {K : Meta}

structure Orderly (A : Aio KP) (h : Host KP ι) : Prop where
  sound : Sound A h
  placed : ∀ i, Placed (h.router.clients i)
  started : ∀ i n, (h.router.dispatchers i).pc.startedAt = some n → n ≤ h.router.clock

theorem step_router (hstep : step A h a = some h') :
    (∃ b, a = .act b ∧ h.router.step A b = some h'.router) ∨
      h'.router.dispatchers = h.router.dispatchers ∧ h'.router.clock = h.router.clock := by
  cases a with
  | act b =>
    obtain ⟨r, hr, rfl⟩ := Option.map_eq_some_iff.mp hstep
    exact .inl ⟨b, rfl, hr⟩
  | queueMsgAsync =>
    simp only [step] at hstep
    split at hstep
    · cases hstep
    · split at hstep <;> cases hstep <;> exact .inr ⟨rfl, rfl⟩
  | signed =>
    simp only [step] at hstep
    split at hstep
    · cases hstep
      rw [Router.call_eq]
      exact .inr ⟨rfl, rfl⟩
    · cases hstep

theorem step_time (hA : A.Lawful) (hstep : step A h a = some h') :
    h.router.clock ≤ h'.router.clock ∧ Router.KeepsTime h.router h'.router.dispatchers := by
  rcases step_router hstep with ⟨b, -, hr⟩ | ⟨hd, hc⟩
  · exact Router.step_time hA hr
  · rw [hd, hc]
    exact ⟨le_rfl, Router.keepsTime_self _⟩

omit [DecidableEq ι] in
theorem Orderly.of_fresh (hf : Router.Fresh h.router) (hc : h.calls = []) : Orderly A h := by
  refine ⟨.of_fresh hf hc, fun i => ?_, fun i n hn => ?_⟩
  · have hnone : ∀ m, ¬ (h.router.clients i).Held m := by
      rintro m (⟨t, q, s, hm⟩ | ⟨n, s, d, hd, -⟩)
      · simp [entry, queue, hf.msgQueues] at hm
      · simp [hf.unlinked] at hd
    exact ⟨fun hm => absurd hm (hnone _), fun hm => absurd hm (hnone _),
      fun hm => absurd (.inl ⟨_, _, _, hm⟩) (hnone _)⟩
  · rw [hf.dispatchers] at hn
    cases hn

theorem Orderly.step (hA : A.Lawful) (hs : Orderly A h) (hstep : step A h a = some h') :
    Orderly A h' := by
  obtain ⟨hsound, hw⟩ := step_sound_writes hA hs.sound hstep
  obtain ⟨hclock, hk⟩ := step_time hA hstep
  refine ⟨hsound, fun i => ?_, fun i n hn => ?_⟩
  · exact (hw i).placed (hs.sound.router.tracked i) (hs.placed i)
  · rcases hk i n hn with hn | rfl
    · exact (hs.started i n hn).trans hclock
    · exact hclock

theorem silenced_step (hA : A.Lawful) (hs : Orderly A h) (hK : Router.Silenced A i K h.router)
    (hstep : step A h a = some h') : Router.Silenced A i K h'.router := by
  obtain ⟨-, hw⟩ := step_sound_writes hA hs.sound hstep
  obtain ⟨hclock, hk⟩ := step_time hA hstep
  refine hK.moved (hw i) hclock hk (hs.started i) ?_ ?_
  · rcases step_router hstep with ⟨b, -, hr⟩ | ⟨hd, -⟩
    · exact Router.step_settings hr i
    · rw [hd]
  · rcases step_router hstep with ⟨b, -, hr⟩ | ⟨hd, -⟩
    · exact Router.step_stride hr i
    · rw [hd]
      exact .inl rfl

/-- A message taken back under the condition is not published again, by any step of any run that
follows. -/
theorem dequeue_stops_publication (hA : A.Lawful) {h₀ h₁ h₂ : Host KP ι}
    {as bs : List (HostAction ι)} {a : Action ι} (hf : Router.Fresh h₀.router) (hc : h₀.calls = [])
    (hbefore : Machine.run (step A) h₀ as = some h₁) (hd : Router.Dequeues h₁.router a i K)
    (hsil : Router.Silences A h₁.router a)
    (hafter : Machine.run (step A) h₁ (.act a :: bs) = some h₂) (draw : ℚ) :
    h₂.router.published A i draw ≠ some K.appAck := by
  have hs : Orderly A h₁ :=
    Machine.run_preserves (fun _ _ _ hs hstep => hs.step hA hstep) (.of_fresh hf hc) hbefore
  obtain ⟨h', hstep, hrest⟩ := Machine.run_cons_eq_some.mp hafter
  obtain ⟨r, hr, rfl⟩ := Option.map_eq_some_iff.mp hstep
  have hK := Router.silenced_of_dequeue hs.sound.router (hs.placed i) hd hsil hr
  have hrun := Machine.run_preserves (I := fun h => Orderly A h ∧ Router.Silenced A i K h.router)
    (fun _ _ _ h hstep => ⟨h.1.step hA hstep, silenced_step hA h.1 h.2 hstep⟩)
    ⟨hs.step hA hstep, hK⟩ hrest
  exact hrun.2.not_published draw

open Concrete Router

def queuedOne : List (HostAction Unit) :=
  [.act (.queueMsg () 0 (.str "hello") (concrete.pkHex 3) (queueId 'a') .msg none)]

def toFirst : List (HostAction Unit) :=
  List.replicate 3 (.act (.dispatch () 0))

theorem dequeue_stops_publication_queue :
    ∃ h₁ h₂ K, Machine.run (step concrete) ⟨connected 1 .empty 100, []⟩ queuedOne = some h₁ ∧
      Dequeues h₁.router (.dequeueMsg () (queueId 'a') none .msg) () K ∧
      Machine.run (step concrete) h₁
        (.act (.dequeueMsg () (queueId 'a') none .msg) :: toFirst) = some h₂ ∧
      h₂.router.published concrete () 0 ≠ some K.appAck := by
  obtain ⟨h₁, hrun, hd⟩ := Machine.exists_run_of_any (step concrete) ⟨connected 1 .empty 100, []⟩
    queuedOne (fun h => ((h.router.clients ()).entry .msg (queueId 'a') 0).isSome &&
      decide ((h.router.dispatchers ()).pc = .reconnecting) &&
      (Machine.run (step concrete) h (.act (.dequeueMsg () (queueId 'a') none .msg) ::
        toFirst)).isSome) (by decide +kernel)
  simp only [Bool.and_eq_true, Option.isSome_iff_exists, decide_eq_true_eq] at hd
  obtain ⟨⟨⟨K, hK⟩, hpc⟩, h₂, hafter⟩ := hd
  have hdeq : Dequeues h₁.router (.dequeueMsg () (queueId 'a') none .msg) () K :=
    ⟨_, 0, hK, .inl rfl⟩
  have hsil : Silences concrete h₁.router (.dequeueMsg () (queueId 'a') none .msg) := by
    intro d s m hq hm
    left
    intro g hg
    rw [hpc] at hg
    cases hg
  exact ⟨h₁, h₂, K, hrun, hdeq, hafter, dequeue_stops_publication concrete_lawful
    (fresh_connected 1 .empty (by norm_num) (by decide +kernel)) rfl hrun hdeq hsil hafter 0⟩

/-- With the default settings, a message taken back by its number is published all the same. -/
theorem published_after_dequeue :
    ∃ h₁ h₂ K, Machine.run (step concrete) ⟨connected 1 .empty 100, []⟩ queuedOne = some h₁ ∧
      Dequeues h₁.router (.dequeueMsg () (queueId 'a') (some 0) .msg) () K ∧
      Machine.run (step concrete) h₁
        (.act (.dequeueMsg () (queueId 'a') (some 0) .msg) :: toFirst) = some h₂ ∧
      h₂.router.published concrete () 0 = some K.appAck := by
  obtain ⟨h₁, hrun, hd⟩ := Machine.exists_run_of_any (step concrete) ⟨connected 1 .empty 100, []⟩
    queuedOne (fun h => ((h.router.clients ()).entry .msg (queueId 'a') 0).any fun K =>
      (Machine.run (step concrete) h (.act (.dequeueMsg () (queueId 'a') (some 0) .msg) ::
        toFirst)).any fun h₂ : Host ℕ Unit =>
          decide (h₂.router.published concrete () 0 = some K.appAck)) (by decide +kernel)
  rw [Option.any_eq_true] at hd
  obtain ⟨K, hK, hd⟩ := hd
  rw [Option.any_eq_true] at hd
  obtain ⟨h₂, hafter, hpub⟩ := hd
  exact ⟨h₁, h₂, K, hrun, ⟨_, 0, hK, .inr rfl⟩, hafter, of_decide_eq_true hpub⟩

end Host

end Sidewire
