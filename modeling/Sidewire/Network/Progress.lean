import Sidewire.Lib.Reach
import Sidewire.Mqtt.Addresses
import Sidewire.Network.StopAndWait
import Sidewire.Router.Answer

/-! # Stop and wait can always go on

Whatever was lost, repeated or reordered before, once a message of the stream has
been published, the two parties can get it delivered and acknowledged: a copy
makes the receiver register its ack, another one has the ack published, and the
ack resolves the message it is for.
-/

namespace Sidewire

namespace Net

open MQTTClient Router

variable {P KP ι : Type} {A : Aio KP} {n n' : Net P KP ι} {p S R : P} {i j : ι} {q : String} {h : ℕ}
  {a : Action ι} {x : Queued} {pkt : AppPacket} {payload : Bytes}

structure Answerable (A : Aio KP) (S R : P) (i : ι) (q : String) (h : ℕ) (n : Net P KP ι) : Prop where
  streaming : Streaming A S R i q h n
  acks : ∀ j, ∀ y ∈ ((n R).clients j).queued, y.msgType = .msgack →
    A.hToB y.queueIdHex = A.hToB q → y.msg = .str "ack"
  clock_nonneg : 0 ≤ (n R).clock
  clock_lt : pyInt (n R).clock < 256 ^ timestampLen

theorem Advances.mem_stream (h : Advances A n n') (hx : x ∈ ((n S).clients i).stream q) :
    x ∈ ((n' S).clients i).stream q := by
  obtain ⟨hq, ht⟩ := MQTTClient.mem_stream.mp hx
  exact MQTTClient.mem_stream.mpr ⟨(h.grows S i).queued.subset hq, ht⟩

/-- The queue id is spelled as `to_h` spells its bytes. -/
def Spelled (A : Aio KP) (q : String) : Prop := ∀ b, A.hToB q = .ok b → A.toH b = q

theorem Spelled.queueIdHex_eq (hq : Spelled A q) (hA : A.Lawful)
    (hp : AppPacket.unpack A payload = .ok (some pkt)) (he : A.hToB pkt.queueIdHex = A.hToB q) :
    pkt.queueIdHex = q := by
  have hs := (AppPacket.unpack_spec hp).queueIdHex
  rw [hs, hA.hToB_toH] at he
  rw [hs, hq _ he.symm]

theorem unpack_out (hA : A.Lawful) {c : MQTTClient KP} (hc : Tracked A c) (hx : x ∈ c.queued)
    (text : String) (htext : A.toS (A.toB x.msg) = .ok text) :
    ∃ pkt, AppPacket.unpack A x.out = .ok (some pkt) ∧ pkt.srcPkHex = A.pkHex c.kp ∧
      A.hToB pkt.queueIdHex = A.hToB x.queueIdHex ∧ pkt.seqNo = x.seqNo ∧
      pkt.msgType = x.msgType.value ∧ pkt.msg = text := by
  obtain ⟨now, signed, rnd, hsig, hout⟩ := hc.packed x hx
  rw [hout]
  obtain ⟨e, he, -⟩ | ⟨pkt, hp, -⟩ := hsig.unpack hA c.kp rnd
  · rw [htext] at he
    cases he
  · obtain ⟨h₁, h₂, h₃, -, h₄, h₅⟩ := AppPacket.unpack_assemble hA hsig hp
    rw [htext, Except.ok.injEq] at h₅
    exact ⟨pkt, hp, h₁, h₂, h₃, h₄, h₅.symm⟩

theorem Streaming.entry (hs : Streaming A S R i q h n) (hx : x ∈ ((n S).clients i).stream q) :
    ∃ m, ((n S).clients i).entry .msg q x.seqNo = some m ∧ m.appAck = x.appAck ∧
      m.destPkHex = x.destPkHex := by
  obtain ⟨k, hk⟩ := List.mem_iff_getElem?.mp hx
  have hseq := hs.numbered.seqNo k x hk
  have hlt := (List.getElem?_eq_some_iff.mp hk).1
  obtain ⟨m, hm⟩ := Option.isSome_iff_exists.mp ((hs.numbered.entries x.seqNo).mpr (by omega))
  obtain ⟨msg, hmem⟩ := ((hs.ackSound.traced.sound S).tracked i).entry hm
  obtain ⟨l, hl⟩ := List.mem_iff_getElem?.mp
    (MQTTClient.mem_stream.mpr ⟨hmem, rfl, rfl⟩ : _ ∈ ((n S).clients i).stream q)
  have hseq' := hs.numbered.seqNo l _ hl
  simp only [Queued.of] at hseq'
  obtain rfl : l = k := by omega
  rw [hk, Option.some_inj] at hl
  refine ⟨m, hm, ?_, ?_⟩ <;>
  · rw [hl]
    rfl

theorem Streaming.ack_dest (hA : A.Lawful) (hs : Streaming A S R i q h n) {s : ℤ} {m : Meta}
    (hm : ((n R).clients j).entry .msgack q s = some m) : m.destPkHex = A.pkHex (n S).kp := by
  obtain ⟨msg, hy⟩ := ((hs.ackSound.traced.sound R).tracked j).entry hm
  obtain ⟨pkt, hans⟩ := hs.ackSound.backed.acks j _ hy rfl rfl
  obtain ⟨t, ht, hp, -⟩ := hans.received
  have hqid : A.hToB pkt.queueIdHex = A.hToB q := by rw [← hans.queueIdHex]; rfl
  have hdest : m.destPkHex = pkt.srcPkHex := hans.destPkHex
  obtain ⟨hty, -⟩ | hty := hans.reason
  · obtain ⟨hown, -⟩ := hs.of_queueId hA ht hp hty hqid
    exact hdest.trans (Eq.symm hown)
  · -- a probe under the queue id is nobody's
    obtain ⟨p, k, -, y, hyq, hc⟩ := hs.carried hA ht hp
    have hprobe : y.msgType = .probe := MsgEnum.value_injective (hc.msgType.trans hty)
    obtain hack | ⟨rfl, rfl, hst⟩ := hs.only p k y hyq (hc.queueIdHex.trans hqid)
    · rw [hprobe] at hack
      cases hack
    · exact absurd (MQTTClient.mem_stream.mp hst).2.1 (by rw [hprobe]; decide)

variable [DecidableEq P] [DecidableEq ι]

omit [DecidableEq P] in
theorem waiting_resume (hA : A.Lawful) (hs : ∀ p, Sound A (n p)) (p : P) (k : ℕ)
    (res : Except PyExc ℕ) : Waiting A S R i q n (p, .resume k res) where
  relayed y hy := by cases hy
  own z hz := by cases hz
  contents z hz := by cases hz
  texts z hz := by cases hz
  probes q' hq' := by cases hq'
  dequeued _ z hz := by cases hz
  handlers _ := rfl
  stamps hR r' hr' id hid := by
    rw [← PyDict.contains_iff] at hid
    have hM := step_spec hA hr'
    cases hM with
    | client => exact hid
    | turn hk hT =>
      obtain hrecv | ⟨pkt, -, -, -, hrecv⟩ := hT.recv_cases ((hs R).holds _ (List.mem_of_getElem? hk))
      · simp only [afterTurn, hrecv]
        exact hid
      · simp only [afterTurn, hrecv, PyDict.contains_set, Bool.or_eq_true]
        exact .inr hid

omit [DecidableEq P] in
theorem waiting_recv {topic : String} (withId : Bool)
    (hz : ∃ p' k, ∃ z ∈ ((n p').clients k).sent, z.topic = topic ∧ z.payload = payload) (p : P)
    (j : ι) : Waiting A S R i q n (p, .recv j topic payload withId) where
  relayed y hy := by cases hy; exact hz
  own z hz := by cases hz
  contents z hz := by cases hz
  texts z hz := by cases hz
  probes q' hq' := by cases hq'
  dequeued _ z hz := by cases hz
  handlers _ := rfl
  stamps hR r' hr' id hid := by
    rw [← PyDict.contains_iff] at hid
    have hact := act_of_step hr'
    cases hact
    exact hid

theorem Answerable.step (hA : A.Lawful) (hs : Answerable A S R i q h n)
    (hw : Waiting A S R i q n (p, a)) (hstep : step A n (p, a) = some n') :
    Answerable A S R i q h n' := by
  have hs' := hs.streaming.step hA hw hstep
  have hsound := hs.streaming.ackSound.traced.sound p
  obtain ⟨r', hr, rfl⟩ := step_eq_some hstep
  have hclock : 0 ≤ (Function.update n p r' R).clock ∧
      pyInt (Function.update n p r' R).clock < 256 ^ timestampLen := by
    by_cases hR : R = p
    · subst hR
      rw [Function.update_self]
      cases step_spec hA hr with
      | tick hle hlt => exact ⟨hs.clock_nonneg.trans hle, hlt⟩
      | recv | turn | client | prune => exact ⟨hs.clock_nonneg, hs.clock_lt⟩
    · rw [Function.update_of_ne hR]
      exact ⟨hs.clock_nonneg, hs.clock_lt⟩
  refine ⟨hs', fun j y hy hty hq => ?_, hclock.1, hclock.2⟩
  obtain hold | ⟨rfl, hc⟩ := queued_step hA hsound hr hy
  · exact hs.acks j y hold hty hq
  · cases hc with
    | queued =>
      obtain ⟨-, -, -, hmsg, -⟩ := hw.own _ rfl hq
      simp only at hmsg hty
      rw [hmsg] at hty
      cases hty
    | probed => cases hty
    | acked => rfl
    | probeAcked => rfl

/-- The net can get from one state to the other while the sender waits. -/
abbrev Leads (A : Aio KP) (S R : P) (i : ι) (q : String) : Net P KP ι → Net P KP ι → Prop :=
  Machine.Reaches (step A) (Waiting A S R i q)

theorem Leads.keeps (hA : A.Lawful) (hs : Answerable A S R i q h n) (hl : Leads A S R i q n n') :
    Answerable A S R i q h n' ∧ Advances A n n' := by
  refine Machine.Reaches.invariant (I := fun n' => Answerable A S R i q h n' ∧ Advances A n n') ?_
    ⟨hs, .refl n⟩ hl
  rintro n₁ ⟨p, a⟩ n₂ ⟨hs₁, hadv⟩ hw hstep
  exact ⟨hs₁.step hA hw hstep, hadv.trans (hs₁.streaming.ackSound.traced.advances hA hstep)⟩

theorem run_of_router {r : Router KP ι} {as : List (Action ι)}
    (h : Machine.run (Router.step A) (n p) as = some r) :
    Machine.run (step A) n (as.map (p, ·)) = some (Function.update n p r) := by
  induction as generalizing n with
  | nil =>
    cases h
    rw [Function.update_eq_self]
    rfl
  | cons a as ih =>
    obtain ⟨r₁, hr₁, h⟩ := Machine.run_cons_eq_some.mp h
    have hn : Machine.run (Router.step A) (Function.update n p r₁ p) as = some r := by
      rwa [Function.update_self]
    have hrest := ih hn
    rw [Function.update_idem] at hrest
    refine Machine.run_cons_eq_some.mpr ⟨Function.update n p r₁, ?_, hrest⟩
    exact Option.map_eq_some_iff.mpr ⟨r₁, hr₁, rfl⟩

theorem leads_resumes (hA : A.Lawful) (hs : ∀ p, Sound A (n p)) {r : Router KP ι} {m k : ℕ}
    (h : Machine.run (Router.step A) (n p) (List.replicate m (.resume k (.ok 0))) = some r) :
    Leads A S R i q n (Function.update n p r) := by
  refine Machine.Reaches.of_run (I := fun n => ∀ p, Sound A (n p))
    (Q := fun _ x => ∃ k res, x.2 = .resume k res) ?_ ?_ hs ?_ (run_of_router h)
  · rintro n ⟨p, a⟩ n' hs - hstep p'
    obtain ⟨r', hr, rfl⟩ := step_eq_some hstep
    by_cases hp : p' = p
    · subst hp
      rw [Function.update_self]
      exact step_sound hA (hs p') hr
    · rw [Function.update_of_ne hp]
      exact hs p'
  · rintro n ⟨p, a⟩ hs ⟨k, res, rfl⟩
    exact waiting_resume hA hs p k res
  · refine Machine.meets_of_mem (fun x hx n => ?_) n
    obtain ⟨a, ha, rfl⟩ := List.mem_map.mp hx
    exact ⟨k, .ok 0, List.eq_of_mem_replicate ha⟩

theorem leads_resume (hA : A.Lawful) (hs : ∀ p, Sound A (n p)) {r : Router KP ι} {k : ℕ}
    (res : Except PyExc ℕ) (h : Router.step A (n p) (.resume k res) = some r) :
    Leads A S R i q n (Function.update n p r) :=
  .single (waiting_resume hA hs p k res) (Option.map_eq_some_iff.mpr ⟨r, h, rfl⟩)

def withCopy (A : Aio KP) (r : Router KP ι) (j : ι) (payload : Bytes) : Router KP ι :=
  { r with tasks := r.tasks ++ [⟨j, A.pkHex r.kp, payload, .verifying⟩] }

theorem leads_recv (hA : A.Lawful) (hs : ∀ p, Sound A (n p)) (hrun : (n p).running = none)
    (hz : ∃ p' k, ∃ z ∈ ((n p').clients k).sent, z.topic = A.pkHex (n p).kp ∧ z.payload = payload)
    (j : ι) : Leads A S R i q n (Function.update n p (withCopy A (n p) j payload)) :=
  .single (waiting_recv false hz p j)
    (Option.map_eq_some_iff.mpr ⟨_, step_recv hA (hs p) hrun j payload, rfl⟩)

omit [DecidableEq P] [DecidableEq ι] in
theorem getElem?_withCopy (r : Router KP ι) (j : ι) (payload : Bytes) :
    (withCopy A r j payload).tasks[r.tasks.length]? =
      some ⟨j, A.pkHex r.kp, payload, .verifying⟩ := by
  simp [withCopy]

/-- A copy of a message is on its way to the receiver, which has a client to read it. -/
structure Copy (A : Aio KP) (R : P) (j : ι) (payload : Bytes) (pkt : AppPacket) (n : Net P KP ι) :
    Prop where
  sent : ∃ p k, ∃ z ∈ ((n p).clients k).sent, z.topic = A.pkHex (n R).kp ∧ z.payload = payload
  unpacked : AppPacket.unpack A payload = .ok (some pkt)
  msgType : pkt.msgType = MsgEnum.msg.value
  fresh : ((n R).clients j).tooOld (n R).clock pkt = false

omit [DecidableEq P] [DecidableEq ι] in
theorem Copy.advances (hc : Copy A R j payload pkt n) (hadv : Advances A n n')
    (hclock : (n' R).clock = (n R).clock) : Copy A R j payload pkt n' := by
  obtain ⟨p, k, z, hz, ht, hp⟩ := hc.sent
  refine ⟨⟨p, k, z, (hadv.grows p k).sent.subset hz, by rw [hadv.kp]; exact ht, hp⟩, hc.unpacked,
    hc.msgType, ?_⟩
  have := hc.fresh
  unfold tooOld at this ⊢
  rwa [(hadv.grows R j).republishDuration, hclock]

theorem Answerable.leads_to_entry (hA : A.Lawful) (hs : Answerable A S R i q h n)
    (hc : Copy A R j payload pkt n) (hrun : (n R).running = none) :
    ∃ r, Leads A S R i q n (Function.update n R r) ∧
      ((r.clients j).entry .msgack pkt.queueIdHex pkt.seqNo).isSome ∧
      SameLink ((n R).clients j) (r.clients j) ∧ r.running = none ∧ r.clock = (n R).clock := by
  have hsound := hs.streaming.ackSound.traced.sound
  have hrecv := leads_recv (S := S) (R := R) (i := i) (q := q) hA hsound hrun hc.sent j
  obtain ⟨m, w, hw, he, hl, hrun', hclock⟩ := GetsAck.of_recv (r := withCopy A (n R) j payload) hA
    hrun (getElem?_withCopy (n R) j payload) rfl hc.unpacked hc.msgType hc.fresh hs.clock_nonneg
    hs.clock_lt
  refine ⟨w, ?_, he, hl j, hrun'.trans hrun, hclock⟩
  have hs' := (Leads.keeps hA hs hrecv).1.streaming.ackSound.traced.sound
  have hturns := leads_resumes (S := S) (R := R) (i := i) (q := q) (p := R) hA hs' (r := w) (m := m)
    (k := (n R).tasks.length) (by rwa [Function.update_self])
  rw [Function.update_idem] at hturns
  exact hrecv.trans hturns

theorem Answerable.leads_to_ack (hA : A.Lawful) (hs : Answerable A S R i q h n)
    (hc : Copy A R j payload pkt n) (hq : pkt.queueIdHex = q) (hrun : (n R).running = none)
    (hpipe : ((n R).clients j).pipe ≠ none) (hfree : FreeId ((n R).clients j)) :
    ∃ r, Leads A S R i q n (Function.update n R r) ∧ r.running = none ∧
      ∃ y ∈ (r.clients j).queued, y.msgType = .msgack ∧ y.queueIdHex = q ∧ y.seqNo = pkt.seqNo ∧
        y.msg = .str "ack" ∧
        ∃ z ∈ (r.clients j).sent, z.topic = A.pkHex (n S).kp ∧ z.payload = y.out := by
  obtain ⟨r₁, hl₁, he, hlink, hrun₁, hclock₁⟩ := hs.leads_to_entry hA hc hrun
  obtain ⟨hs₁, hadv₁⟩ := Leads.keeps hA hs hl₁
  have hself : Function.update n R r₁ R = r₁ := Function.update_self ..
  have hc₁ := hc.advances hadv₁ (by rw [hself, hclock₁])
  have hsound₁ := hs₁.streaming.ackSound.traced.sound
  obtain ⟨m, hm⟩ := Option.isSome_iff_exists.mp he
  rw [hq] at hm
  -- the ack is addressed to the sender
  have hdest := hs₁.streaming.ack_dest (j := j) (s := pkt.seqNo) (m := m) hA (by rw [hself]; exact hm)
  rw [hadv₁.kp] at hdest
  have hl₂ := leads_recv (S := S) (R := R) (i := i) (q := q) hA hsound₁ (by rw [hself, hrun₁])
    hc₁.sent j
  have hs₂ := (Leads.keeps hA hs₁ hl₂).1.streaming.ackSound.traced.sound
  rw [hself, Function.update_idem] at hl₂ hs₂
  obtain ⟨r₃, hr₃, hrun₃, z, hz, htop, hpay⟩ := step_again (A := A)
    (r := withCopy A r₁ j payload) (m := m) 0 hrun₁ (getElem?_withCopy r₁ j payload) rfl hc.unpacked
    hc.msgType (by have := hc₁.fresh; rwa [hself] at this) (by rw [hq]; exact hm)
    (by rw [hdest]; exact hA.isAscii_toH _) (fun hp => hpipe (hlink.pipe.symm.trans hp))
    (hlink.freeId hfree)
  have hl₃ := leads_resume (S := S) (R := R) (i := i) (q := q) (p := R) hA hs₂ (r := r₃)
    (k := r₁.tasks.length) (.ok 0) (by rwa [Function.update_self])
  rw [Function.update_idem] at hl₃
  have hl := hl₁.trans (hl₂.trans hl₃)
  obtain ⟨msg, hy⟩ := ((hsound₁ R).tracked j).entry (by rw [hself]; exact hm)
  have hmsg := hs₁.acks j _ hy rfl rfl
  have hy' := ((Leads.keeps hA hs₁ (hl₂.trans hl₃)).2.grows R j).queued.subset hy
  rw [Function.update_self] at hy'
  exact ⟨r₃, hl, hrun₃, _, hy', rfl, rfl, rfl, hmsg, z, hz, htop.trans hdest, hpay⟩

theorem Answerable.leads_to_resolved (hA : A.Lawful) (hs : Answerable A S R i q h n)
    (hq : Spelled A q) (hx : x ∈ ((n S).clients i).stream q) (hrun : (n S).running = none) {y : Queued}
    (hy : y ∈ ((n R).clients j).queued) (hty : y.msgType = .msgack) (hyq : y.queueIdHex = q)
    (hys : y.seqNo = x.seqNo) (hmsg : y.msg = .str "ack")
    (hz : ∃ z ∈ ((n R).clients j).sent, z.topic = A.pkHex (n S).kp ∧ z.payload = y.out) :
    ∃ n', Leads A S R i q n n' ∧ x.appAck ∈ ((n' S).clients i).resolved := by
  have hsound := hs.streaming.ackSound.traced.sound
  obtain ⟨ack, hp, hsrc, hqid, hseq, hty', -⟩ := unpack_out hA ((hsound R).tracked j) hy
    "ack" (by rw [hmsg, hA.toS_toB_ack])
  rw [hyq] at hqid
  have hl := leads_recv (S := S) (R := R) (i := i) (q := q) hA hsound hrun ⟨R, j, hz⟩ i
  have hs' := (Leads.keeps hA hs hl).1.streaming.ackSound.traced.sound
  obtain ⟨r, hr, hclient⟩ := step_ack (A := A) (r := withCopy A (n S) i y.out) 0 hrun
    (getElem?_withCopy (n S) i y.out) rfl hp (by rw [hty', hty])
  have hl' := leads_resume (S := S) (R := R) (i := i) (q := q) (p := S) hA hs' (r := r)
    (k := (n S).tasks.length) (.ok 0) (by rwa [Function.update_self])
  rw [Function.update_idem] at hl'
  refine ⟨_, hl.trans hl', ?_⟩
  rw [Function.update_self]
  rw [hclient]
  obtain ⟨m, hm, hack, hdest⟩ := hs.streaming.entry hx
  rw [← hack]
  by_cases hopen : m.appAck ∈ ((n S).clients i).resolved
  · exact mem_resolved_processAppAck.mpr (.inr hopen)
  · refine (resolves_iff ((hsound S).tracked i) hm hopen).mpr ⟨?_, hseq.trans hys, ?_⟩
    · exact hq.queueIdHex_eq hA hp hqid
    · rw [hsrc, hdest, hs.streaming.dest x hx, (hsound R).kp]

omit [DecidableEq P] [DecidableEq ι] in
theorem Answerable.of_fresh (h₀ : ∀ p, Fresh (n p))
    (hkeys : Function.Injective fun p => A.pkHex (n p).kp)
    (hh : ∀ i, ((n R).clients i).msgHandlers.toList = [h]) : Answerable A S R i q h n where
  streaming := .of_fresh h₀ hkeys hh
  acks j y hy := by rw [(h₀ R).queued] at hy; cases hy
  clock_nonneg := (h₀ R).clock_nonneg
  clock_lt := (h₀ R).clock_lt

/-- No run of stop and wait is stuck: from any state that it reaches, a message that was published
can still be delivered and acknowledged, unless every client of the receiver has lost its
connection, is out of packet ids or finds the message too old. -/
theorem stop_and_wait_progress (hA : A.Lawful) {n₀ : Net P KP ι} {as : List (P × Action ι)}
    (h₀ : ∀ p, Fresh (n₀ p)) (hkeys : Function.Injective fun p => A.pkHex (n₀ p).kp)
    (hh : ∀ i, ((n₀ R).clients i).msgHandlers.toList = [h])
    (has : Machine.Meets (Net.step A) (Waiting A S R i q) n₀ as)
    (hrun : Machine.run (Net.step A) n₀ as = some n) (hq : Spelled A q)
    (hx : x ∈ ((n S).clients i).stream q) {text : String} (htext : A.toS (A.toB x.msg) = .ok text)
    (hz : ∃ z ∈ ((n S).clients i).sent, z.topic = x.destPkHex ∧ z.payload = x.out)
    (hS : (n S).running = none) (hR : (n R).running = none) (hpipe : ((n R).clients j).pipe ≠ none)
    (hfree : FreeId ((n R).clients j))
    (hold : ∀ pkt, AppPacket.unpack A x.out = .ok (some pkt) →
      ((n R).clients j).tooOld (n R).clock pkt = false) :
    ∃ bs n', Machine.Meets (Net.step A) (Waiting A S R i q) n bs ∧
      Machine.run (Net.step A) n bs = some n' ∧ x.appAck ∈ ((n' S).clients i).acked ∧
      text ∈ heard A q (n' R) := by
  have hs : Answerable A S R i q h n := Machine.run_invariant
    (fun _ _ _ hs hw hst => hs.step hA hw hst) (.of_fresh h₀ hkeys hh) has hrun
  obtain ⟨hxq, hxt, hxid⟩ := mem_stream.mp hx
  obtain ⟨pkt, hp, -, hqid, hseq, hty, -⟩ := unpack_out hA
    ((hs.streaming.ackSound.traced.sound S).tracked i) hxq text htext
  rw [hxid] at hqid
  have hc : Copy A R j x.out pkt n := by
    obtain ⟨z, hz, htop, hpay⟩ := hz
    exact ⟨⟨S, i, z, hz, htop.trans (hs.streaming.dest x hx), hpay⟩, hp, by rw [hty, hxt],
      hold pkt hp⟩
  obtain ⟨r, hl, hrun', y, hy, hyt, hyq, hys, hmsg, hack⟩ :=
    hs.leads_to_ack hA hc (hq.queueIdHex_eq hA hp hqid) hR hpipe hfree
  obtain ⟨hs', hadv⟩ := Leads.keeps hA hs hl
  have hS' : (Function.update n R r S).running = none := by
    by_cases hSR : S = R
    · subst hSR
      rw [Function.update_self, hrun']
    · rw [Function.update_of_ne hSR, hS]
  obtain ⟨n', hl', hres⟩ := hs'.leads_to_resolved (x := x) (j := j) (y := y) hA hq
    (hadv.mem_stream hx) hS' (by rwa [Function.update_self]) hyt hyq (hys.trans hseq) hmsg
    (by rw [Function.update_self, hadv.kp]; exact hack)
  obtain ⟨hs'', hadv'⟩ := Leads.keeps hA hs' hl'
  have hx' := hadv'.mem_stream (hadv.mem_stream hx)
  obtain ⟨text', ht', htext'⟩ := hs''.streaming.heard_of_acked hA hx' hres
  rw [htext, Except.ok.injEq] at htext'
  obtain ⟨bs, hm, hbs⟩ := hl.trans hl'
  exact ⟨bs, n', hm, hbs, hs''.streaming.resolved x hx' hres, htext' ▸ ht'⟩

open Concrete

def published : List (Bool × Action Unit) :=
  (true, .queueMsg () 0 (.str "one") (concrete.pkHex 2) (queueId 'a') .msg none) ::
    List.replicate 4 (true, .dispatch () 0)

theorem spelled_queueId : Spelled concrete (queueId 'a') := by
  intro b hb
  have he : concrete.hToB (queueId 'a') = .ok (List.replicate 32 170) := by decide +kernel
  rw [he, Except.ok.injEq] at hb
  rw [← hb]
  decide +kernel

theorem stop_and_wait_progress_published : ∃ n x bs n',
    Machine.run (Net.step concrete) pair published = some n ∧
      x ∈ ((n true).clients ()).stream (queueId 'a') ∧
      Machine.run (Net.step concrete) n bs = some n' ∧ x.appAck ∈ ((n' true).clients ()).acked ∧
      "one" ∈ heard concrete (queueId 'a') (n' false) := by
  obtain ⟨n, hn, hm, hd⟩ := Machine.exists_runMeeting_of_any (step concrete)
    (Waiting concrete true false () (queueId 'a')) pair published
    (fun n => decide ((∃ x ∈ ((n true).clients ()).stream (queueId 'a'),
        concrete.toS (concrete.toB x.msg) = .ok "one" ∧
        (∃ z ∈ ((n true).clients ()).sent, z.topic = x.destPkHex ∧ z.payload = x.out) ∧
        AppPacket.unpack concrete x.out = .ok (some (packet 1 100 (queueId 'a') 0 .msg "one"))) ∧
      (n true).running = none ∧ (n false).running = none ∧ ((n false).clients ()).pipe ≠ none ∧
      ((n false).clients ()).inFlight 1 = false ∧
      ((n false).clients ()).tooOld (n false).clock (packet 1 100 (queueId 'a') 0 .msg "one") = false))
    (by decide +kernel)
  obtain ⟨⟨x, hx, htext, hz, hp⟩, hS, hR, hpipe, hfree, hold⟩ := of_decide_eq_true hd
  obtain ⟨bs, n', -, hrun, hack, hheard⟩ := stop_and_wait_progress concrete_lawful fresh_pair
    (by decide +kernel) (h := 5) (fun _ => rfl) hm hn spelled_queueId hx htext hz hS hR hpipe
    ⟨1, by norm_num, by norm_num, hfree⟩
    (fun pkt hpkt => by rw [hp] at hpkt; cases hpkt; exact hold)
  exact ⟨n, x, bs, n', hn, hx, hrun, hack, hheard⟩

end Net

end Sidewire
