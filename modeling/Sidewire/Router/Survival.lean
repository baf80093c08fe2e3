import Sidewire.Mqtt.Concrete
import Sidewire.Router.Steps

/-! # The survival of a dispatcher

A pass over the queued messages lists the queue ids of a table and is then
suspended at every publication, while other tasks write to the table. The pass
ends in an exception when a listed queue is gone by the time it is entered, or
when a message that is due cannot be published.
-/

namespace Sidewire

def DispatchPc.pass : DispatchPc → Option Gen
  | .walking _ g | .publishing _ g => some g
  | _ => none

namespace Router

open Exec MQTTClient

variable {KP ι : Type} {A : Aio KP} {r r' : Router KP ι} {a : Action ι} {d : Dispatcher}
  {now draw : ℚ} {g : Gen} {c c' : MQTTClient KP} {pc : DispatchPc} {m : Meta} {i : ι}

structure Due (d : Dispatcher) (now draw : ℚ) (c : MQTTClient KP) (m : Meta) : Prop where
  repeated : m.probeOneShot = false
  wanted : (d.ignoreAcked && c.done m) = false
  elapsed : draw ≤ now - m.updated
  young : now - m.created < d.republishDuration

/-- Nothing that `republish_meta` calls for a meta fails: the backoff of a message that is neither
one-shot nor skipped as acknowledged can be drawn, and a message that is due has a topic the broker
takes and finds a free packet id. -/
structure Republishable (A : Aio KP) (d : Dispatcher) (now draw : ℚ) (c : MQTTClient KP)
    (m : Meta) : Prop where
  backoff : m.probeOneShot = false → (d.ignoreAcked && c.done m) = false →
    d.interval.Scalable m.attempts
  publication : Due d now draw c m → A.isAscii m.destPkHex = true ∧ FreeId c

/-- The queue a pass turns to is still in the table, and what it does for a message does not
fail. -/
structure Clear (A : Aio KP) (d : Dispatcher) (now draw : ℚ) (g : Gen) (c : MQTTClient KP) :
    Prop where
  queue : ∀ q qs, g.seqNos = [] → g.queueIds = q :: qs → (c.queue g.msgType q).isSome
  publication : ∀ s ss m, g.seqNos = s :: ss →
    (c.queueObject g.msgType g.queueIdHex g.ident).get? s = some m → c.pipeAlive = true →
    Republishable A d now draw c m

def Unharmed (A : Aio KP) (r : Router KP ι) (a : Action ι) : Prop :=
  ∀ i draw now g, a = .dispatch i draw → (r.dispatchers i).pc = .walking now g →
    Clear A (r.dispatchers i) now draw g (r.clients i)

def Surviving (r : Router KP ι) : Prop := ∀ i e, (r.dispatchers i).pc ≠ .finished (.raised e)

theorem inFlight_putMeta (c : MQTTClient KP) (t : MsgEnum) (q : String) (n : ℕ) (s : ℤ) (m : Meta) :
    (c.putMeta t q n s m).inFlight = c.inFlight := by
  unfold putMeta
  split
  · split_ifs <;> rfl
  · rfl

theorem freeId_putMeta {t : MsgEnum} {q : String} {n : ℕ} {s : ℤ} :
    FreeId (c.putMeta t q n s m) ↔ FreeId c := by
  simp only [FreeId, inFlight_putMeta]

theorem publish_safePipeSend_ok_iff (topic : String) (payload : Bytes) (c : MQTTClient KP) :
    (∃ d, (publish A topic payload >>= safePipeSend) c = .ok () d) ↔
      A.isAscii topic = true ∧ FreeId c := by
  rw [← publish_ok_iff topic payload c]
  constructor
  · rintro ⟨d, h⟩
    obtain ⟨p, e, hp, -⟩ := bind_eq_ok.mp h
    exact ⟨p, e, hp⟩
  · rintro ⟨p, e, hp⟩
    rw [bind_apply, hp]
    simp only [safePipeSend, bind_apply, get_apply]
    split_ifs
    · exact ⟨_, rfl⟩
    · exact ⟨_, rfl⟩

theorem currentBackoff_eq_ok {interval : PyNum} {republishDuration b : ℚ} {n : ℕ} :
    currentBackoff interval republishDuration n = .ok b ↔
      interval.Scalable n ∧ min (interval.value * 2 ^ n) (min 60 republishDuration) = b := by
  unfold currentBackoff
  split_ifs with h
  · simp [h]
  · simp [h]

theorem republishMeta_cases {s : ℤ} {res : Republish KP}
    (h : republishMeta A d g now draw s m c = some res) :
    (¬ Due d now draw c m ∧ Republishable A d now draw c m ∧ res = .skip) ∨
      (Due d now draw c m ∧ Republishable A d now draw c m ∧ ∃ c', res = .published c') ∨
      ¬ Republishable A d now draw c m ∧ ∃ e c', res = .raised e c' := by
  unfold republishMeta at h
  by_cases h₁ : m.probeOneShot = true
  · rw [if_pos h₁] at h
    cases h
    have hno : m.probeOneShot ≠ false := by simp [h₁]
    exact .inl ⟨fun hd => hno hd.repeated, ⟨fun hr => absurd hr hno, fun hd => absurd hd.repeated hno⟩,
      rfl⟩
  by_cases h₂ : (d.ignoreAcked && c.done m) = true
  · rw [if_neg h₁, if_pos h₂] at h
    cases h
    have hno : (d.ignoreAcked && c.done m) ≠ false := by simp [h₂]
    exact .inl ⟨fun hd => hno hd.wanted, ⟨fun _ hw => absurd hw hno, fun hd => absurd hd.wanted hno⟩,
      rfl⟩
  rw [if_neg h₁, if_neg h₂] at h
  have hr : m.probeOneShot = false := Bool.eq_false_of_not_eq_true h₁
  have hw : (d.ignoreAcked && c.done m) = false := Bool.eq_false_of_not_eq_true h₂
  cases hb : currentBackoff d.interval d.republishDuration m.attempts with
  | error e =>
    rw [hb] at h
    cases h
    refine .inr (.inr ⟨fun hp => ?_, e, c, rfl⟩)
    rw [currentBackoff, if_pos (hp.backoff hr hw)] at hb
    cases hb
  | ok backoff =>
  have hscale := (currentBackoff_eq_ok.mp hb).1
  have hundue : ¬ Due d now draw c m → Republishable A d now draw c m :=
    fun hno => ⟨fun _ _ => hscale, fun hd => absurd hd hno⟩
  rw [hb] at h
  simp only at h
  split_ifs at h with h₃ h₄ h₅
  · cases h
    have hno : ¬ Due d now draw c m := fun hd => absurd hd.elapsed (not_le.mpr h₄)
    exact .inl ⟨hno, hundue hno, rfl⟩
  · cases h
    have hno : ¬ Due d now draw c m := fun hd => absurd hd.young (not_lt.mpr h₅)
    exact .inl ⟨hno, hundue hno, rfl⟩
  · have hdue : Due d now draw c m := ⟨hr, hw, not_lt.mp h₄, not_le.mp h₅⟩
    have hiff := publish_safePipeSend_ok_iff (A := A) m.destPkHex m.out
      (c.putMeta g.msgType g.queueIdHex g.ident s
        { m with updated := now, attempts := m.attempts + 1 })
    rw [freeId_putMeta] at hiff
    cases hp : (publish A m.destPkHex m.out >>= safePipeSend)
        (c.putMeta g.msgType g.queueIdHex g.ident s
          { m with updated := now, attempts := m.attempts + 1 }) with
    | ok u c' =>
      simp only [hp] at h
      cases h
      exact .inr (.inl ⟨hdue, ⟨fun _ _ => hscale, fun _ => hiff.mp ⟨c', hp⟩⟩, c', rfl⟩)
    | error e c' =>
      simp only [hp] at h
      cases h
      refine .inr (.inr ⟨fun hok => ?_, e, c', rfl⟩)
      obtain ⟨d', hd'⟩ := hiff.mpr (hok.publication hdue)
      rw [hp] at hd'
      cases hd'

/-- A step of a pass ends in an exception exactly where the way is not clear. -/
theorem walkStep_raised_iff (h : walkStep A d now draw g c = some (pc, c')) :
    (∃ e, pc = .finished (.raised e)) ↔ ¬ Clear A d now draw g c := by
  unfold walkStep Gen.next at h
  cases hs : g.seqNos with
  | cons s ss =>
    have hclear : Clear A d now draw g c ↔ ∀ m,
        (c.queueObject g.msgType g.queueIdHex g.ident).get? s = some m → c.pipeAlive = true →
        Republishable A d now draw c m := by
      refine ⟨fun hc m => hc.publication s ss m hs, fun hc => ⟨fun q qs h' => ?_, ?_⟩⟩
      · rw [hs] at h'; cases h'
      · intro s' ss' m h'
        rw [hs] at h'
        cases h'
        exact hc m
    rw [hs] at h
    cases hm : (c.queueObject g.msgType g.queueIdHex g.ident).get? s with
    | none =>
      simp only [hm] at h hclear
      cases h
      simp [hclear]
    | some m =>
      simp only [hm] at h hclear
      split_ifs at h with hp
      · cases h
        simp [hclear, hp]
      · have hp : c.pipeAlive = true := Bool.eq_true_of_not_eq_false hp
        cases hr : republishMeta A d g now draw s m c with
        | none => rw [hr] at h; cases h
        | some res =>
          rw [hr] at h
          obtain ⟨-, hok, rfl⟩ | ⟨-, hok, c₁, rfl⟩ | ⟨hno, e, c₁, rfl⟩ := republishMeta_cases hr
          · cases h
            simp [hclear, hok]
          · cases h
            simp [hclear, hok]
          · cases h
            simp only [hclear, hp, DispatchPc.finished.injEq, Exit.raised.injEq, exists_eq', true_iff]
            exact fun hc => hno (hc m rfl trivial)
  | nil =>
    have hclear : Clear A d now draw g c ↔
        ∀ q qs, g.queueIds = q :: qs → (c.queue g.msgType q).isSome := by
      refine ⟨fun hc q qs => hc.queue q qs hs, fun hc => ⟨fun q qs _ => hc q qs, ?_⟩⟩
      intro s' ss' m h'
      rw [hs] at h'
      cases h'
    rw [hs] at h
    cases hq : g.queueIds with
    | nil =>
      rw [hq] at h hclear
      cases ht : g.types with
      | nil => rw [ht] at h; cases h; simp [hclear]
      | cons t ts => rw [ht] at h; cases h; simp [hclear]
    | cons q qs =>
      rw [hq] at h hclear
      cases hd : c.queue g.msgType q with
      | none =>
        simp only [hd] at h
        cases h
        simp [hclear, hd]
      | some dq =>
        simp only [hd] at h
        cases h
        simp [hclear, hd]

variable [DecidableEq ι]

inductive Stride (A : Aio KP) (r : Router KP ι) (i : ι) (draw : ℚ) : DispatchPc → Prop
  | start (h : (r.dispatchers i).pc = .reconnecting) :
      Stride A r i draw (.walking r.clock Gen.start)
  | walk {now : ℚ} {g : Gen} {pc : DispatchPc} {c : MQTTClient KP}
      (h : (r.dispatchers i).pc = .walking now g)
      (hw : walkStep A (r.dispatchers i) now draw g (r.clients i) = some (pc, c)) :
      Stride A r i draw pc
  | resume {now : ℚ} {g : Gen} (h : (r.dispatchers i).pc = .publishing now g) :
      Stride A r i draw (.walking now g)
  | pause {now : ℚ} {pc : DispatchPc}
      (h : (r.dispatchers i).pc = .sleeping now ∨ (r.dispatchers i).pc = .pinging now)
      (hpc : pc = .finished .closed ∨ pc = .reconnecting ∨ pc = .pinging now) :
      Stride A r i draw pc

theorem pc_setDispatchPc (r : Router KP ι) (i : ι) (pc : DispatchPc) (j : ι) :
    ((r.setDispatchPc i pc).dispatchers j).pc = if j = i then pc else (r.dispatchers j).pc := by
  by_cases hj : j = i
  · simp [setDispatchPc, hj]
  · simp [setDispatchPc, hj]

theorem pc_loopHead (r : Router KP ι) (i : ι) : ∃ pc, (pc = .finished .closed ∨ pc = .reconnecting) ∧
    ∀ j, ((r.loopHead i).dispatchers j).pc = if j = i then pc else (r.dispatchers j).pc := by
  refine ⟨_, ?_, pc_setDispatchPc r i _⟩
  split_ifs
  · exact .inl rfl
  · exact .inr rfl

theorem dispatch_stride (h : r.dispatch A i draw = some r') : ∃ pc, Stride A r i draw pc ∧
    ∀ j, (r'.dispatchers j).pc = if j = i then pc else (r.dispatchers j).pc := by
  unfold dispatch at h
  cases hpc : (r.dispatchers i).pc with
  | reconnecting =>
    rw [hpc] at h
    simp only at h
    split_ifs at h
    cases h
    exact ⟨_, .start hpc, pc_setDispatchPc r i _⟩
  | walking now g =>
    rw [hpc] at h
    simp only at h
    cases hw : walkStep A (r.dispatchers i) now draw g (r.clients i) with
    | none => rw [hw] at h; cases h
    | some x =>
      rw [hw] at h
      cases h
      exact ⟨_, .walk hpc hw, pc_setDispatchPc (r.setClient i x.2) i _⟩
  | publishing now g =>
    rw [hpc] at h
    cases h
    exact ⟨_, .resume hpc, pc_setDispatchPc r i _⟩
  | sleeping now =>
    rw [hpc] at h
    cases h
    have hping : ∀ j, ((Function.update r.dispatchers i
        { r.dispatchers i with lastPing := r.clock }) j).pc = (r.dispatchers j).pc := by
      intro j
      by_cases hj : j = i
      · simp [hj]
      · simp [hj]
    unfold keepAlive
    simp only
    split_ifs
    · obtain ⟨pc, hpc', h⟩ := pc_loopHead r i
      exact ⟨pc, .pause (.inl hpc) (hpc'.imp_right .inl), h⟩
    · refine ⟨_, .pause (.inl hpc) (.inr (.inr rfl)), fun j => ?_⟩
      rw [pc_setDispatchPc, hping]
    · obtain ⟨pc, hpc', h⟩ := pc_loopHead (pruneMsgIds { r with
        dispatchers := Function.update r.dispatchers i { r.dispatchers i with lastPing := r.clock } }
        i now) i
      refine ⟨pc, .pause (.inl hpc) (hpc'.imp_right .inl), fun j => ?_⟩
      rw [h]
      congr 1
      exact hping j
  | pinging now =>
    rw [hpc] at h
    cases h
    obtain ⟨pc, hpc', h⟩ := pc_loopHead (r.pruneMsgIds i now) i
    exact ⟨pc, .pause (.inr hpc) (hpc'.imp_right .inl), h⟩
  | finished e => rw [hpc] at h; cases h

omit [DecidableEq ι] in
theorem Stride.not_finished (h : Stride A r i draw pc) (why : Exit) :
    (r.dispatchers i).pc ≠ .finished why := by
  cases h with
  | start h | walk h | resume h => rw [h]; exact nofun
  | pause h => rcases h with h | h <;> rw [h] <;> exact nofun

theorem step_dispatchers (h : r.step A a = some r') :
    (∃ i draw pc, a = .dispatch i draw ∧ Stride A r i draw pc ∧
      ∀ j, (r'.dispatchers j).pc = if j = i then pc else (r.dispatchers j).pc) ∨
    (∃ i, (∀ j draw, a ≠ .dispatch j draw) ∧ (∀ why, (r.dispatchers i).pc ≠ .finished why) ∧
      ∀ j, (r'.dispatchers j).pc = if j = i then .finished .cancelled else (r.dispatchers j).pc) ∨
    (∀ j draw, a ≠ .dispatch j draw) ∧ ∀ j, (r'.dispatchers j).pc = (r.dispatchers j).pc := by
  have hact := act_of_step h
  have hother : ∀ {b : Action ι}, (¬ ∃ j draw, b = .dispatch j draw) →
      ∀ j draw, b ≠ .dispatch j draw := fun h j draw hb => h ⟨j, draw, hb⟩
  cases a with
  | dispatch i draw =>
    obtain ⟨pc, hs, hpc⟩ := dispatch_stride hact
    exact .inl ⟨i, draw, pc, rfl, hs, hpc⟩
  | cancelDispatcher i =>
    simp only [act] at hact
    split at hact
    · cases hact
    · rename_i hn
      cases hact
      exact .inr (.inl ⟨i, hother (by simp), hn, pc_setDispatchPc r i _⟩)
  | tick t =>
    simp only [act] at hact
    split_ifs at hact
    cases hact
    exact .inr (.inr ⟨hother (by simp), fun _ => rfl⟩)
  | resume k res =>
    obtain ⟨t, pc, c, recv, calls, -, -, rfl⟩ := resume_spec hact
    exact .inr (.inr ⟨hother (by simp), fun _ => rfl⟩)
  | queueMsg i rnd msg dest q t s =>
    cases hact
    rw [call_eq]
    exact .inr (.inr ⟨hother (by simp), fun _ => rfl⟩)
  | sendProbe i rnd dest q =>
    cases hact
    rw [call_eq]
    exact .inr (.inr ⟨hother (by simp), fun _ => rfl⟩)
  | reconnected i =>
    simp only [act] at hact
    split_ifs at hact
    cases hact
    exact .inr (.inr ⟨hother (by simp), fun _ => rfl⟩)
  | recv | dequeueMsg | addMsgHandler | brokerAck | connectionLost | close | dropPipe =>
    cases hact
    exact .inr (.inr ⟨hother (by simp), fun _ => rfl⟩)

omit [DecidableEq ι] in
theorem Stride.raised_iff (h : Stride A r i draw pc) :
    (∃ e, pc = .finished (.raised e)) ↔ ∃ now g, (r.dispatchers i).pc = .walking now g ∧
      ¬ Clear A (r.dispatchers i) now draw g (r.clients i) := by
  cases h with
  | start h => simp [h]
  | walk h hw => rw [walkStep_raised_iff hw, h]; simp
  | resume h => simp [h]
  | pause h hpc => rcases h with h | h <;> rcases hpc with rfl | rfl | rfl <;> simp [h]

theorem Surviving.of_step (h : r.step A a = some r') (hs : Surviving r') : Surviving r := by
  intro j e hj
  obtain ⟨i, draw, pc, -, hst, hpc⟩ | ⟨i, -, hn, hpc⟩ | ⟨-, hpc⟩ := step_dispatchers h
  · refine hs j e ?_
    rw [hpc, if_neg, hj]
    rintro rfl
    exact hst.not_finished _ hj
  · refine hs j e ?_
    rw [hpc, if_neg, hj]
    rintro rfl
    exact hn _ hj
  · exact hs j e ((hpc j).trans hj)

theorem Surviving.step_iff (hs : Surviving r) (h : r.step A a = some r') :
    Surviving r' ↔ Unharmed A r a := by
  obtain ⟨i, draw, pc, rfl, hst, hpc⟩ | ⟨i, ha, -, hpc⟩ | ⟨ha, hpc⟩ := step_dispatchers h
  · constructor
    · rintro hs' j draw' now g ⟨⟩ hj
      by_contra hc
      obtain ⟨e, he⟩ := hst.raised_iff.mpr ⟨now, g, hj, hc⟩
      exact hs' i e (by rw [hpc, if_pos rfl, he])
    · intro hu j e hj
      rw [hpc] at hj
      split_ifs at hj with hji
      · obtain ⟨now, g, hw, hc⟩ := hst.raised_iff.mp ⟨e, hj⟩
        exact hc (hu i draw now g rfl hw)
      · exact hs j e hj
  · refine iff_of_true (fun j e hj => ?_) fun j draw now g hd => absurd hd (ha j draw)
    rw [hpc] at hj
    split_ifs at hj
    · cases hj
    · exact hs j e hj
  · exact iff_of_true (fun j e hj => hs j e ((hpc j).symm.trans hj))
      fun j draw now g hd => absurd hd (ha j draw)

theorem Surviving.run_iff : ∀ {as : List (Action ι)} {r : Router KP ι}, Surviving r →
    Machine.run (step A) r as = some r' →
    (Surviving r' ↔ Machine.Meets (step A) (Unharmed A) r as)
  | [], _, hs, hrun => by cases hrun; exact iff_of_true hs trivial
  | a :: as, r, hs, hrun => by
    obtain ⟨u, hu, hrun⟩ := Machine.run_cons_eq_some.mp hrun
    constructor
    · intro hs'
      have hsu : Surviving u := by
        by_contra hn
        have hend : ∀ (v : Router KP ι) a w, ¬ Surviving v → v.step A a = some w → ¬ Surviving w :=
          fun v a w hv hst hw => hv (.of_step hst hw)
        exact Machine.run_preserves hend hn hrun hs'
      exact ⟨(hs.step_iff hu).mp hsu, fun v hv => by
        rw [hu] at hv
        cases hv
        exact (hsu.run_iff hrun).mp hs'⟩
    · rintro ⟨ha, hm⟩
      exact (((hs.step_iff hu).mpr ha).run_iff hrun).mpr (hm u hu)

/-- The application addresses ASCII keys, no queue is deleted that a suspended pass has listed,
and a dispatcher finds a packet id that is not in flight and no message published too often for its
interval. -/
structure Tame (A : Aio KP) (r : Router KP ι) (a : Action ι) : Prop where
  queueMsg : ∀ i rnd msg dest q t s, a = .queueMsg i rnd msg dest q t s → A.isAscii dest = true
  sendProbe : ∀ i rnd dest q, a = .sendProbe i rnd dest q → A.isAscii dest = true
  listed : ∀ i t q g, Cause A r i a (.unlink t q) → (r.dispatchers i).pc.pass = some g →
    g.msgType = t → q ∉ g.queueIds
  freeId : ∀ i draw, a = .dispatch i draw → FreeId (r.clients i)
  backoff : ∀ i draw, a = .dispatch i draw → ∀ t q n s m,
    ((r.clients i).queueObject t q n).get? s = some m → (r.dispatchers i).interval.Scalable m.attempts

structure Walkable (A : Aio KP) (r : Router KP ι) : Prop where
  sound : Sound A r
  ascii : ∀ i, ∀ x ∈ (r.clients i).queued, A.isAscii x.destPkHex = true
  listed : ∀ i g, (r.dispatchers i).pc.pass = some g → ∀ q ∈ g.queueIds,
    ((r.clients i).queue g.msgType q).isSome

omit [DecidableEq ι] in
theorem Fresh.walkable (h : Fresh r) : Walkable A r where
  sound := h.sound
  ascii i x hx := by rw [h.queued] at hx; cases hx
  listed i g hg := by rw [h.dispatchers] at hg; cases hg

omit [DecidableEq ι] in
theorem Walkable.unharmed (h : Walkable A r) (ha : Tame A r a) : Unharmed A r a := by
  rintro i draw now g rfl hpc
  refine ⟨fun q qs _ hq => ?_, fun s ss m _ hm _ => ⟨fun _ _ => ha.backoff i draw rfl _ _ _ _ m hm,
    fun _ => ⟨?_, ha.freeId i draw rfl⟩⟩⟩
  · exact h.listed i g (by rw [hpc]; rfl) q (by rw [hq]; exact List.mem_cons_self ..)
  · obtain ⟨x, hx, hd, -⟩ := (h.sound.tracked i).queueObject hm
    rw [← hd]
    exact h.ascii i x hx

theorem walkStep_listed (h : walkStep A d now draw g c = some (pc, c'))
    (hl : ∀ q ∈ g.queueIds, (c.queue g.msgType q).isSome) {g' : Gen} (hg : pc.pass = some g') :
    ∀ q ∈ g'.queueIds, (c.queue g'.msgType q).isSome := by
  have hnext : (g'.msgType = g.msgType ∧ g'.queueIds ⊆ g.queueIds) ∨
      g'.queueIds = (c.msgQueues g'.msgType).keys := by
    unfold walkStep Gen.next at h
    cases hs : g.seqNos with
    | cons s ss =>
      rw [hs] at h
      left
      cases hm : (c.queueObject g.msgType g.queueIdHex g.ident).get? s with
      | none =>
        simp only [hm] at h
        cases h
        cases hg
        exact ⟨rfl, fun _ hq => hq⟩
      | some m =>
        simp only [hm] at h
        split_ifs at h
        · cases h; cases hg
        · split at h
          · cases h
          · cases h; cases hg; exact ⟨rfl, fun _ hq => hq⟩
          · cases h; cases hg; exact ⟨rfl, fun _ hq => hq⟩
          · cases h; cases hg
    | nil =>
      rw [hs] at h
      cases hq : g.queueIds with
      | cons q qs =>
        rw [hq] at h
        left
        cases hd : c.queue g.msgType q with
        | none => simp only [hd] at h; cases h; cases hg
        | some dq =>
          simp only [hd] at h
          cases h
          cases hg
          exact ⟨rfl, fun _ hq => List.mem_cons_of_mem _ hq⟩
      | nil =>
        rw [hq] at h
        right
        cases ht : g.types with
        | nil => rw [ht] at h; cases h; cases hg
        | cons t ts => rw [ht] at h; cases h; cases hg; rfl
  intro q hq
  obtain ⟨ht, hsub⟩ | hkeys := hnext
  · rw [ht]
    exact hl q (hsub hq)
  · rw [hkeys] at hq
    obtain ⟨dq, hdq⟩ := PyDict.mem_keys_iff.mp hq
    exact Option.isSome_iff_exists.mpr ⟨dq, hdq⟩

theorem Walkable.step (hA : A.Lawful) (h : Walkable A r) (ha : Tame A r a)
    (hstep : r.step A a = some r') : Walkable A r' := by
  have hw := step_writes hA h.sound hstep
  refine ⟨step_sound hA h.sound hstep, fun i x hx => ?_, fun i g hg => ?_⟩
  · obtain hx | hx := (hw i).queued_cases hx
    · exact h.ascii i x hx
    · cases hx with
      | queued => exact ha.queueMsg _ _ _ _ _ _ _ rfl
      | probed => exact ha.sendProbe _ _ _ _ rfl
      | @acked k rnd t pkt signed out ack hk hi hpc =>
        have hh := h.sound.holds t (List.mem_of_getElem? hk)
        rw [hpc] at hh
        change A.isAscii pkt.srcPkHex = true
        rw [(AppPacket.unpack_spec hh.1.1).srcPkHex]
        exact hA.isAscii_toH _
      | @probeAcked k rnd t pkt out ack hk hi hpc hp =>
        change A.isAscii pkt.srcPkHex = true
        rw [(AppPacket.unpack_spec hp).srcPkHex]
        exact hA.isAscii_toH _
  · have hold : (r.dispatchers i).pc.pass = some g →
        ∀ q ∈ g.queueIds, ((r'.clients i).queue g.msgType q).isSome := by
      intro hg q hq
      obtain hq' | hu := (hw i).queue_kept (h.listed i g hg q hq)
      · exact hq'
      · exact absurd hq (ha.listed i _ q g hu hg rfl)
    obtain ⟨j, draw, pc, rfl, hst, hpc⟩ | ⟨j, -, -, hpc⟩ | ⟨-, hpc⟩ := step_dispatchers hstep
    · rw [hpc] at hg
      split_ifs at hg with hi
      · subst hi
        cases hst with
        | start => cases hg; exact nofun
        | walk h₁ h₂ =>
          intro q hq
          have hq := walkStep_listed h₂ (h.listed i _ (by rw [h₁]; rfl)) hg q hq
          exact ((hw i).queue_kept hq).elim id nofun
        | resume h₁ => exact hold (by rw [h₁]; exact hg)
        | pause h₁ hpc => rcases hpc with rfl | rfl | rfl <;> cases hg
      · exact hold hg
    · rw [hpc] at hg
      split_ifs at hg
      · cases hg
      · exact hold hg
    · rw [hpc] at hg
      exact hold hg

/-- Dispatcher survival: no dispatcher is ended by an exception exactly in the runs in which every
pass finds its way clear, as it does while the other tasks are tame. -/
theorem dispatchers_survive_iff (hA : A.Lawful) {r₀ : Router KP ι} {as : List (Action ι)}
    (h₀ : Fresh r₀) (hrun : Machine.run (step A) r₀ as = some r) :
    (Surviving r ↔ Machine.Meets (step A) (Unharmed A) r₀ as) ∧
      (Machine.Meets (step A) (Tame A) r₀ as → Surviving r) := by
  have hs₀ : Surviving r₀ := fun i e hi => by rw [h₀.dispatchers] at hi; cases hi
  have hiff := hs₀.run_iff hrun
  exact ⟨hiff, fun hm => hiff.mpr (.of_invariant (fun _ _ _ h ha hs => h.step hA ha hs)
    (fun _ _ h ha => h.unharmed ha) h₀.walkable hm)⟩

open Concrete

def dequeuedMidway (seqNo : Option ℤ) : List (Action Unit) :=
  [.queueMsg () 0 (.str "one") (concrete.pkHex 2) (queueId 'a') .msg none,
    .queueMsg () 0 (.str "two") (concrete.pkHex 2) (queueId 'b') .msg none,
    .dispatch () 0, .dispatch () 0, .dispatch () 0, .dispatch () 0,
    .dequeueMsg () (queueId 'b') seqNo .msg, .dispatch () 0, .dispatch () 0]

theorem not_surviving_dequeued_queue :
    ∃ r, Machine.run (step concrete) (connected 1 ⟨[5], by decide⟩ 100)
      (dequeuedMidway none) = some r ∧
      ¬ Surviving r := by
  obtain ⟨r, hr, he⟩ := Machine.exists_run_of_any (step concrete)
    (connected 1 ⟨[5], by decide⟩ 100) (dequeuedMidway none)
    (fun r => decide ((r.dispatchers ()).pc = .finished (.raised (.keyError (queueId 'b')))))
    (by decide +kernel)
  exact ⟨r, hr, fun hs => hs () _ (of_decide_eq_true he)⟩

theorem dispatchers_survive_iff_dequeued_seqNo :
    ∃ r, Machine.run (step concrete) (connected 1 ⟨[5], by decide⟩ 100)
      (dequeuedMidway (some 0)) = some r ∧
      Surviving r ∧ Machine.Meets (step concrete) (Unharmed concrete)
        (connected 1 ⟨[5], by decide⟩ 100) (dequeuedMidway (some 0)) := by
  obtain ⟨r, hr, he⟩ := Machine.exists_run_of_any (step concrete)
    (connected 1 ⟨[5], by decide⟩ 100) (dequeuedMidway (some 0))
    (fun r => (r.dispatchers ()).pc.pass.isSome) (by decide +kernel)
  have hs : Surviving r := by
    rintro ⟨⟩ e hi
    rw [hi] at he
    cases he
  exact ⟨r, hr, hs, (dispatchers_survive_iff concrete_lawful
    (fresh_connected 1 ⟨[5], by decide⟩ (by norm_num) (by decide +kernel)) hr).1.mp hs⟩

end Router

end Sidewire
