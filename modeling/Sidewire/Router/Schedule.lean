import Sidewire.Lib.LiveIter
import Sidewire.Mqtt.Alike
import Sidewire.Router.Survival

/-! # The retransmission schedule

A pass of the dispatcher that nothing disturbs comes to every queued message
once, in the order of the sequence numbers of a queue. Whether it publishes the
message depends on the state kept in the message alone: when it was published
last, and how often.
-/

namespace Sidewire

abbrev Slot := MsgEnum × String × ℤ

def Ascending (slots : List Slot) : Prop :=
  slots.Pairwise fun a b => a.1 = b.1 → a.2.1 = b.2.1 → a.2.2 < b.2.2

theorem Ascending.nodup {slots : List Slot} (h : Ascending slots) : slots.Nodup := by
  apply List.Pairwise.imp _ h
  rintro a b hlt rfl
  exact lt_irrefl _ (hlt rfl rfl)

/-- A queued message as a pass came to it: whether it was acknowledged, and the packets that were
handed to the pipe for it. -/
structure Considered where
  slot : Slot
  acked : Bool
  sent : List Publish

structure Round where
  now : ℚ
  considered : List Considered

def publications (log : List Round) (k : Slot) : List ℚ :=
  log.flatMap fun r => (r.considered.filter fun x => x.slot = k ∧ x.sent ≠ []).map fun _ => r.now

/-- The longest wait that `random.uniform(0, current_backoff)` draws after some attempts. -/
def Dispatcher.longestWait (d : Dispatcher) (attempts : ℕ) : ℚ :=
  max 0 (min (d.interval.value * 2 ^ attempts) (min 60 d.republishDuration))

namespace MQTTClient

open Exec Router

variable {KP : Type}

def held (c : MQTTClient KP) (k : Slot) : Option Meta := c.entry k.1 k.2.1 k.2.2

structure Undisturbed (c c' : MQTTClient KP) : Prop where
  msgQueues : c'.msgQueues = c.msgQueues
  pipe : c'.pipeAlive = true

/-- A pass from some point of it to its end, in which nothing fails that is called for a message. -/
inductive Pass (A : Aio KP) (d : Dispatcher) (now : ℚ) :
    DispatchPc → MQTTClient KP → List Considered → MQTTClient KP → Prop
  | done {c} : Pass A d now (.sleeping now) c [] c
  | resume {c c₁ c' g l} (hu : Undisturbed c c₁) (h : Pass A d now (.walking now g) c₁ l c') :
    Pass A d now (.publishing now g) c l c'
  | quiet {c c₁ c' g pc l} (draw : ℚ) (hn : ∀ s m g', g.next c ≠ .yield s m g')
    (hw : walkStep A d now draw g c = some (pc, c₁)) (h : Pass A d now pc c₁ l c') :
    Pass A d now (.walking now g) c l c'
  | consider {c c₁ c' g g' s m pc sent l} (draw : ℚ) (hn : g.next c = .yield s m g')
    (hpub : Republishable A d now draw c m)
    (hw : walkStep A d now draw g c = some (pc, c₁)) (hs : c₁.sent = c.sent ++ sent)
    (h : Pass A d now pc c₁ l c') :
    Pass A d now (.walking now g) c (⟨(g.msgType, g.queueIdHex, s), c.done m, sent⟩ :: l) c'

inductive Passes (A : Aio KP) (d : Dispatcher) (c₀ : MQTTClient KP) :
    List Round → MQTTClient KP → Prop
  | start : Passes A d c₀ [] c₀
  | pass {log c c₁ c' now l} (hp : Passes A d c₀ log c) (hu : Undisturbed c c₁)
    (h : Pass A d now (.walking now .start) c₁ l c') : Passes A d c₀ (log ++ [⟨now, l⟩]) c'

variable {A : Aio KP} {c c' c₀ c₁ : MQTTClient KP} {d : Dispatcher} {g g' : Gen}
  {now draw : ℚ} {t : MsgEnum} {q : String} {s : ℤ} {m m' : Meta} {pc : DispatchPc}
  {l : List Considered} {log : List Round} {k : Slot} {x : Considered}

def slots (c : MQTTClient KP) (t : MsgEnum) (q : String) : List Slot :=
  match c.queue t q with
  | some d => (d.metas.keys.insertionSort (· ≤ ·)).map fun s => (t, q, s)
  | none => []

def todo (c : MQTTClient KP) (g : Gen) : List Slot :=
  g.seqNos.map (fun s => (g.msgType, g.queueIdHex, s)) ++
    (g.queueIds.flatMap (c.slots g.msgType) ++
      g.types.flatMap fun t => (c.msgQueues t).keys.flatMap (c.slots t))

theorem slots_of_queue {dq : Queue} (h : c.queue t q = some dq) :
    c.slots t q = (dq.metas.keys.insertionSort (· ≤ ·)).map fun s => (t, q, s) := by
  simp only [slots, h]

theorem mem_slots : k ∈ c.slots t q ↔ k.1 = t ∧ k.2.1 = q ∧ (c.entry t q k.2.2).isSome := by
  obtain ⟨t', q', s⟩ := k
  cases hd : c.queue t q with
  | none => simp [slots, entry, hd]
  | some dq =>
    rw [slots_of_queue hd, entry_of_queue hd, Option.isSome_iff_exists, ← PyDict.mem_keys_iff]
    simp only [List.mem_map, List.mem_insertionSort, Prod.mk.injEq]
    constructor
    · rintro ⟨s', hs, rfl, rfl, rfl⟩
      exact ⟨rfl, rfl, hs⟩
    · rintro ⟨rfl, rfl, hs⟩
      exact ⟨s, hs, rfl, rfl, rfl⟩

theorem mem_keys_of_entry (h : (c.entry t q s).isSome) : q ∈ (c.msgQueues t).keys := by
  rw [PyDict.mem_keys_iff]
  cases hd : c.queue t q with
  | none => rw [entry, hd] at h; cases h
  | some dq => exact ⟨dq, hd⟩

theorem mem_todo_start : (t, q, s) ∈ c.todo .start ↔ (c.entry t q s).isSome := by
  simp only [todo, Gen.start, List.map_nil, List.flatMap_nil, List.nil_append, List.mem_flatMap,
    mem_slots]
  constructor
  · rintro ⟨t', -, q', -, rfl, rfl, h⟩
    exact h
  · intro h
    refine ⟨t, ?_, q, mem_keys_of_entry h, rfl, rfl, h⟩
    cases t <;> simp [MsgEnum.order]

theorem ascending_slots (c : MQTTClient KP) (t : MsgEnum) (q : String) :
    Ascending (c.slots t q) := by
  cases hd : c.queue t q with
  | none => simp [slots, hd, Ascending]
  | some dq =>
    rw [slots_of_queue hd, Ascending, List.pairwise_map]
    have hle := List.pairwise_insertionSort (· ≤ ·) dq.metas.keys
    have hne : (dq.metas.keys.insertionSort (· ≤ ·)).Nodup :=
      (List.perm_insertionSort _ _).nodup_iff.mpr dq.metas.nodup_keys
    apply List.Pairwise.imp _ (hle.and hne)
    rintro a b ⟨hle, hne⟩ - -
    exact lt_of_le_of_ne hle hne

theorem ascending_todo_start (c : MQTTClient KP) : Ascending (c.todo .start) := by
  simp only [todo, Gen.start, List.map_nil, List.flatMap_nil, List.nil_append]
  rw [Ascending, List.pairwise_flatMap]
  constructor
  · intro t _
    rw [List.pairwise_flatMap]
    refine ⟨fun q _ => ascending_slots c t q, ?_⟩
    apply List.Pairwise.imp _ (c.msgQueues t).nodup_keys
    intro q₁ q₂ hne a ha b hb _ hq
    rw [(mem_slots.mp ha).2.1, (mem_slots.mp hb).2.1] at hq
    exact absurd hq hne
  · have horder : MsgEnum.order.Nodup := by decide
    apply List.Pairwise.imp _ horder
    intro t₁ t₂ hne a ha b hb ht
    obtain ⟨q₁, -, ha⟩ := List.mem_flatMap.mp ha
    obtain ⟨q₂, -, hb⟩ := List.mem_flatMap.mp hb
    rw [(mem_slots.mp ha).1, (mem_slots.mp hb).1] at ht
    exact absurd ht hne

structure SameShape (c c' : MQTTClient KP) : Prop where
  keys : ∀ t, (c'.msgQueues t).keys = (c.msgQueues t).keys
  queue : ∀ t q, (c'.queue t q).map (fun d => (d.ident, d.metas.keys)) =
    (c.queue t q).map fun d => (d.ident, d.metas.keys)

theorem held_of_msgQueues (h : c'.msgQueues = c.msgQueues) (k : Slot) : c'.held k = c.held k := by
  rw [held, held, entry, entry, MQTTClient.queue, MQTTClient.queue, h]

theorem SameShape.of_msgQueues (h : c'.msgQueues = c.msgQueues) : SameShape c c' :=
  ⟨fun t => by rw [h], fun t q => by rw [MQTTClient.queue, h]; rfl⟩

theorem SameShape.trans (h₁ : SameShape c c₁) (h₂ : SameShape c₁ c') : SameShape c c' :=
  ⟨fun t => (h₂.keys t).trans (h₁.keys t), fun t q => (h₂.queue t q).trans (h₁.queue t q)⟩

theorem SameShape.exists_queue (h : SameShape c c') {dq : Queue} (hd : c.queue t q = some dq) :
    ∃ dq', c'.queue t q = some dq' ∧ dq'.ident = dq.ident ∧ dq'.metas.keys = dq.metas.keys := by
  have hq := h.queue t q
  rw [hd] at hq
  obtain ⟨dq', hd', he⟩ := Option.map_eq_some_iff.mp hq
  exact ⟨dq', hd', congrArg Prod.fst he, congrArg Prod.snd he⟩

theorem SameShape.slots (h : SameShape c c') (t : MsgEnum) (q : String) :
    c'.slots t q = c.slots t q := by
  cases hd : c.queue t q with
  | some dq =>
    obtain ⟨dq', hd', -, hk⟩ := h.exists_queue hd
    rw [slots_of_queue hd, slots_of_queue hd', hk]
  | none =>
    have hq := h.queue t q
    rw [hd, Option.map_none, Option.map_eq_none_iff] at hq
    simp only [MQTTClient.slots, hd, hq]

theorem SameShape.todo (h : SameShape c c') (g : Gen) : c'.todo g = c.todo g := by
  have hs : c'.slots = c.slots := funext fun t => funext fun q => h.slots t q
  simp only [MQTTClient.todo, hs, h.keys]

structure Inside (c : MQTTClient KP) (g : Gen) : Prop where
  seqNos : ∀ s ∈ g.seqNos, ∃ dq, c.queue g.msgType g.queueIdHex = some dq ∧ dq.ident = g.ident ∧
    s ∈ dq.metas.keys
  queueIds : ∀ q ∈ g.queueIds, ∃ dq, c.queue g.msgType q = some dq

theorem inside_start (c : MQTTClient KP) : Inside c .start := by
  constructor
  · intro s hs
    cases hs
  · intro q hq
    cases hq

theorem SameShape.inside (h : SameShape c c') (hg : Inside c g) : Inside c' g := by
  constructor
  · intro s hs
    obtain ⟨dq, hd, hi, hk⟩ := hg.seqNos s hs
    obtain ⟨dq', hd', hi', hk'⟩ := h.exists_queue hd
    exact ⟨dq', hd', hi'.trans hi, hk' ▸ hk⟩
  · intro q hq
    obtain ⟨dq, hd⟩ := hg.queueIds q hq
    obtain ⟨dq', hd', -⟩ := h.exists_queue hd
    exact ⟨dq', hd'⟩

def turns (c : MQTTClient KP) (g : Gen) : ℕ :=
  g.queueIds.length + (g.types.map fun t => (c.msgQueues t).keys.length + 1).sum

theorem next_inside (hg : Inside c g) :
    (∃ dq s m g', g.next c = .yield s m g' ∧ c.queue g.msgType g.queueIdHex = some dq ∧
      dq.ident = g.ident ∧ dq.metas.get? s = some m ∧ Inside c g' ∧
      c.todo g = (g.msgType, g.queueIdHex, s) :: c.todo g' ∧ c.turns g' = c.turns g) ∨
    (∃ g', g.next c = .move g' ∧ Inside c g' ∧ c.todo g = c.todo g' ∧
      c.turns g' < c.turns g) ∨
    g.next c = .stop ∧ c.todo g = [] := by
  obtain ⟨types, msgType, queueIds, queueIdHex, ident, seqNos⟩ := g
  cases seqNos with
  | cons s ss =>
    left
    obtain ⟨dq, hd, hi, hk⟩ := hg.seqNos s List.mem_cons_self
    obtain ⟨m, hm⟩ := PyDict.mem_keys_iff.mp hk
    subst hi
    have hget : (c.queueObject msgType queueIdHex dq.ident).get? s = some m := by
      rw [queueObject_of_queue hd, hm]
    refine ⟨dq, s, m, ⟨types, msgType, queueIds, queueIdHex, dq.ident, ss⟩, ?_, hd, rfl, hm, ?_,
      rfl, rfl⟩
    · simp only [Gen.next, hget]
    · exact ⟨fun s' hs => hg.seqNos s' (List.mem_cons_of_mem _ hs), hg.queueIds⟩
  | nil =>
    right
    cases queueIds with
    | cons q qs =>
      left
      obtain ⟨dq, hd⟩ := hg.queueIds q List.mem_cons_self
      refine ⟨⟨types, msgType, qs, q, dq.ident, dq.metas.keys.insertionSort (· ≤ ·)⟩,
        ?_, ?_, ?_, ?_⟩
      · change c.queue msgType q = some dq at hd
        simp only [Gen.next, hd]
      · refine ⟨fun s hs => ⟨dq, hd, rfl, (List.mem_insertionSort _).mp hs⟩, ?_⟩
        exact fun q' hq => hg.queueIds q' (List.mem_cons_of_mem _ hq)
      · simp only [todo, List.map_nil, List.nil_append, List.flatMap_cons, List.append_assoc]
        rw [slots_of_queue hd]
      · simp [turns]
    | nil =>
      cases types with
      | cons t ts =>
        left
        refine ⟨⟨ts, t, (c.msgQueues t).keys, queueIdHex, ident, []⟩, rfl, ?_, ?_, ?_⟩
        · constructor
          · intro s hs
            cases hs
          · intro q hq
            exact PyDict.mem_keys_iff.mp hq
        · simp only [todo, List.map_nil, List.nil_append, List.flatMap_nil, List.flatMap_cons]
        · simp [turns]
      | nil => exact .inr ⟨rfl, rfl⟩

/-- What a pass makes of a meta: nothing, for a reason that does not depend on the jitter unless
the message was published within the backoff; or it publishes the message and bumps the meta. -/
inductive Turn (d : Dispatcher) (now : ℚ) (x : Considered) (m : Meta) : Meta → Prop
  | skipped (hs : x.sent = [])
    (why : m.probeOneShot = true ∨ (d.ignoreAcked = true ∧ x.acked = true) ∨
      now - m.updated < d.longestWait m.attempts ∨
      d.republishDuration ≤ now - m.created) : Turn d now x m m
  | published {pid : ℕ} (hs : x.sent = [⟨m.destPkHex, m.out, pid⟩])
    (repeated : m.probeOneShot = false) (wanted : ¬ (d.ignoreAcked = true ∧ x.acked = true))
    (young : now - m.created < d.republishDuration) :
    Turn d now x m { m with updated := now, attempts := m.attempts + 1 }

theorem draw_le_of_republishMeta (h : republishMeta A d g now draw s m c = some .skip)
    (hr : m.probeOneShot = false)
    (hw : (d.ignoreAcked && c.done m) = false) :
    draw ≤ d.longestWait m.attempts := by
  unfold republishMeta at h
  rw [if_neg (by simp [hr]), if_neg (by simp [hw])] at h
  cases hb : currentBackoff d.interval d.republishDuration m.attempts with
  | error e => rw [hb] at h; cases h
  | ok b =>
    rw [hb] at h
    rw [Dispatcher.longestWait, (currentBackoff_eq_ok.mp hb).2]
    by_contra hlt
    simp only [if_pos (Or.inr (not_le.mp hlt))] at h
    cases h

theorem why_of_republishMeta (h : republishMeta A d g now draw s m c = some .skip) :
    m.probeOneShot = true ∨ (d.ignoreAcked = true ∧ c.done m = true) ∨
      now - m.updated < d.longestWait m.attempts ∨ d.republishDuration ≤ now - m.created := by
  by_contra hno
  simp only [not_or, not_lt, not_le] at hno
  obtain ⟨hr, hw, he, hy⟩ := hno
  have hr : m.probeOneShot = false := Bool.eq_false_of_not_eq_true hr
  have hw : (d.ignoreAcked && c.done m) = false := by
    rw [← Bool.not_eq_true, Bool.and_eq_true]
    exact hw
  obtain ⟨hd, -⟩ | ⟨-, -, c', hc⟩ | ⟨-, e, c', hc⟩ := republishMeta_cases h
  · exact hd ⟨hr, hw, (draw_le_of_republishMeta h hr hw).trans he, hy⟩
  · cases hc
  · cases hc

theorem publish_of_republishMeta (h : republishMeta A d g now draw s m c = some (.published c')) :
    (publish A m.destPkHex m.out >>= safePipeSend) (c.putMeta g.msgType g.queueIdHex g.ident s
      { m with updated := now, attempts := m.attempts + 1 }) = .ok () c' := by
  unfold republishMeta at h
  cases hb : currentBackoff d.interval d.republishDuration m.attempts with
  | error e =>
    simp only [hb] at h
    split_ifs at h <;> cases h
  | ok backoff =>
  simp only [hb] at h
  split_ifs at h
  · cases h
  · cases h
  · cases h
  · cases h
  · split at h
    · rename_i u c'' he
      cases h
      exact he
    · cases h

theorem inFlightCount_congr (h : c'.packetIds = c.packetIds) :
    c'.inFlightCount = c.inFlightCount := by
  have hi : c'.inFlight = c.inFlight := by
    funext pid
    rw [inFlight, inFlight, h]
  rw [inFlightCount, inFlightCount, hi]

theorem publish_safePipeSend_eq_ok {topic : String} {payload : Bytes}
    (h : (publish A topic payload >>= safePipeSend) c = .ok () c') (hp : c.pipeAlive = true) :
    ∃ pid, c'.sent = c.sent ++ [⟨topic, payload, pid⟩] ∧ c'.msgQueues = c.msgQueues ∧
      c'.pipeAlive = true ∧ c'.inFlightCount = c.inFlightCount + 1 := by
  obtain ⟨p, c₁, h₁, h₂⟩ := bind_eq_ok.mp h
  obtain ⟨e, n, he⟩ | ⟨n, pid, h₁', h₂', hf, he⟩ := publish_cases A topic payload c
  · rw [h₁] at he
    cases he
  · rw [h₁] at he
    cases he
    have hp₁ : (c.allocate n pid).pipeAlive = true := hp
    simp only [safePipeSend, bind_apply, get_apply, hp₁, if_true] at h₂
    cases h₂
    have hcount : (c.allocate n pid).inFlightCount = c.inFlightCount + 1 :=
      inFlightCount_allocate h₁' h₂' hf
    exact ⟨pid, rfl, rfl, hp, (inFlightCount_congr rfl).trans hcount⟩

theorem putMeta_of_queue {dq : Queue} (hd : c.queue t q = some dq) :
    c.putMeta t q dq.ident s m' = c.putQueue t q { dq with metas := dq.metas.set s m' } := by
  simp only [putMeta, hd, if_true]

theorem sameShape_putQueue {dq : Queue} (hd : c.queue t q = some dq) (hm : s ∈ dq.metas.keys) :
    SameShape c (c.putQueue t q { dq with metas := dq.metas.set s m' }) := by
  constructor
  · intro t'
    by_cases ht : t' = t
    · subst ht
      simp only [putQueue, Function.update_self]
      exact PyDict.keys_set_of_mem (PyDict.mem_keys_iff.mpr ⟨dq, hd⟩)
    · simp only [putQueue, Function.update_of_ne ht]
  · intro t' q'
    rw [queue_putQueue]
    split_ifs with hk
    · rw [hk.1, hk.2, hd]
      simp only [Option.map_some, PyDict.keys_set_of_mem hm]
    · rfl

theorem held_putQueue {dq : Queue} (hd : c.queue t q = some dq) (k : Slot) :
    (c.putQueue t q { dq with metas := dq.metas.set s m' }).held k =
      if k = (t, q, s) then some m' else c.held k := by
  obtain ⟨t', q', s'⟩ := k
  rw [held, held, entry_putQueue]
  by_cases hk : t' = t ∧ q' = q
  · obtain ⟨rfl, rfl⟩ := hk
    rw [if_pos ⟨rfl, rfl⟩, PyDict.get?_set, ← entry_of_queue hd]
    simp only [Prod.mk.injEq, true_and]
  · rw [if_neg hk, if_neg]
    intro h
    cases h
    exact hk ⟨rfl, rfl⟩

theorem turn_of_walkStep {dq : Queue} {sent : List Publish} (hn : g.next c = .yield s m g')
    (hd : c.queue g.msgType g.queueIdHex = some dq) (hi : dq.ident = g.ident)
    (hm : dq.metas.get? s = some m) (hp : c.pipeAlive = true)
    (hpub : Republishable A d now draw c m)
    (hw : walkStep A d now draw g c = some (pc, c₁)) (hs : c₁.sent = c.sent ++ sent) :
    pc.pass = some g' ∧ SameShape c c₁ ∧ c₁.pipeAlive = true ∧
      c₁.inFlightCount ≤ c.inFlightCount + 1 ∧
      ∃ m', Turn d now ⟨(g.msgType, g.queueIdHex, s), c.done m, sent⟩ m m' ∧
        ∀ k, c₁.held k = if k = (g.msgType, g.queueIdHex, s) then some m' else c.held k := by
  unfold walkStep at hw
  simp only [hn, hp, Bool.true_eq_false, if_false] at hw
  cases hr : republishMeta A d g now draw s m c with
  | none => rw [hr] at hw; cases hw
  | some res =>
    rw [hr] at hw
    cases res with
    | skip =>
      cases hw
      obtain rfl : sent = [] := by simpa using hs
      refine ⟨rfl, .of_msgQueues rfl, hp, by omega, m, .skipped rfl (why_of_republishMeta hr),
        fun k => ?_⟩
      split_ifs with hk
      · rw [hk, held, entry_of_queue hd, hm]
      · rfl
    | published c' =>
      cases hw
      have hdue : Due d now draw c m := by
        obtain ⟨-, -, hc⟩ | ⟨hdue, -⟩ | ⟨-, e, c'', hc⟩ := republishMeta_cases hr
        · cases hc
        · exact hdue
        · cases hc
      have hpb := publish_of_republishMeta hr
      rw [← hi, putMeta_of_queue hd] at hpb
      obtain ⟨pid, hsent, hqueues, halive, hcount⟩ := publish_safePipeSend_eq_ok hpb hp
      have hput : SameShape c (c.putQueue g.msgType g.queueIdHex { dq with
          metas := dq.metas.set s { m with updated := now, attempts := m.attempts + 1 } }) :=
        sameShape_putQueue hd (PyDict.mem_keys_iff.mpr ⟨m, hm⟩)
      have hshape : SameShape c c₁ := hput.trans (.of_msgQueues hqueues)
      obtain rfl : sent = [⟨m.destPkHex, m.out, pid⟩] :=
        List.append_cancel_left (hs.symm.trans hsent)
      refine ⟨rfl, hshape, halive, hcount.le, _, .published rfl hdue.repeated ?_ hdue.young,
        fun k => ?_⟩
      · have hwanted := hdue.wanted
        rw [← Bool.not_eq_true, Bool.and_eq_true] at hwanted
        exact hwanted
      · rw [← held_putQueue hd, held_of_msgQueues hqueues]
    | raised e c' =>
      obtain ⟨-, -, hc⟩ | ⟨-, -, c'', hc⟩ | ⟨hno, -⟩ := republishMeta_cases hr
      · cases hc
      · cases hc
      · exact absurd hpub hno

structure Swept (d : Dispatcher) (now : ℚ) (c : MQTTClient KP) (l : List Considered)
    (c' : MQTTClient KP) : Prop where
  shape : SameShape c c'
  kept : ∀ k, k ∉ l.map Considered.slot → c'.held k = c.held k
  turned : ∀ x ∈ l, ∃ m m', c.held x.slot = some m ∧ Turn d now x m m' ∧ c'.held x.slot = some m'

theorem Swept.nil (hs : SameShape c c') (hk : ∀ k, c'.held k = c.held k) :
    Swept d now c [] c' :=
  ⟨hs, fun k _ => hk k, fun x hx => by cases hx⟩

theorem Swept.of_msgQueues (hu : c₁.msgQueues = c.msgQueues) (h : Swept d now c₁ l c') :
    Swept d now c l c' := by
  refine ⟨(SameShape.of_msgQueues hu).trans h.shape, fun k hk => ?_, fun x hx => ?_⟩
  · rw [h.kept k hk, held_of_msgQueues hu]
  · obtain ⟨m, m', hm, ht, hm'⟩ := h.turned x hx
    exact ⟨m, m', held_of_msgQueues hu _ ▸ hm, ht, hm'⟩

theorem Swept.cons (hs : SameShape c c₁) (hm : c.held x.slot = some m) (ht : Turn d now x m m')
    (hk : ∀ k, c₁.held k = if k = x.slot then some m' else c.held k)
    (hx : x.slot ∉ l.map Considered.slot) (h : Swept d now c₁ l c') :
    Swept d now c (x :: l) c' := by
  refine ⟨hs.trans h.shape, fun k hkl => ?_, fun y hy => ?_⟩
  · rw [List.map_cons, List.mem_cons, not_or] at hkl
    rw [h.kept k hkl.2, hk, if_neg hkl.1]
  · rcases List.mem_cons.mp hy with rfl | hy
    · refine ⟨m, m', hm, ht, ?_⟩
      rw [h.kept _ hx, hk, if_pos rfl]
    · obtain ⟨m₁, m₁', hm₁, ht₁, hm₁'⟩ := h.turned y hy
      have hne : y.slot ≠ x.slot := fun he => hx (he ▸ List.mem_map_of_mem hy)
      rw [hk, if_neg hne] at hm₁
      exact ⟨m₁, m₁', hm₁, ht₁, hm₁'⟩

theorem swept_of_pass (h : Pass A d now pc c l c') (hg : pc.pass = some g) (hin : Inside c g)
    (hp : c.pipeAlive = true) (hnd : (c.todo g).Nodup) :
    l.map Considered.slot = c.todo g ∧ Swept d now c l c' := by
  induction h generalizing g with
  | done => cases hg
  | @resume c c₁ c' g₀ l hu h ih =>
    cases hg
    have hs : SameShape c c₁ := .of_msgQueues hu.msgQueues
    rw [← hs.todo] at hnd ⊢
    obtain ⟨hl, hsw⟩ := ih rfl (hs.inside hin) hu.pipe hnd
    exact ⟨hl, hsw.of_msgQueues hu.msgQueues⟩
  | @quiet c c₁ c' g₀ pc l draw hn hw h ih =>
    cases hg
    obtain ⟨_, s, m, g', hy, -⟩ | ⟨g', hy, hin', htodo, -⟩ | ⟨hy, htodo⟩ := next_inside hin
    · exact absurd hy (hn s m g')
    · simp only [walkStep, hy] at hw
      cases hw
      rw [htodo] at hnd ⊢
      exact ih rfl hin' hp hnd
    · simp only [walkStep, hy] at hw
      cases hw
      cases h
      rw [htodo]
      exact ⟨rfl, .nil (.of_msgQueues rfl) fun _ => rfl⟩
  | @consider c c₁ c' g₀ g' s m pc sent l draw hn hpub hw hs h ih =>
    cases hg
    obtain ⟨dq, s', m', g'', hy, hd, hi, hm, hin', htodo, -⟩ | ⟨g'', hy, -⟩ | ⟨hy, -⟩ :=
      next_inside hin
    · rw [hn] at hy
      cases hy
      obtain ⟨hpc, hshape, halive, -, m', hturn, hheld⟩ :=
        turn_of_walkStep hn hd hi hm hp hpub hw hs
      rw [htodo, List.nodup_cons] at hnd
      obtain ⟨hl, hsw⟩ := ih hpc (hshape.inside hin') halive (by rw [hshape.todo]; exact hnd.2)
      rw [hshape.todo] at hl
      rw [htodo, List.map_cons, hl]
      refine ⟨rfl, .cons hshape ?_ hturn hheld (by rw [hl]; exact hnd.1) hsw⟩
      rw [held, entry_of_queue hd, hm]
    · rw [hn] at hy
      cases hy
    · rw [hn] at hy
      cases hy

/-- From the start, a pass comes to every queued message. -/
theorem swept_of_whole_pass (h : Pass A d now (.walking now .start) c l c')
    (hp : c.pipeAlive = true) : l.map Considered.slot = c.todo .start ∧ Swept d now c l c' :=
  swept_of_pass h rfl (inside_start c) hp (ascending_todo_start c).nodup

theorem exists_walkStep (d : Dispatcher) (now : ℚ) (g : Gen) (c : MQTTClient KP) :
    ∃ pc c₁, walkStep A d now 0 g c = some (pc, c₁) := by
  unfold walkStep
  split
  · exact ⟨_, _, rfl⟩
  · exact ⟨_, _, rfl⟩
  · exact ⟨_, _, rfl⟩
  · rename_i s m g' _
    split_ifs
    · exact ⟨_, _, rfl⟩
    · have hr : republishMeta A d g now 0 s m c ≠ none := by
        unfold republishMeta
        cases currentBackoff d.interval d.republishDuration m.attempts with
        | error e => split_ifs <;> exact Option.some_ne_none _
        | ok backoff =>
          simp only [if_neg (not_or.mpr ⟨not_lt.mpr (min_le_left 0 backoff),
            not_lt.mpr (le_max_left 0 backoff)⟩)]
          split_ifs <;> try exact Option.some_ne_none _
          split <;> exact Option.some_ne_none _
      cases hres : republishMeta A d g now 0 s m c with
      | none => exact absurd hres hr
      | some res => cases res <;> exact ⟨_, _, rfl⟩

theorem SameShape.turns (h : SameShape c c') (g : Gen) : c'.turns g = c.turns g := by
  simp only [MQTTClient.turns, h.keys]

/-- A pass over messages that can be addressed and were not published too often comes to its end if
there are packet ids for all of them. -/
theorem exists_pass (d : Dispatcher) (now : ℚ) (hin : Inside c g) (hp : c.pipeAlive = true)
    (hnd : (c.todo g).Nodup)
    (hok : ∀ k ∈ c.todo g, ∀ m, c.held k = some m →
      A.isAscii m.destPkHex = true ∧ d.interval.Scalable m.attempts)
    (hids : c.inFlightCount + (c.todo g).length ≤ 65535) :
    ∃ l c', Pass A d now (.walking now g) c l c' := by
  -- every step uses up a slot, or a queue or a table that is still ahead
  induction hn : (c.todo g).length + c.turns g using Nat.strong_induction_on generalizing c g with
  | _ n ih =>
    obtain ⟨pc, c₁, hw⟩ : ∃ pc c₁, walkStep A d now 0 g c = some (pc, c₁) :=
      exists_walkStep d now g c
    obtain ⟨dq, s, m, g', hy, hq, hi, hm, hin', htodo, hturns⟩ | ⟨g', hy, hin', htodo, hturns⟩ |
      ⟨hy, -⟩ := next_inside hin
    · have hkm : c.held (g.msgType, g.queueIdHex, s) = some m := by
        rw [held, entry_of_queue hq, hm]
      rw [htodo, List.length_cons] at hids hn
      rw [htodo, List.nodup_cons] at hnd
      obtain ⟨hascii, hscale⟩ := hok _ (by rw [htodo]; exact List.mem_cons_self) m hkm
      have hpub : Republishable A d now 0 c m :=
        ⟨fun _ _ => hscale, fun _ => ⟨hascii, (freeId_iff c).mpr (by omega)⟩⟩
      obtain ⟨sent, hs⟩ := (writes_walkStep (P := fun _ => True) hw).grows.sent
      obtain ⟨hpc, hshape, halive, hcount, m', hturn, hheld⟩ :=
        turn_of_walkStep hy hq hi hm hp hpub hw hs.symm
      obtain ⟨l, c', h⟩ : ∃ l c', Pass A d now (.walking now g') c₁ l c' := by
        apply ih _ _ (hshape.inside hin') halive _ _ _ rfl
        · rw [hshape.todo, hshape.turns]
          omega
        · rw [hshape.todo]
          exact hnd.2
        · intro k hk m₁ hm₁
          rw [hshape.todo] at hk
          have hne : k ≠ (g.msgType, g.queueIdHex, s) := fun he => hnd.1 (he ▸ hk)
          rw [hheld, if_neg hne] at hm₁
          exact hok k (by rw [htodo]; exact List.mem_cons_of_mem _ hk) m₁ hm₁
        · rw [hshape.todo]
          omega
      have hpc' : Pass A d now pc c₁ l c' := by
        cases pc with
        | walking now' g₁ =>
          obtain rfl : now' = now := startedAt_walkStep hw rfl
          cases hpc
          exact h
        | publishing now' g₁ =>
          obtain rfl : now' = now := startedAt_walkStep hw rfl
          cases hpc
          exact .resume ⟨rfl, halive⟩ h
        | _ => cases hpc
      exact ⟨_, c', .consider 0 hy hpub hw hs.symm hpc'⟩
    · rw [htodo] at hids hn hnd hok
      obtain ⟨l, c', h⟩ := ih _ (by omega) hin' hp hnd hok hids rfl
      exact ⟨l, c', .quiet 0 (by simp [hy]) (by simp only [walkStep, hy]) h⟩
    · exact ⟨[], c, .quiet 0 (by simp [hy]) (by simp only [walkStep, hy]) .done⟩

def bumped (m : Meta) (times : List ℚ) : Meta :=
  { m with updated := times.getLast?.getD 0, attempts := times.length }

theorem publications_append (log : List Round) (r : Round) (k : Slot) :
    publications (log ++ [r]) k = publications log k ++
      (r.considered.filter fun x => x.slot = k ∧ x.sent ≠ []).map fun _ => r.now := by
  simp [publications]

theorem publications_of_mem (hnd : (l.map Considered.slot).Nodup) (hx : x ∈ l) :
    publications (log ++ [⟨now, l⟩]) x.slot =
      publications log x.slot ++ if x.sent = [] then [] else [now] := by
  rw [publications_append]
  congr 1
  have hf : l.filter (fun y => y.slot = x.slot ∧ y.sent ≠ []) =
      if x.sent = [] then [] else [x] := by
    induction l with
    | nil => cases hx
    | cons y l ih =>
      rw [List.map_cons, List.nodup_cons] at hnd
      rcases List.mem_cons.mp hx with rfl | hx
      · have hrest : l.filter (fun y => y.slot = x.slot ∧ y.sent ≠ []) = [] := by
          rw [List.filter_eq_nil_iff]
          intro y hy he
          rw [decide_eq_true_iff] at he
          exact hnd.1 (he.1 ▸ List.mem_map_of_mem hy)
        rw [List.filter_cons, hrest]
        split_ifs with h₁ h₂ h₂ <;> simp_all
      · have hne : y.slot ≠ x.slot := fun he => hnd.1 (he ▸ List.mem_map_of_mem hx)
        rw [List.filter_cons, if_neg (by simp [hne]), ih hnd.2 hx]
  simp only [hf]
  split_ifs <;> rfl

theorem held_of_passes (h : Passes A d c₀ log c)
    (hfresh : ∀ k m, c₀.held k = some m → m.updated = 0 ∧ m.attempts = 0) :
    SameShape c₀ c ∧
      ∀ k m, c₀.held k = some m → c.held k = some (bumped m (publications log k)) := by
  induction h with
  | start =>
    refine ⟨.of_msgQueues rfl, fun k m hm => ?_⟩
    obtain ⟨hu, ha⟩ := hfresh k m hm
    rw [hm, bumped]
    obtain ⟨_, _, _, _, _, _, _, _⟩ := m
    cases hu
    cases ha
    rfl
  | @pass log c c₁ c' now l hp hu h ih =>
    obtain ⟨hshape, hheld⟩ := ih
    obtain ⟨hl, hsw⟩ := swept_of_whole_pass h hu.pipe
    have hasc := ascending_todo_start c₁
    rw [← hl] at hasc
    refine ⟨hshape.trans ((SameShape.of_msgQueues hu.msgQueues).trans hsw.shape), fun k m hm => ?_⟩
    have hm₁ : c₁.held k = some (bumped m (publications log k)) := by
      rw [held_of_msgQueues hu.msgQueues, hheld k m hm]
    have hk : k ∈ l.map Considered.slot := by
      rw [hl, mem_todo_start (t := k.1) (q := k.2.1) (s := k.2.2)]
      exact Option.isSome_iff_exists.mpr ⟨_, hm₁⟩
    obtain ⟨x, hx, rfl⟩ := List.mem_map.mp hk
    obtain ⟨m₁, m₁', hm₁', hturn, hc'⟩ := hsw.turned x hx
    rw [hm₁] at hm₁'
    cases hm₁'
    rw [hc', publications_of_mem hasc.nodup hx]
    cases hturn with
    | skipped hs => rw [if_pos hs, List.append_nil]
    | published hs =>
      rw [if_neg (by rw [hs]; exact List.cons_ne_nil _ _)]
      simp [bumped]

theorem Passes.of_prefix (h : Passes A d c₀ log c) {earlier : List Round} (hpre : earlier <+: log) :
    ∃ c₁, Passes A d c₀ earlier c₁ := by
  induction h with
  | start =>
    obtain rfl : earlier = [] := List.prefix_nil.mp hpre
    exact ⟨c₀, .start⟩
  | pass hp hu h ih =>
    rcases List.prefix_concat_iff.mp hpre with rfl | hpre
    · exact ⟨_, .pass hp hu h⟩
    · exact ih hpre

structure Wanted (d : Dispatcher) (now : ℚ) (x : Considered) (m : Meta) : Prop where
  repeated : m.probeOneShot = false
  unacked : ¬ (d.ignoreAcked = true ∧ x.acked = true)
  young : now < m.created + d.republishDuration

/-- What a pass does with a message that was queued as `m`, after the passes before it. -/
structure OnSchedule (d : Dispatcher) (earlier : List Round) (now : ℚ) (x : Considered) (m : Meta) :
    Prop where
  packet : x.sent = [] ∨ ∃ pid, x.sent = [⟨m.destPkHex, m.out, pid⟩]
  wanted : x.sent ≠ [] → Wanted d now x m
  opening : Wanted d now x m → (∀ r ∈ earlier, m.created + d.republishDuration ≤ r.now) →
    x.sent ≠ []
  first : Wanted d now x m → publications earlier x.slot = [] → x.sent ≠ []
  again : Wanted d now x m → ∀ last ∈ (publications earlier x.slot).getLast?,
    d.longestWait (publications earlier x.slot).length ≤ now - last → x.sent ≠ []

/-- The last pass of a run: what it comes to, and what it makes of the metas as they are by then. -/
theorem turns_of_passes {r : Round} (h : Passes A d c₀ (log ++ [r]) c)
    (hfresh : ∀ k m, c₀.held k = some m → m.updated = 0 ∧ m.attempts = 0) :
    (∀ k, k ∈ r.considered.map Considered.slot ↔ (c₀.held k).isSome) ∧
      Ascending (r.considered.map Considered.slot) ∧
      ∀ x ∈ r.considered, ∃ m m', c₀.held x.slot = some m ∧
        Turn d r.now x (bumped m (publications log x.slot)) m' := by
  generalize hlog : log ++ [r] = whole at h
  cases h with
  | start => simp at hlog
  | @pass log' c c₁ c' now l hp hu h =>
    obtain ⟨rfl, hr⟩ := List.append_inj' hlog rfl
    cases hr
    obtain ⟨hshape, hheld⟩ := held_of_passes hp hfresh
    obtain ⟨hl, hsw⟩ := swept_of_whole_pass h hu.pipe
    have hmem : ∀ k, k ∈ l.map Considered.slot ↔ (c₀.held k).isSome := by
      rintro ⟨t, q, s⟩
      rw [hl, (hshape.trans (.of_msgQueues hu.msgQueues)).todo, mem_todo_start]
      rfl
    refine ⟨hmem, hl ▸ ascending_todo_start c₁, fun x hx => ?_⟩
    obtain ⟨m, hm⟩ := Option.isSome_iff_exists.mp ((hmem x.slot).mp (List.mem_map_of_mem hx))
    obtain ⟨m₁, m', hm₁, hturn, -⟩ := hsw.turned x hx
    rw [held_of_msgQueues hu.msgQueues, hheld _ m hm] at hm₁
    cases hm₁
    exact ⟨m, m', hm, hturn⟩

theorem Turn.wanted {times : List ℚ} (h : Turn d now x (bumped m times) m') (hs : x.sent ≠ []) :
    Wanted d now x m := by
  cases h with
  | skipped hs' => exact absurd hs' hs
  | published hs' hrep hwant hyoung => exact ⟨hrep, hwant, sub_lt_iff_lt_add'.mp hyoung⟩

theorem Turn.sent {times : List ℚ} (h : Turn d now x (bumped m times) m') (hw : Wanted d now x m)
    (hb : d.longestWait times.length ≤ now - times.getLast?.getD 0) : x.sent ≠ [] := by
  cases h with
  | skipped hs why =>
    rcases why with hone | hack | hsoon | hold
    · exact absurd (hw.repeated.symm.trans hone) (by decide)
    · exact absurd hack hw.unacked
    · exact absurd hb (not_le.mpr hsoon)
    · exact absurd hw.young (not_lt.mpr (le_sub_iff_add_le'.mp hold))
  | published hs =>
    rw [hs]
    exact List.cons_ne_nil _ _

theorem publications_young (h : Passes A d c₀ log c)
    (hfresh : ∀ k m, c₀.held k = some m → m.updated = 0 ∧ m.attempts = 0)
    (hm : c₀.held k = some m) :
    ∀ τ ∈ publications log k, ∃ r ∈ log, r.now = τ ∧ τ < m.created + d.republishDuration := by
  induction h with
  | start =>
    intro τ hτ
    cases hτ
  | @pass log c c₁ c' now l hp hu h ih =>
    intro τ hτ
    rw [publications_append, List.mem_append] at hτ
    rcases hτ with hτ | hτ
    · obtain ⟨r, hr, hrest⟩ := ih τ hτ
      exact ⟨r, List.mem_append_left _ hr, hrest⟩
    · obtain ⟨x, hx, rfl⟩ := List.mem_map.mp hτ
      obtain ⟨hxl, hx⟩ := List.mem_filter.mp hx
      obtain ⟨hk, hs⟩ := of_decide_eq_true hx
      obtain ⟨-, -, hturns⟩ := turns_of_passes (.pass hp hu h) hfresh
      obtain ⟨m₁, m', hm₁, hturn⟩ := hturns x hxl
      rw [hk, hm] at hm₁
      cases hm₁
      exact ⟨⟨now, l⟩, by simp, rfl, (hturn.wanted hs).young⟩

theorem longestWait_le (d : Dispatcher) (n : ℕ) : d.longestWait n ≤ 60 :=
  max_le (by norm_num) ((min_le_right _ _).trans (min_le_left _ _))

/-- The retransmission schedule: every pass comes to every queued message once, in ascending order
within a queue, and publishes those that are wanted unless they were published within the backoff;
the attempts of a message are its publications. -/
theorem retransmission_schedule (A : Aio KP) (hrun : Passes A d c₀ log c)
    (hfresh : ∀ k m, c₀.held k = some m → m.updated = 0 ∧ m.attempts = 0)
    (hnow : ∀ r ∈ log, 60 ≤ r.now) :
    (∀ earlier r later, log = earlier ++ r :: later →
      (∀ k, k ∈ r.considered.map Considered.slot ↔ (c₀.held k).isSome) ∧
      (r.considered.map Considered.slot).Nodup ∧ Ascending (r.considered.map Considered.slot) ∧
      ∀ x ∈ r.considered, ∃ m, c₀.held x.slot = some m ∧ OnSchedule d earlier r.now x m) ∧
    ∀ k m, c₀.held k = some m →
      ∃ m', c.held k = some m' ∧ m'.attempts = (publications log k).length := by
  refine ⟨?_, fun k m hm => ⟨_, (held_of_passes hrun hfresh).2 k m hm, rfl⟩⟩
  rintro earlier r later rfl
  obtain ⟨c₁, hrun₁⟩ := hrun.of_prefix (List.prefix_append earlier (r :: later))
  have hpre : earlier ++ [r] <+: earlier ++ r :: later := by simp
  obtain ⟨c₂, hrun₂⟩ := hrun.of_prefix hpre
  obtain ⟨hmem, hasc, hturns⟩ := turns_of_passes hrun₂ hfresh
  refine ⟨hmem, hasc.nodup, hasc, fun x hx => ?_⟩
  obtain ⟨m, m', hm, hturn⟩ := hturns x hx
  have hfirst : Wanted d r.now x m → publications earlier x.slot = [] → x.sent ≠ [] := by
    intro hw he
    apply hturn.sent hw
    rw [he]
    have hr : 60 ≤ r.now := hnow r (by simp)
    simpa using (longestWait_le _ _).trans hr
  refine ⟨m, hm, ?_, hturn.wanted, fun hw hlate => ?_, hfirst, fun hw last hlast hb => ?_⟩
  · cases hturn with
    | skipped hs => exact .inl hs
    | published hs => exact .inr ⟨_, hs⟩
  · apply hfirst hw
    rw [List.eq_nil_iff_forall_not_mem]
    intro τ hτ
    obtain ⟨r', hr', rfl, hlt⟩ := publications_young hrun₁ hfresh hm τ hτ
    exact absurd (hlate r' hr') (not_le.mpr hlt)
  · apply hturn.sent hw
    rw [Option.mem_def.mp hlast]
    exact hb

open Concrete

def hello : Meta where
  appAck := 1
  destPkHex := concrete.pkHex 2
  seqNo := 0
  out := [0x68, 0x69]
  updated := 0
  created := 100
  attempts := 0
  probeOneShot := false

def greeting (ids : PyDict ℕ ℕ) : MQTTClient ℕ :=
  { init 1 HandlerSet.empty with
    pipe := some ⟨false⟩
    republishDuration := 60
    msgQueues := Function.update (fun _ => ∅) .msg
      (PyDict.set ∅ (queueId 'a') ⟨0, PyDict.set ∅ 0 hello⟩)
    packetIds := fun _ => ids }

/-- The defaults of `connect`. -/
def defaults : Dispatcher := ⟨60, .int 2, 10, false, 100, .reconnecting⟩

theorem queue_greeting (ids : PyDict ℕ ℕ) :
    (greeting ids).queue .msg (queueId 'a') = some ⟨0, PyDict.set ∅ 0 hello⟩ := by
  simp [MQTTClient.queue, greeting]

theorem held_greeting_msg (ids : PyDict ℕ ℕ) :
    (greeting ids).held (.msg, queueId 'a', 0) = some hello := by
  rw [held, entry_of_queue (queue_greeting ids), PyDict.get?_set_self]

theorem held_greeting {ids : PyDict ℕ ℕ} (h : (greeting ids).held k = some m) : m = hello := by
  obtain ⟨t, q, s⟩ := k
  rw [held, entry, MQTTClient.queue, greeting] at h
  cases t with
  | msg =>
    simp only [Function.update_self, PyDict.get?_set, PyDict.get?_empty] at h
    split_ifs at h
    · simp only [Option.bind_some, PyDict.get?_set, PyDict.get?_empty] at h
      split_ifs at h
      exact (Option.some.inj h).symm
    · cases h
  | msgack => cases h
  | probe => cases h

/-- The first pass publishes the message. -/
theorem retransmission_schedule_greeting :
    ∃ l c, Passes concrete defaults (greeting ∅) [⟨100, l⟩] c ∧
      (∃ x ∈ l, x.slot = (.msg, queueId 'a', 0) ∧ x.sent ≠ []) ∧
      ∃ m', c.held (.msg, queueId 'a', 0) = some m' ∧
        m'.attempts = (publications [⟨100, l⟩] (.msg, queueId 'a', 0)).length := by
  have hcount : (greeting ∅).inFlightCount = 0 := by
    rw [inFlightCount, Finset.card_eq_zero, Finset.filter_eq_empty_iff]
    intro pid _
    exact Bool.false_ne_true
  have hlen : ((greeting ∅).todo .start).length = 1 := by decide +kernel
  obtain ⟨l, c, hpass⟩ := exists_pass (A := concrete) (c := greeting ∅) defaults 100
    (inside_start (greeting ∅)) rfl (ascending_todo_start _).nodup
    (fun k _ m hm => held_greeting hm ▸ by decide +kernel) (by omega)
  have hrun : Passes concrete defaults (greeting ∅) [⟨100, l⟩] c := .pass .start ⟨rfl, rfl⟩ hpass
  have hheld := held_greeting_msg ∅
  obtain ⟨hrounds, hattempts⟩ := retransmission_schedule concrete hrun
    (fun k m hm => by rw [held_greeting hm]; exact ⟨rfl, rfl⟩) (by simp; norm_num)
  refine ⟨l, c, hrun, ?_, hattempts _ _ hheld⟩
  obtain ⟨hmem, -, -, hturns⟩ := hrounds [] ⟨100, l⟩ [] rfl
  have hslot := (hmem (.msg, queueId 'a', 0)).mpr (by rw [hheld]; rfl)
  obtain ⟨x, hx, hk⟩ := List.mem_map.mp hslot
  refine ⟨x, hx, hk, ?_⟩
  obtain ⟨m, hm, hon⟩ := hturns x hx
  obtain rfl := held_greeting hm
  refine hon.first ⟨rfl, ?_, by norm_num [hello, defaults]⟩ rfl
  rintro ⟨h, -⟩
  cases h

def allIds : PyDict ℕ ℕ where
  entries := (List.range 65535).map fun n => (n + 1, n)
  nodup := by
    rw [List.map_map]
    exact List.nodup_range.map fun _ _ => Nat.succ.inj

theorem not_freeId_allIds : ¬ FreeId (greeting allIds) := by
  rintro ⟨pid, h₁, h₂, hf⟩
  have hmem : pid ∈ allIds.keys := by
    simp only [PyDict.keys, allIds, List.map_map, List.mem_map, List.mem_range, Function.comp_apply]
    exact ⟨pid - 1, by omega, by omega⟩
  have hc : allIds.contains pid = true := PyDict.contains_iff.mpr hmem
  simp only [inFlight, greeting, hc, Bool.or_true] at hf
  cases hf

def addressedByName : List (Action Unit) :=
  [.queueMsg () 0 (.str "hi") (String.ofList (List.replicate 66 'é')) (queueId 'a') .msg none,
    .dispatch () 0, .dispatch () 0, .dispatch () 0, .dispatch () 0]

/-- A message that cannot be addressed is counted as attempted, never published, and ends the pass;
one that finds no packet id ends it too, and so does one that was published 1024 times at a float
interval. -/
theorem not_on_schedule :
    (∃ r, Machine.run (Router.step concrete) (connected 1 ⟨[5], by decide⟩ 100) addressedByName =
        some r ∧
      (r.dispatchers ()).pc = .finished (.raised (.valueError "topic must be ASCII")) ∧
      (r.clients ()).sent = [] ∧ ((r.clients ()).entry .msg (queueId 'a') 0).any fun m =>
        m.probeOneShot = false ∧ m.created = 100 ∧ m.attempts = 1) ∧
    (greeting allIds).held (.msg, queueId 'a', 0) = some hello ∧
    (∀ draw pc c', draw ≤ 60 →
      walkStep concrete defaults 100 draw ⟨[], .msg, [], queueId 'a', 0, [0]⟩ (greeting allIds) =
        some (pc, c') → ∃ e, pc = .finished (.raised e)) ∧
    ∀ (now draw : ℚ) (c : MQTTClient ℕ), republishMeta concrete { defaults with interval := .float 2 }
      ⟨[], .msg, [], queueId 'a', 0, []⟩ now draw 0 { hello with attempts := 1024 } c =
        some (.raised (.overflowError "int too large to convert to float") c) := by
  refine ⟨?_, held_greeting_msg allIds, fun draw pc c' hdraw hw => ?_, fun _ _ _ => rfl⟩
  · obtain ⟨r, hr, he⟩ := Machine.exists_run_of_any (Router.step concrete)
      (connected 1 ⟨[5], by decide⟩ 100) addressedByName
      (fun r => decide (
        (r.dispatchers ()).pc = .finished (.raised (.valueError "topic must be ASCII")) ∧
        (r.clients ()).sent = [] ∧ ((r.clients ()).entry .msg (queueId 'a') 0).any fun m =>
          m.probeOneShot = false ∧ m.created = 100 ∧ m.attempts = 1)) (by decide +kernel)
    exact ⟨r, hr, of_decide_eq_true he⟩
  · apply (walkStep_raised_iff hw).mpr
    intro hclear
    have hdue : Due defaults 100 draw (greeting allIds) hello := by
      refine ⟨rfl, rfl, ?_, ?_⟩
      · norm_num [hello]
        linarith
      · norm_num [hello, defaults]
    have hget : ((greeting allIds).queueObject .msg (queueId 'a') 0).get? 0 = some hello := by
      rw [queueObject_of_queue (queue_greeting allIds), PyDict.get?_set_self]
    exact not_freeId_allIds ((hclear.publication 0 [] hello rfl hget rfl).publication hdue).2

end MQTTClient

end Sidewire
