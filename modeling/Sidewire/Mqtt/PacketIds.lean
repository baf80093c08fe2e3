import Sidewire.Lib.Machine
import Sidewire.Mqtt.Alike
import Sidewire.Mqtt.Publishing

/-! # Packet ids in flight

Two tables lead from the packet ids in flight to the futures that wait for their
acknowledgements. An id is taken when it is in neither table, and given back by
an acknowledgement or a reset; a caller that stops waiting leaves its id behind.
-/

namespace Sidewire

variable {KP : Type}

inductive AckResult
  | codes (returnCodes : Bytes)
  | received
  deriving DecidableEq, Repr

inductive Future
  | pending
  | result (r : AckResult)
  | cancelled
  deriving DecidableEq, Repr

namespace Future

def done : Future → Bool
  | pending => false
  | _ => true

def cancel : Future → Future
  | pending => cancelled
  | f => f

theorem done_cancel (f : Future) : f.cancel.done = true := by cases f <;> rfl

end Future

/-- A client with the futures of its packet ids, by identity. -/
structure InFlight (KP : Type) where
  client : MQTTClient KP
  futures : ℕ → Future

/-- A packet id as `get_packet_id` returns it. -/
def packId (pid : ℕ) : Bytes := BigEndian.toBytes 2 pid

def buildSubscribe (A : Aio KP) (topic : String) (packetId : Bytes) : Except PyExc Bytes := do
  let topicBytes ← mqttEncStr A topic
  let pl := topicBytes ++ [0x01]
  return [0x82] ++ mqttEncodeVarint (packetId.length + pl.length) ++ packetId ++ pl

namespace MQTTClient

variable (A : Aio KP)

/-- `subscribe`; the future it returns is the one in the table under the packet id. -/
def subscribe (topic : String) : ClientM KP (Bytes × ℕ) := do
  let pid ← packetAckFuture .suback
  let buf ← ofExcept (buildSubscribe A topic (packId pid))
  return (buf, pid)

/-- `publish` with the packet that it builds. -/
def publishBuf (topic : String) (payload : Bytes) (dup : Bool) : ClientM KP (Bytes × ℕ) := do
  let p ← publish A topic payload
  let buf ← ofExcept (buildPublish A topic (.bytes payload) (packId p.packetId) dup)
  return (buf, p.packetId)

def registeredAs (c : MQTTClient KP) (t : AckType) (packetId : Bytes) : Option (ℕ × ℕ) :=
  (c.packetIds t).entries.find? fun e => packId e.1 = packetId

def awaits (c : MQTTClient KP) (f : ℕ) : Bool :=
  [AckType.suback, AckType.puback].any fun t => (c.packetIds t).entries.any fun e => e.2 = f

end MQTTClient

namespace InFlight

/-- `MQTTClient.__init__`. -/
def init (kp : KP) (handlers : HandlerSet) : InFlight KP := ⟨.init kp handlers, fun _ => .pending⟩

def lookup (s : InFlight KP) (t : AckType) (pid : ℕ) : Option ℕ := (s.client.packetIds t).get? pid

def ackResult (body : Bytes) : AckType → AckResult
  | .suback => .codes (body.drop 2)
  | .puback => .received

/-- `handle_broker_ack`, for the body of a packet. -/
def handleBrokerAck (s : InFlight KP) (t : AckType) (body : Bytes) : InFlight KP :=
  match s.client.registeredAs t (body.take 2) with
  | none => s
  | some (pid, f) =>
    if (s.futures f).done then s
    else
      { client := s.client.handleBrokerAck t pid
        futures := Function.update s.futures f (.result (ackResult body t)) }

def cancelAwaited (s : InFlight KP) (f : ℕ) : Future :=
  if s.client.awaits f then (s.futures f).cancel else s.futures f

/-- `reset_session_state` of `mqtt.utils`. -/
def resetSessionState (s : InFlight KP) : InFlight KP := ⟨s.client.resetSessionState, s.cancelAwaited⟩

/-- `MQTTClient.reset_session_state`, which leaves the counter as it is. -/
def resetClient (s : InFlight KP) : InFlight KP :=
  ⟨{ s.client with packetIds := fun _ => ∅, sentMsgIds := ∅ }, s.cancelAwaited⟩

/-- What is done on a client; a caller gives up a future when its `wait_for` times out. -/
inductive Op
  | subscribe (topic : String)
  | publish (topic : String) (payload : Bytes) (dup : Bool)
  | ack (t : AckType) (body : Bytes)
  | giveUp (f : ℕ)
  | resetSessionState
  | resetClient

open Exec MQTTClient in
def step (A : Aio KP) (s : InFlight KP) : Op → Option (InFlight KP)
  | .subscribe topic => some ⟨final (MQTTClient.subscribe A topic s.client), s.futures⟩
  | .publish topic payload dup =>
    some ⟨final (publishBuf A topic payload dup s.client), s.futures⟩
  | .ack t body => some (s.handleBrokerAck t body)
  | .giveUp f =>
    if f < s.client.nextObj then
      some { s with futures := Function.update s.futures f (s.futures f).cancel }
    else none
  | .resetSessionState => some s.resetSessionState
  | .resetClient => some s.resetClient

/-- The ids in the tables are numbers a packet can carry, no id is in both tables, and no future
is in a table twice. -/
structure Sound (s : InFlight KP) : Prop where
  valid : ∀ t pid f, s.lookup t pid = some f → 1 ≤ pid ∧ pid ≤ 65535
  apart : ∀ t t' pid f f', s.lookup t pid = some f → s.lookup t' pid = some f' → t = t'
  bound : ∀ t pid f, s.lookup t pid = some f → f < s.client.nextObj
  once : ∀ t t' pid pid' f, s.lookup t pid = some f → s.lookup t' pid' = some f →
    t = t' ∧ pid = pid'
  fresh : ∀ f, s.client.nextObj ≤ f → s.futures f = .pending

structure HandsOut (s s' : InFlight KP) (t : AckType) (pid : ℕ) : Prop where
  valid : 1 ≤ pid ∧ pid ≤ 65535
  free : s.client.inFlight pid = false
  lookup : ∀ t' m, s'.lookup t' m = if t' = t ∧ m = pid then some s.client.nextObj else s.lookup t' m
  futures : s'.futures = s.futures
  nextObj : s'.client.nextObj = s.client.nextObj + 1

structure Untouched (s s' : InFlight KP) : Prop where
  lookup : ∀ t m, s'.lookup t m = s.lookup t m
  futures : s'.futures = s.futures
  nextObj : s'.client.nextObj = s.client.nextObj

structure Resolves (s s' : InFlight KP) (t : AckType) (body : Bytes) (pid f : ℕ) : Prop where
  packId : packId pid = body.take 2
  registered : s.lookup t pid = some f
  pending : s.futures f = .pending
  futures : s'.futures = Function.update s.futures f (.result (ackResult body t))
  lookup : ∀ t' m, s'.lookup t' m = if t' = t ∧ m = pid then none else s.lookup t' m
  nextObj : s'.client.nextObj = s.client.nextObj

structure Empties (s s' : InFlight KP) : Prop where
  lookup : ∀ t m, s'.lookup t m = none
  futures : ∀ f, s'.futures f = if s.client.awaits f then (s.futures f).cancel else s.futures f
  nextObj : s'.client.nextObj = s.client.nextObj

/-- A call that takes a packet id hands one out. If it raises, it had not come to it, or the id
stays behind. -/
def Takes (s : InFlight KP) (t : AckType) (r : EStateM.Result PyExc (MQTTClient KP) (Bytes × ℕ)) :
    Prop :=
  (∀ buf pid d, r = .ok (buf, pid) d → s.HandsOut ⟨d, s.futures⟩ t pid) ∧
    ∀ e d, r = .error e d →
      s.Untouched ⟨d, s.futures⟩ ∨ ∃ pid, s.HandsOut ⟨d, s.futures⟩ t pid

end InFlight

theorem packId_injective {m n : ℕ} (hm : m ≤ 65535) (hn : n ≤ 65535) (h : packId m = packId n) :
    m = n := by
  rw [← BigEndian.ofBytes_toBytes (k := 2) (show m < 256 ^ 2 by omega),
    ← BigEndian.ofBytes_toBytes (k := 2) (show n < 256 ^ 2 by omega)]
  exact congrArg BigEndian.ofBytes h

namespace MQTTClient

open Exec

variable {A : Aio KP} {c d : MQTTClient KP} {t : AckType} {pid : ℕ}

theorem inFlight_eq_false_iff : c.inFlight pid = false ↔ ∀ t, (c.packetIds t).get? pid = none := by
  simp only [inFlight, PyDict.contains, Bool.or_eq_false_iff, Option.isSome_eq_false_iff,
    Option.isNone_iff_eq_none]
  constructor
  · rintro ⟨hs, hp⟩ t
    cases t
    · exact hs
    · exact hp
  · intro h
    exact ⟨h .suback, h .puback⟩

/-- The counter goes all the way round before the loop gives up. -/
theorem getPacketId_error_iff (c : MQTTClient KP) : (∃ e d, getPacketId c = .error e d) ↔
    ∀ pid, 1 ≤ pid → pid ≤ 65535 → c.inFlight pid = true := by
  have hfree : (∀ pid, 1 ≤ pid → pid ≤ 65535 → c.inFlight pid = true) ↔ ¬ FreeId c := by
    rw [FreeId]
    push Not
    simp only [ne_eq, Bool.not_eq_false]
  rw [hfree, ← getPacketId_ok_iff]
  cases getPacketId c with
  | ok pid d => simp
  | error e d => simp

theorem publishBuf_of_ascii {topic : String} (ha : A.isAscii topic = true) (payload : Bytes)
    (dup : Bool) (c : MQTTClient KP) : publishBuf A topic payload dup c =
      (packetAckFuture .puback >>= fun pid =>
        ofExcept (buildPublish A topic (.bytes payload) (packId pid) dup) >>= fun buf =>
          pure (buf, pid)) c := by
  rw [publishBuf, bind_apply, publish_of_ascii ha, bind_apply, bind_apply]
  generalize packetAckFuture .puback c = r
  cases r <;> rfl

theorem packetAckFuture_ok (h : packetAckFuture t c = .ok pid d) :
    1 ≤ pid ∧ pid ≤ 65535 ∧ c.inFlight pid = false ∧ d.nextObj = c.nextObj + 1 ∧
      d.packetIds = Function.update c.packetIds t ((c.packetIds t).set pid c.nextObj) := by
  obtain ⟨pid', c₁, hid, h⟩ := bind_eq_ok.mp h
  obtain ⟨h₁, h₂, hf, hc⟩ := getPacketIdLoop_eq_ok hid
  cases h
  rw [hc]
  exact ⟨h₁, h₂, hf, rfl, rfl⟩

theorem packetAckFuture_error {e : PyExc} (h : packetAckFuture t c = .error e d) :
    d = { c with packetId := d.packetId } := by
  rcases bind_eq_error.mp h with hid | ⟨pid, c₁, -, h⟩
  · obtain ⟨counter, hd⟩ := getPacketIdLoop_frame 65535 c
    rw [getPacketId] at hid
    rw [hid, final_error] at hd
    rw [hd]
  · cases h

end MQTTClient

namespace InFlight

open Exec MQTTClient

variable {A : Aio KP} {s s' : InFlight KP} {t : AckType} {pid : ℕ}

theorem handsOut_of_ok {d : MQTTClient KP} (h : packetAckFuture t s.client = .ok pid d) :
    s.HandsOut ⟨d, s.futures⟩ t pid := by
  obtain ⟨h₁, h₂, hf, hobj, hids⟩ := packetAckFuture_ok h
  refine ⟨⟨h₁, h₂⟩, hf, ?_, rfl, hobj⟩
  intro t' m
  simp only [lookup, hids, Function.update_apply]
  by_cases ht : t' = t
  · subst ht
    by_cases hm : m = pid
    · simp [hm]
    · simp [hm, PyDict.get?_set_ne hm]
  · simp [ht]

theorem untouched_of_error {e : PyExc} {d : MQTTClient KP}
    (h : packetAckFuture t s.client = .error e d) : s.Untouched ⟨d, s.futures⟩ := by
  rw [packetAckFuture_error h]
  exact ⟨fun _ _ => rfl, rfl, rfl⟩

theorem takes_bind (s : InFlight KP) (t : AckType) (build : ℕ → Except PyExc Bytes) :
    s.Takes t ((packetAckFuture t >>= fun pid =>
      MQTTClient.ofExcept (build pid) >>= fun buf => pure (buf, pid)) s.client) := by
  constructor
  · intro buf pid d h
    obtain ⟨pid', c₁, hid, h⟩ := bind_eq_ok.mp h
    obtain ⟨buf', c₂, hb, h⟩ := bind_eq_ok.mp h
    cases h
    cases hbuild : build pid with
    | ok b =>
      rw [hbuild] at hb
      cases hb
      exact handsOut_of_ok hid
    | error e =>
      rw [hbuild] at hb
      cases hb
  · intro e d h
    rcases bind_eq_error.mp h with hid | ⟨pid, c₁, hid, h⟩
    · exact Or.inl (untouched_of_error hid)
    · right
      rcases bind_eq_error.mp h with hb | ⟨buf, c₂, -, h⟩
      · cases hbuild : build pid with
        | ok b =>
          rw [hbuild] at hb
          cases hb
        | error e' =>
          rw [hbuild] at hb
          cases hb
          exact ⟨pid, handsOut_of_ok hid⟩
      · cases h

theorem takes_subscribe (A : Aio KP) (topic : String) (s : InFlight KP) :
    s.Takes .suback (MQTTClient.subscribe A topic s.client) :=
  takes_bind s .suback fun pid => buildSubscribe A topic (packId pid)

theorem takes_publishBuf (A : Aio KP) (topic : String) (payload : Bytes) (dup : Bool)
    (s : InFlight KP) : s.Takes .puback (publishBuf A topic payload dup s.client) := by
  by_cases ha : A.isAscii topic = true
  · rw [publishBuf_of_ascii ha]
    exact takes_bind s .puback fun pid => buildPublish A topic (.bytes payload) (packId pid) dup
  · have hbuf : publishBuf A topic payload dup s.client =
        .error (.valueError "topic must be ASCII") s.client := by
      rw [publishBuf, bind_apply, publish_of_not_ascii ha]
    rw [hbuf]
    constructor
    · intro buf pid d h
      cases h
    · intro e d h
      cases h
      exact Or.inl ⟨fun _ _ => rfl, rfl, rfl⟩

theorem registeredAs_eq_some {c : MQTTClient KP} {b : Bytes} {f : ℕ}
    (h : c.registeredAs t b = some (pid, f)) :
    (c.packetIds t).get? pid = some f ∧ packId pid = b := by
  have hb := List.find?_some h
  exact ⟨PyDict.get?_eq_some_iff.mpr (List.mem_of_find?_eq_some h), by simpa using hb⟩

theorem registeredAs_eq_none {c : MQTTClient KP} {b : Bytes} (h : c.registeredAs t b = none)
    (f : ℕ) (hf : (c.packetIds t).get? pid = some f) : packId pid ≠ b := by
  have hb := List.find?_eq_none.mp h (pid, f) (PyDict.get?_eq_some_iff.mp hf)
  simpa using hb

theorem lookup_handleBrokerAck (s : InFlight KP) (t : AckType) (pid : ℕ) (futures : ℕ → Future)
    (t' : AckType) (m : ℕ) :
    InFlight.lookup ⟨s.client.handleBrokerAck t pid, futures⟩ t' m =
      if t' = t ∧ m = pid then none else s.lookup t' m := by
  simp only [lookup, MQTTClient.handleBrokerAck, Function.update_apply]
  by_cases ht : t' = t
  · subst ht
    simp [PyDict.get?_erase]
  · simp [ht]

theorem handleBrokerAck_cases (hs : s.Sound) (t : AckType) (body : Bytes) :
    (s.handleBrokerAck t body = s ∧ ∀ pid f, packId pid = body.take 2 → s.lookup t pid = some f →
      s.futures f ≠ .pending) ∨
    ∃ pid f, s.Resolves (s.handleBrokerAck t body) t body pid f := by
  rw [handleBrokerAck]
  cases h : s.client.registeredAs t (body.take 2) with
  | none =>
    left
    refine ⟨rfl, ?_⟩
    intro pid f hid hf
    exact absurd hid (registeredAs_eq_none h f hf)
  | some e =>
    obtain ⟨pid, f⟩ := e
    obtain ⟨hf, hid⟩ := registeredAs_eq_some h
    simp only
    split_ifs with hdone
    · left
      refine ⟨rfl, ?_⟩
      intro pid' f' hid' hf' hpending
      have heq : pid' = pid := packId_injective (hs.valid t pid' f' hf').2 (hs.valid t pid f hf).2
        (hid'.trans hid.symm)
      subst heq
      cases hf.symm.trans hf'
      rw [hpending] at hdone
      cases hdone
    · right
      refine ⟨pid, f, hid, hf, ?_, rfl, lookup_handleBrokerAck s t pid _, rfl⟩
      cases hfut : s.futures f with
      | pending => rfl
      | result r => exact absurd (by rw [hfut]; rfl) hdone
      | cancelled => exact absurd (by rw [hfut]; rfl) hdone

theorem awaits_iff {c : MQTTClient KP} {f : ℕ} :
    c.awaits f = true ↔ ∃ t pid, (c.packetIds t).get? pid = some f := by
  simp only [awaits, List.any_eq_true, decide_eq_true_eq, PyDict.get?_eq_some_iff]
  constructor
  · rintro ⟨t, -, ⟨pid, f⟩, he, rfl⟩
    exact ⟨t, pid, he⟩
  · rintro ⟨t, pid, he⟩
    exact ⟨t, by cases t <;> simp, (pid, f), he, rfl⟩

theorem empties_resetSessionState (s : InFlight KP) : s.Empties s.resetSessionState :=
  ⟨fun _ _ => rfl, fun _ => rfl, rfl⟩

theorem empties_resetClient (s : InFlight KP) : s.Empties s.resetClient :=
  ⟨fun _ _ => rfl, fun _ => rfl, rfl⟩

theorem HandsOut.sound (h : s.HandsOut s' t pid) (hs : s.Sound) : s'.Sound := by
  have hfree := inFlight_eq_false_iff.mp h.free
  have hcases : ∀ {t' m f}, s'.lookup t' m = some f →
      (t' = t ∧ m = pid ∧ f = s.client.nextObj) ∨ s.lookup t' m = some f := by
    intro t' m f hf
    rw [h.lookup] at hf
    split_ifs at hf with heq
    · exact Or.inl ⟨heq.1, heq.2, (Option.some.inj hf).symm⟩
    · exact Or.inr hf
  constructor
  · intro t' m f hf
    rcases hcases hf with ⟨-, rfl, -⟩ | hf
    · exact h.valid
    · exact hs.valid t' m f hf
  · intro t₁ t₂ m f f' hf hf'
    rcases hcases hf with ⟨rfl, rfl, -⟩ | hf
    · rcases hcases hf' with ⟨rfl, -, -⟩ | hf'
      · rfl
      · cases (hfree t₂).symm.trans hf'
    · rcases hcases hf' with ⟨rfl, rfl, -⟩ | hf'
      · cases (hfree t₁).symm.trans hf
      · exact hs.apart t₁ t₂ m f f' hf hf'
  · intro t' m f hf
    rw [h.nextObj]
    rcases hcases hf with ⟨-, -, rfl⟩ | hf
    · exact Nat.lt_succ_self _
    · exact Nat.lt_succ_of_lt (hs.bound t' m f hf)
  · intro t₁ t₂ m m' f hf hf'
    rcases hcases hf with ⟨rfl, rfl, rfl⟩ | hf
    · rcases hcases hf' with ⟨rfl, rfl, -⟩ | hf'
      · exact ⟨rfl, rfl⟩
      · exact absurd (hs.bound t₂ m' _ hf') (lt_irrefl _)
    · rcases hcases hf' with ⟨rfl, rfl, rfl⟩ | hf'
      · exact absurd (hs.bound t₁ m _ hf) (lt_irrefl _)
      · exact hs.once t₁ t₂ m m' f hf hf'
  · intro f hf
    rw [h.futures]
    rw [h.nextObj] at hf
    exact hs.fresh f (by omega)

theorem Sound.of_subset (hs : s.Sound) (hobj : s'.client.nextObj = s.client.nextObj)
    (hsub : ∀ t pid f, s'.lookup t pid = some f → s.lookup t pid = some f)
    (hfresh : ∀ f, s.client.nextObj ≤ f → s'.futures f = s.futures f) : s'.Sound := by
  constructor
  · intro t pid f hf
    exact hs.valid t pid f (hsub t pid f hf)
  · intro t t' pid f f' hf hf'
    exact hs.apart t t' pid f f' (hsub t pid f hf) (hsub t' pid f' hf')
  · intro t pid f hf
    rw [hobj]
    exact hs.bound t pid f (hsub t pid f hf)
  · intro t t' pid pid' f hf hf'
    exact hs.once t t' pid pid' f (hsub t pid f hf) (hsub t' pid' f hf')
  · intro f hf
    rw [hobj] at hf
    rw [hfresh f hf, hs.fresh f hf]

theorem Untouched.sound (h : s.Untouched s') (hs : s.Sound) : s'.Sound :=
  hs.of_subset h.nextObj (fun t pid _ hf => (h.lookup t pid).symm.trans hf)
    fun _ _ => congrFun h.futures _

theorem Resolves.sound {body : Bytes} {f : ℕ} (h : s.Resolves s' t body pid f) (hs : s.Sound) :
    s'.Sound := by
  apply hs.of_subset h.nextObj
  · intro t' m f' hf'
    rw [h.lookup] at hf'
    split_ifs at hf'
    exact hf'
  · intro f' hf'
    have hne : f' ≠ f := by
      rintro rfl
      exact absurd (hs.bound t pid _ h.registered) (not_lt.mpr hf')
    rw [h.futures, Function.update_of_ne hne]

theorem Empties.sound (h : s.Empties s') (hs : s.Sound) : s'.Sound := by
  apply hs.of_subset h.nextObj
  · intro t pid f hf
    cases (h.lookup t pid).symm.trans hf
  · intro f hf
    have hnot : ¬ s.client.awaits f = true := by
      rw [awaits_iff]
      rintro ⟨t, pid, hp⟩
      exact absurd (hs.bound t pid f hp) (not_lt.mpr hf)
    rw [h.futures, if_neg hnot]

theorem Takes.sound {r : EStateM.Result PyExc (MQTTClient KP) (Bytes × ℕ)} (h : s.Takes t r)
    (hs : s.Sound) : InFlight.Sound ⟨final r, s.futures⟩ := by
  cases hr : r with
  | ok a d => exact (h.1 a.1 a.2 d hr).sound hs
  | error e d =>
    rcases h.2 e d hr with h | ⟨pid, h⟩
    · exact h.sound hs
    · exact h.sound hs

theorem sound_init (kp : KP) (handlers : HandlerSet) : (init kp handlers).Sound := by
  have hnone : ∀ t pid, (init kp handlers).lookup t pid = none := fun _ _ => rfl
  constructor
  · intro t pid f hf
    cases (hnone t pid).symm.trans hf
  · intro t t' pid f f' hf
    cases (hnone t pid).symm.trans hf
  · intro t pid f hf
    cases (hnone t pid).symm.trans hf
  · intro t t' pid pid' f hf
    cases (hnone t pid).symm.trans hf
  · intro f hf
    rfl

theorem step_sound (s : InFlight KP) (op : Op) (s' : InFlight KP) (hs : s.Sound)
    (h : step A s op = some s') : s'.Sound := by
  cases op with
  | subscribe topic =>
    cases h
    exact (takes_subscribe A topic s).sound hs
  | publish topic payload dup =>
    cases h
    exact (takes_publishBuf A topic payload dup s).sound hs
  | ack t body =>
    cases h
    rcases handleBrokerAck_cases hs t body with ⟨h, -⟩ | ⟨pid, f, h⟩
    · rw [h]
      exact hs
    · exact h.sound hs
  | giveUp f =>
    rw [step] at h
    split_ifs at h with hf
    cases h
    refine hs.of_subset ?_ ?_ ?_
    · rfl
    · exact fun _ _ _ h => h
    · intro f' hf'
      exact Function.update_of_ne (by omega) _ _
  | resetSessionState =>
    cases h
    exact (empties_resetSessionState s).sound hs
  | resetClient =>
    cases h
    exact (empties_resetClient s).sound hs

def Kept (s s' : InFlight KP) : Prop :=
  ∀ t pid f, s.lookup t pid = some f →
    s'.lookup t pid = some f ∨ s'.lookup t pid = none ∧ (s'.futures f).done = true

theorem Untouched.kept (h : s.Untouched s') : s.Kept s' := by
  intro t pid f hf
  exact Or.inl ((h.lookup t pid).trans hf)

theorem HandsOut.kept (h : s.HandsOut s' t pid) : s.Kept s' := by
  intro t' m f hf
  left
  rw [h.lookup, if_neg ?_]
  · exact hf
  · rintro ⟨-, rfl⟩
    cases (inFlight_eq_false_iff.mp h.free t').symm.trans hf

theorem Resolves.kept {body : Bytes} {f : ℕ} (h : s.Resolves s' t body pid f) : s.Kept s' := by
  intro t' m f' hf'
  rw [h.lookup]
  split_ifs with heq
  · obtain ⟨rfl, rfl⟩ := heq
    cases h.registered.symm.trans hf'
    right
    refine ⟨rfl, ?_⟩
    rw [h.futures, Function.update_self]
    rfl
  · exact Or.inl hf'

theorem Empties.kept (h : s.Empties s') : s.Kept s' := by
  intro t pid f hf
  right
  refine ⟨h.lookup t pid, ?_⟩
  rw [h.futures, if_pos (awaits_iff.mpr ⟨t, pid, hf⟩)]
  exact Future.done_cancel _

theorem Takes.kept {r : EStateM.Result PyExc (MQTTClient KP) (Bytes × ℕ)} (h : s.Takes t r) :
    s.Kept ⟨final r, s.futures⟩ := by
  cases hr : r with
  | ok a d => exact (h.1 a.1 a.2 d hr).kept
  | error e d =>
    rcases h.2 e d hr with h | ⟨pid, h⟩
    · exact h.kept
    · exact h.kept

theorem step_kept (hs : s.Sound) {op : Op} (h : step A s op = some s') : s.Kept s' := by
  cases op with
  | subscribe topic =>
    cases h
    exact (takes_subscribe A topic s).kept
  | publish topic payload dup =>
    cases h
    exact (takes_publishBuf A topic payload dup s).kept
  | ack t body =>
    cases h
    rcases handleBrokerAck_cases hs t body with ⟨h, -⟩ | ⟨pid, f, h⟩
    · rw [h]
      exact fun t pid f hf => Or.inl hf
    · exact h.kept
  | giveUp f =>
    rw [step] at h
    split_ifs at h
    cases h
    exact fun t pid f hf => Or.inl hf
  | resetSessionState =>
    cases h
    exact (empties_resetSessionState s).kept
  | resetClient =>
    cases h
    exact (empties_resetClient s).kept

/-- Packet ids after any operations: those in flight are distinct, a new one is free and has a
new future, none can be had only if all are in flight, an acknowledgement resolves at most
the future that waits for it, and no entry is overwritten. -/
theorem packet_ids (A : Aio KP) (kp : KP) (handlers : HandlerSet) {ops : List Op}
    (h : Machine.run (step A) (init kp handlers) ops = some s) :
    (∀ t pid f, s.lookup t pid = some f → 1 ≤ pid ∧ pid ≤ 65535) ∧
      (∀ t t' pid f f', s.lookup t pid = some f → s.lookup t' pid = some f' → t = t') ∧
      ((∃ e d, getPacketId s.client = .error e d) ↔
        ∀ pid, 1 ≤ pid → pid ≤ 65535 → ∃ t f, s.lookup t pid = some f) ∧
      (∀ pid d, getPacketId s.client = .ok pid d →
        1 ≤ pid ∧ pid ≤ 65535 ∧ ∀ t, s.lookup t pid = none) ∧
      (s.futures s.client.nextObj = .pending ∧
        ∀ t pid, s.lookup t pid ≠ some s.client.nextObj) ∧
      (∀ topic, s.Takes .suback (MQTTClient.subscribe A topic s.client)) ∧
      (∀ topic payload dup, s.Takes .puback (publishBuf A topic payload dup s.client)) ∧
      (∀ t body, (s.handleBrokerAck t body = s ∧ ∀ pid f, packId pid = body.take 2 →
          s.lookup t pid = some f → s.futures f ≠ .pending) ∨
        ∃ pid f, s.Resolves (s.handleBrokerAck t body) t body pid f ∧
          ∀ t' m, s.lookup t' m = some f → t' = t ∧ m = pid) ∧
      ∀ op s', step A s op = some s' → s.Kept s' := by
  have hs : s.Sound := Machine.run_preserves step_sound (sound_init kp handlers) h
  refine ⟨hs.valid, hs.apart, ?_, ?_, ⟨hs.fresh _ le_rfl, ?_⟩, fun topic => takes_subscribe A topic s,
    fun topic payload dup => takes_publishBuf A topic payload dup s, ?_,
    fun op s' h => step_kept hs h⟩
  · rw [getPacketId_error_iff]
    have hflight : ∀ pid, s.client.inFlight pid = true ↔ ∃ t f, s.lookup t pid = some f := by
      intro pid
      rw [← Bool.not_eq_false, inFlight_eq_false_iff]
      push Not
      simp only [lookup, Option.ne_none_iff_exists']
    simp only [hflight]
  · intro pid d hid
    obtain ⟨h₁, h₂, hf, -⟩ := getPacketIdLoop_eq_ok hid
    exact ⟨h₁, h₂, inFlight_eq_false_iff.mp hf⟩
  · intro t pid hf
    exact lt_irrefl _ (hs.bound t pid _ hf)
  · intro t body
    rcases handleBrokerAck_cases hs t body with hnone | ⟨pid, f, hr⟩
    · exact Or.inl hnone
    · exact Or.inr ⟨pid, f, hr, fun t' m hf => hs.once t' t m pid f hf hr.registered⟩

theorem packet_ids_after_suback : ∃ s, Machine.run (step concrete) (init 7 HandlerSet.empty)
      [.subscribe "ab", .publish "ab" [1] false, .ack .suback [0, 1, 1]] = some s ∧
    s.lookup .suback 1 = none ∧ s.futures 0 = .result (.codes [1]) ∧
    s.lookup .puback 2 = some 1 ∧ ∀ topic, s.Takes .suback (MQTTClient.subscribe concrete topic
      s.client) := by
  obtain ⟨s, hs, hp⟩ := Machine.exists_run_of_any (step concrete) (init 7 HandlerSet.empty)
    [.subscribe "ab", .publish "ab" [1] false, .ack .suback [0, 1, 1]]
    (fun s => s.lookup .suback 1 = none ∧ s.futures 0 = .result (.codes [1]) ∧
      s.lookup .puback 2 = some 1) (by decide +kernel)
  obtain ⟨h₁, h₂, h₃⟩ := of_decide_eq_true hp
  exact ⟨s, hs, h₁, h₂, h₃, (packet_ids concrete 7 HandlerSet.empty hs).2.2.2.2.2.1⟩

end InFlight

end Sidewire
