import Sidewire.Lib.Ranks
import Sidewire.Mqtt.Alike
import Sidewire.Mqtt.Concrete
import Sidewire.Router.Steps

/-! # What one sender can do to another

A router that hears many senders is compared with one that hears a single
sender: the same run with the other senders' packets left out. Acks are kept
under a queue id and a sequence number, received messages under the hash of
their text; neither key names the sender. The two runs agree on what the sender
gets as long as nobody else has taken a key of the sender's, or dropped what is
kept under one.
-/

namespace Sidewire

def Action.inbound {ι : Type} : Action ι → Bool
  | .tick _ | .recv _ _ _ _ | .resume _ _ => true
  | _ => false

/-- What handling a packet did between two suspensions: the handlers called, and what was
queued and sent on the client. -/
structure Reaction (ι : Type) where
  client : ι
  calls : List (ℕ × AppPacket × ℚ)
  queued : List (MsgEnum × String × ℤ × String × Bytes)
  sent : List (String × Bytes)
  deriving DecidableEq

namespace Router

open Exec MQTTClient

variable {KP ι : Type}

def fromKey (A : Aio KP) (a : String) (payload : Bytes) : Bool :=
  match AppPacket.unpack A payload with
  | .ok (some pkt) => pkt.srcPkHex = a
  | _ => false

def ofKey (A : Aio KP) (a : String) (t : Task ι) : Bool := fromKey A a t.payload

def isolateAction (A : Aio KP) (a : String) (r : Router KP ι) : Action ι → Option (Action ι)
  | .recv i topic payload withId =>
    if fromKey A a payload then some (.recv i topic payload withId) else none
  | .resume k res =>
    if (r.tasks[k]?).any (ofKey A a) then some (.resume (r.tasks.rank (ofKey A a) k) res) else none
  | x => some x

def reaction (A : Aio KP) (a : String) (r : Router KP ι) (x : Action ι) (r' : Router KP ι) :
    Option (Reaction ι) :=
  match x with
  | .resume k _ =>
    match r.tasks[k]? with
    | some t =>
      if fromKey A a t.payload then
        some
          { client := t.client
            calls := (r'.log.map fun v => (v.handler, v.pkt, v.time)).drop r.log.length
            queued := ((r'.clients t.client).queued.map Queued.content).drop
              (r.clients t.client).queued.length
            sent := ((r'.clients t.client).sent.map Publish.content).drop
              (r.clients t.client).sent.length }
      else none
    | none => none
  | _ => none

variable [DecidableEq ι]

def isolate (A : Aio KP) (a : String) : Router KP ι → List (Action ι) → List (Action ι)
  | _, [] => []
  | r, x :: xs =>
    match r.step A x with
    | none => []
    | some r' => (r.isolateAction A a x).toList ++ isolate A a r' xs

def reactions (A : Aio KP) (a : String) : Router KP ι → List (Action ι) → List (Reaction ι)
  | _, [] => []
  | r, x :: xs =>
    match r.step A x with
    | none => []
    | some r' => (r.reaction A a x r').toList ++ reactions A a r' xs

def lookingUp (A : Aio KP) (r : Router KP ι) (k : ℕ) : Option (ι × AppPacket) :=
  match r.tasks[k]? with
  | some t =>
    match t.pc with
    | .verifying =>
      match AppPacket.unpack A t.payload with
      | .ok (some pkt) =>
        if pkt.msgType = MsgEnum.msg.value ∧ (r.clients t.client).tooOld r.clock pkt = false ∨
            pkt.msgType = MsgEnum.probe.value then some (t.client, pkt)
        else none
      | _ => none
    | _ => none
  | none => none

def registering (r : Router KP ι) (k : ℕ) : Option (ι × AppPacket) :=
  match r.tasks[k]? with
  | some t =>
    match t.pc with
    | .signing pkt _ _ => some (t.client, pkt)
    | _ => none
  | none => none

def Spared (a : String) (c : MQTTClient KP) (q : String) (s : ℤ) : Prop :=
  ∀ d ∈ c.queue .msgack q, ∀ e ∈ d.metas.entries, e.1 < s → e.2.destPkHex ≠ a

/-- A step in which nobody interferes with a sender. -/
structure Undisturbed (A : Aio KP) (a : String) (r : Router KP ι) (x : Action ι) : Prop where
  /-- Where the sender's packet looks for an ack, none is held for somebody else. -/
  lookup : ∀ k ∈ x.resumed, ∀ y ∈ r.lookingUp A k, y.2.srcPkHex = a →
    Unclaimed a (r.clients y.1) y.2.queueIdHex y.2.seqNo
  /-- Nor where the sender's ack is registered. -/
  register : ∀ k ∈ x.resumed, ∀ y ∈ r.registering k, y.2.srcPkHex = a →
    Unclaimed a (r.clients y.1) y.2.queueIdHex y.2.seqNo
  /-- A text of the sender that is stamped was heard from the sender, if anybody listens. -/
  stamped : ∀ k ∈ x.resumed, ∀ t ∈ r.tasks[k]?, ∀ pkt ∈ r.checking k, pkt.srcPkHex = a →
    r.recvMsgIds.contains (A.msgHash pkt.msg) = true →
      (r.clients t.client).msgHandlers.toList = [] ∨
        ∃ v ∈ r.log, v.pkt.srcPkHex = a ∧ A.msgHash v.pkt.msg = A.msgHash pkt.msg
  /-- A message of somebody else does not outdate acks held for the sender. -/
  spared : ∀ k ∈ x.resumed, ∀ y ∈ r.lookingUp A k, y.2.srcPkHex ≠ a →
    y.2.msgType = MsgEnum.msg.value → Spared a (r.clients y.1) y.2.queueIdHex y.2.seqNo
  /-- A packet id is free where handling the sender's packet publishes. -/
  packetId : ∀ k ∈ x.resumed, ∀ y ∈ r.lookingUp A k, y.2.srcPkHex = a →
    (y.2.msgType = MsgEnum.msg.value ↔
      ((r.clients y.1).entry .msgack y.2.queueIdHex y.2.seqNo).isSome) → FreeId (r.clients y.1)

section Lockstep

variable {A : Aio KP} {a : String} {r u r' u' : Router KP ι} {k j rnd : ℕ} {res : Except PyExc ℕ}
  {t : Task ι} {i : ι} {pkt : AppPacket} {todo : List ℕ} {size : ℕ} {s : ℤ} {signed : Bytes}
  {pc : TaskPc} {c d : MQTTClient KP} {recv : PyDict String ℚ} {calls : List (ℕ × AppPacket)}
  {x : Action ι}

theorem fromKey_iff {payload : Bytes} : fromKey A a payload = true ↔
    ∃ pkt, AppPacket.unpack A payload = .ok (some pkt) ∧ pkt.srcPkHex = a := by
  unfold fromKey
  split
  · rename_i pkt hp
    rw [hp]
    simp
  · rename_i h
    simp only [Bool.false_eq_true, false_iff, not_exists, not_and]
    intro pkt hp
    exact absurd hp (h pkt)

/-- Two routers in which a task took the same turn: the sender's client is in step, and what is
stamped in the second run is stamped in the first. -/
def SameTurn (A : Aio KP) (a : String) (r u : Router KP ι) (k j : ℕ) (t : Task ι)
    (r' u' : Router KP ι) : Prop :=
  ∃ pc c d recv recv' calls, r' = r.afterTurn k t pc c recv calls ∧
    u' = u.afterTurn j t pc d recv' calls ∧
    InStep a (r.clients t.client) (u.clients t.client) c d ∧
    (∀ h, recv'.contains h = true → recv.contains h = true) ∧
    (∀ h, u.recvMsgIds.contains h = true → recv'.contains h = true) ∧
    (∀ y ∈ calls, recv'.contains (A.msgHash y.2.msg) = true) ∧
    ∀ pkt todo size, pc = .handling pkt todo size → recv'.contains (A.msgHash pkt.msg) = true

theorem sameTurn_setClient
    (hst : ∀ h, u.recvMsgIds.contains h = true → r.recvMsgIds.contains h = true)
    (h : InStep a (r.clients t.client) (u.clients t.client) c d)
    (hpc : ∀ pkt todo size, pc ≠ .handling pkt todo size) :
    SameTurn A a r u k j t ((r.setClient t.client c).setPc k pc)
      ((u.setClient t.client d).setPc j pc) :=
  ⟨pc, c, d, _, _, [], setClient_setPc_eq_afterTurn .., setClient_setPc_eq_afterTurn .., h, hst,
    fun _ h => h, nofun, fun _ _ _ h => absurd h (hpc _ _ _)⟩

theorem sameTurn_setPc (hst : ∀ h, u.recvMsgIds.contains h = true → r.recvMsgIds.contains h = true)
    (h : Alike a (r.clients t.client) (u.clients t.client))
    (hpc : ∀ pkt todo size, pc ≠ .handling pkt todo size) :
    SameTurn A a r u k j t (r.setPc k pc) (u.setPc j pc) :=
  ⟨pc, _, _, _, _, [], setPc_eq_afterTurn .., setPc_eq_afterTurn .., h.inStep, hst, fun _ h => h,
    nofun, fun _ _ _ h => absurd h (hpc _ _ _)⟩

theorem ackBegin_inStep (hclock : u.clock = r.clock) (h : Alike a (r.clients i) (u.clients i))
    (k j : ℕ) (pkt : AppPacket) :
    ∃ pc c d, r.ackBegin A k i pkt = (r.setClient i c).setPc k pc ∧
      u.ackBegin A j i pkt = (u.setClient i d).setPc j pc ∧
      InStep a (r.clients i) (u.clients i) c d ∧ ∀ pkt todo size, pc ≠ .handling pkt todo size := by
  have hp := paired_catchLogged logged (h.queueMsgAsyncBegin (A := A) r.clock (.str "ack") pkt.srcPkHex
    pkt.queueIdHex pkt.seqNo)
  unfold ackBegin
  rw [hclock]
  obtain ⟨v, w, c, d, hx, hy, hv, hR⟩ | ⟨e, c, d, hx, hy, hR⟩ := hp.cases
  · rw [hx, hy]
    cases hv with
    | none => exact ⟨_, c, d, rfl, rfl, hR, nofun⟩
    | some he =>
      rename_i b b'
      obtain rfl : b = b' := he
      obtain ⟨s, signed⟩ := b
      exact ⟨_, c, d, rfl, rfl, hR, nofun⟩
  · rw [hx, hy]
    exact ⟨_, c, d, rfl, rfl, hR, nofun⟩

theorem afterTurn_of_recv (r : Router KP ι) (k : ℕ) (t : Task ι) (c : MQTTClient KP) (pc : TaskPc)
    (recv : PyDict String ℚ) :
    (({ r with recvMsgIds := recv } : Router KP ι).setClient t.client c).setPc k pc =
      r.afterTurn k t pc c recv [] := by
  simp [setClient, setPc, afterTurn]

section Turn

variable (hclock : u.clock = r.clock)
  (hst : ∀ h, u.recvMsgIds.contains h = true → r.recvMsgIds.contains h = true)
  (h : Alike a (r.clients t.client) (u.clients t.client))

include hclock hst h

theorem sameTurn_ackBegin (k j : ℕ) (pkt : AppPacket) :
    SameTurn A a r u k j t (r.ackBegin A k t.client pkt) (u.ackBegin A j t.client pkt) := by
  obtain ⟨pc, c, d, hr, hu, hR, hpc⟩ := ackBegin_inStep (A := A) hclock h k j pkt
  rw [hr, hu]
  exact sameTurn_setClient hst hR hpc

omit hst in
theorem sameTurn_ackBegin_stamped {recv recv' : PyDict String ℚ}
    (hle : ∀ h, recv'.contains h = true → recv.contains h = true)
    (hmono : ∀ h, u.recvMsgIds.contains h = true → recv'.contains h = true) (k j : ℕ)
    (pkt : AppPacket) :
    SameTurn A a r u k j t
      (({ r with recvMsgIds := recv } : Router KP ι).ackBegin A k t.client pkt)
      (({ u with recvMsgIds := recv' } : Router KP ι).ackBegin A j t.client pkt) := by
  obtain ⟨pc, c, d, hr, hu, hR, hpc⟩ := ackBegin_inStep (A := A)
    (r := { r with recvMsgIds := recv }) (u := { u with recvMsgIds := recv' }) hclock h k j pkt
  rw [hr, hu, afterTurn_of_recv, afterTurn_of_recv]
  exact ⟨pc, c, d, recv, recv', [], rfl, rfl, hR, hle, hmono, nofun,
    fun _ _ _ h => absurd h (hpc _ _ _)⟩

theorem sameTurn_deliver (hs : u.recvMsgIds.contains (A.msgHash pkt.msg) = true) (k j : ℕ) :
    SameTurn A a r u k j t (r.deliver A k t.client pkt todo size)
      (u.deliver A j t.client pkt todo size) := by
  unfold deliver
  rw [h.msgHandlers]
  split_ifs
  · exact sameTurn_setPc hst h nofun
  · cases todo with
    | nil => exact sameTurn_ackBegin hclock hst h k j pkt
    | cons y todo =>
      refine ⟨_, _, _, _, _, _, call_eq_afterTurn .., ?_, h.inStep, hst, fun _ h => h, ?_, ?_⟩
      · exact call_eq_afterTurn ..
      · intro z hz
        rw [List.mem_singleton.mp hz]
        exact hs
      · rintro pkt' todo' size' he
        cases he
        exact hs

theorem sameTurn_dedup (hown : r.recvMsgIds.contains (A.msgHash pkt.msg) = true →
      (r.clients t.client).msgHandlers.toList = [] ∨
        u.recvMsgIds.contains (A.msgHash pkt.msg) = true) (k j : ℕ) :
    SameTurn A a r u k j t (r.dedup A k t.client pkt) (u.dedup A j t.client pkt) := by
  unfold dedup
  by_cases hr : r.recvMsgIds.contains (A.msgHash pkt.msg) = true
  · rw [if_pos hr]
    by_cases hu : u.recvMsgIds.contains (A.msgHash pkt.msg) = true
    · rw [if_pos hu]
      exact sameTurn_ackBegin hclock hst h k j pkt
    · rw [if_neg hu]
      have hnil := (hown hr).resolve_right hu
      rw [← h.msgHandlers] at hnil
      unfold deliver
      rw [if_neg (not_not.mpr rfl), hnil]
      refine sameTurn_ackBegin_stamped hclock h (fun id hid => ?_)
        (fun id hid => PyDict.contains_set_of_contains hid) k j pkt
      rw [PyDict.contains_set, Bool.or_eq_true, decide_eq_true_eq] at hid
      exact hid.elim (fun he => he ▸ hr) (hst id)
  · have hu : ¬ u.recvMsgIds.contains (A.msgHash pkt.msg) = true := fun hu => hr (hst _ hu)
    have hle : ∀ id, (u.recvMsgIds.set (A.msgHash pkt.msg) u.clock).contains id = true →
        (r.recvMsgIds.set (A.msgHash pkt.msg) r.clock).contains id = true := by
      intro id hid
      rw [PyDict.contains_set, Bool.or_eq_true] at hid ⊢
      exact hid.imp_right (hst id)
    have hself : (u.recvMsgIds.set (A.msgHash pkt.msg) u.clock).contains (A.msgHash pkt.msg) =
        true := by
      rw [PyDict.contains_set, decide_eq_true rfl, Bool.true_or]
    rw [if_neg hr, if_neg hu]
    unfold deliver
    rw [if_neg (not_not.mpr rfl), if_neg (not_not.mpr rfl), h.msgHandlers]
    cases (r.clients t.client).msgHandlers.toList with
    | nil =>
      exact sameTurn_ackBegin_stamped hclock h hle
        (fun id hid => PyDict.contains_set_of_contains hid) k j pkt
    | cons y todo =>
      refine ⟨_, _, _, _, _, _, call_eq_afterTurn { r with
          recvMsgIds := r.recvMsgIds.set (A.msgHash pkt.msg) r.clock } k t pkt y _, ?_, h.inStep,
        hle, fun id hid => PyDict.contains_set_of_contains hid, ?_, ?_⟩
      · exact call_eq_afterTurn { u with
          recvMsgIds := u.recvMsgIds.set (A.msgHash pkt.msg) u.clock } j t pkt y _
      · intro z hz
        rw [List.mem_singleton.mp hz]
        exact hself
      · rintro pkt' todo' size' he
        cases he
        exact hself

end Turn

def Opened (r : Router KP ι) : Prop :=
  ∀ t ∈ r.tasks, ∀ pkt s signed, t.pc = .signing pkt s signed →
    ((r.clients t.client).queue .msgack pkt.queueIdHex).isSome

/-- The relation between the run with everybody's packets and the run with one sender's. -/
structure Isolated (A : Aio KP) (a : String) (r u : Router KP ι) : Prop where
  sound : Sound A r ∧ Sound A u
  opened : Opened r ∧ Opened u
  running : r.running = none ∧ u.running = none
  clock : u.clock = r.clock
  tasks : u.tasks = r.tasks.filter (ofKey A a)
  alike : ∀ i, Alike a (r.clients i) (u.clients i)
  stamped : ∀ h, u.recvMsgIds.contains h = true → r.recvMsgIds.contains h = true
  heard : ∀ v ∈ r.log, v.pkt.srcPkHex = a → u.recvMsgIds.contains (A.msgHash v.pkt.msg) = true
  handling : ∀ t ∈ u.tasks, ∀ pkt todo size, t.pc = .handling pkt todo size →
    u.recvMsgIds.contains (A.msgHash pkt.msg) = true

omit [DecidableEq ι] in
theorem Fresh.isolated (h : Fresh r) : Isolated A a r r where
  sound := ⟨h.sound, h.sound⟩
  opened := by simp [Opened, h.tasks]
  running := ⟨h.running, h.running⟩
  clock := rfl
  tasks := by simp [h.tasks]
  alike i := ⟨rfl, rfl, rfl, rfl, le_rfl, fun _ _ => rfl, fun hm => by
    simp [entry, queue, h.msgQueues] at hm⟩
  stamped _ h := h
  heard v hv := by rw [h.log] at hv; cases hv
  handling t ht := by rw [h.tasks] at ht; cases ht

namespace Isolated

variable (hI : Isolated A a r u)

include hI

omit [DecidableEq ι] in
theorem getElem?_rank (hk : r.tasks[k]? = some t) (hown : fromKey A a t.payload = true) :
    u.tasks[r.tasks.rank (ofKey A a) k]? = some t := by
  rw [hI.tasks]
  exact List.getElem?_filter_rank hk hown

omit [DecidableEq ι] in
theorem checkTopic (i : ι) (topic : String) : u.checkTopic A i topic = r.checkTopic A i topic := by
  unfold Router.checkTopic
  rw [(hI.alike i).kp]

theorem sameTurn_route (hU : Undisturbed A a r (.resume k res)) (hk : r.tasks[k]? = some t)
    (hpc : t.pc = .verifying) (hp : AppPacket.unpack A t.payload = .ok (some pkt))
    (ha : pkt.srcPkHex = a) (j : ℕ) :
    SameTurn A a r u k j t (r.route A k t.client rnd pkt) (u.route A j t.client rnd pkt) := by
  have halike := hI.alike t.client
  have hold : (u.clients t.client).tooOld u.clock pkt = (r.clients t.client).tooOld r.clock pkt := by
    unfold tooOld
    rw [halike.republishDuration, hI.clock]
  unfold route
  rw [hold]
  split_ifs with hm ho hm' hm''
  · exact sameTurn_setPc hI.stamped halike nofun
  · have hl : (t.client, pkt) ∈ r.lookingUp A k := by
      simp [lookingUp, hk, hpc, hp, hm, Bool.eq_false_of_not_eq_true ho]
    unfold processAppMsg
    obtain ⟨v, w, c, d, hx, hy, rfl, hR⟩ | ⟨e, c, d, hx, hy, hR⟩ := (halike.processAppMsgBegin
        (A := A) (hU.lookup k rfl _ hl ha) fun hs => hU.packetId k rfl _ hl ha
          ⟨fun _ => hs, fun _ => hm⟩).cases
    · rw [hx, hy]
      cases v with
      | true => exact sameTurn_setClient hI.stamped hR nofun
      | false => exact sameTurn_setClient hI.stamped hR nofun
    · rw [hx, hy]
      exact sameTurn_setClient hI.stamped hR nofun
  · refine sameTurn_setClient hI.stamped ?_ nofun
    have hack : ∀ c : MQTTClient KP, (∀ q s, (c.processAppAck pkt).entry .msgack q s =
        c.entry .msgack q s) ∧ MQTTClient.Steady c (c.processAppAck pkt) := fun c =>
      c.processAppAck_steady pkt
    exact halike.inStep.of_entries (hack _).2 (hack _).2 (hack _).1 (hack _).1
  · have hl : (t.client, pkt) ∈ r.lookingUp A k := by
      simp [lookingUp, hk, hpc, hp, hm'']
    unfold processAppProbe
    rw [hI.clock]
    have hnm : pkt.msgType ≠ MsgEnum.msg.value := hm
    obtain ⟨v, w, c, d, hx, hy, -, hR⟩ | ⟨e, c, d, hx, hy, hR⟩ := (halike.processAppProbe
        (A := A) (hU.lookup k rfl _ hl ha) (fun hs => hU.packetId k rfl _ hl ha
          ⟨fun h => absurd h hnm, fun h => by rw [hs] at h; cases h⟩) ha rnd r.clock (.ok ())).cases
    · rw [hx, hy]
      exact sameTurn_setClient hI.stamped hR nofun
    · rw [hx, hy]
      exact sameTurn_setClient hI.stamped hR nofun
  · exact sameTurn_setPc hI.stamped halike nofun

theorem sameTurn_resume (hU : Undisturbed A a r (.resume k res)) (hk : r.tasks[k]? = some t)
    (hown : fromKey A a t.payload = true) (hj : u.tasks[j]? = some t)
    (h : r.resume A k res = some r') :
    ∃ u', u.resume A j res = some u' ∧ SameTurn A a r u k j t r' u' := by
  have halike := hI.alike t.client
  have hholds := hI.sound.1.holds t (List.mem_of_getElem? hk)
  obtain ⟨pkt₀, hp₀, ha₀⟩ := fromKey_iff.mp hown
  have hsrc : ∀ {pkt}, AppPacket.unpack A t.payload = .ok (some pkt) → pkt.srcPkHex = a := by
    intro pkt hp
    rw [hp₀] at hp
    cases hp
    exact ha₀
  obtain ⟨i, topic, payload, pc⟩ := t
  unfold resume at h ⊢
  rw [hk] at h
  rw [hj]
  obtain e | rnd := res
  · obtain ⟨pc', hf, rfl⟩ := Option.map_eq_some_iff.mp h
    refine ⟨u.setPc j pc', Option.map_eq_some_iff.mpr ⟨pc', hf, rfl⟩,
      sameTurn_setPc (t := ⟨i, topic, payload, pc⟩) hI.stamped halike fun pkt todo size he => ?_⟩
    obtain ⟨-, rfl⟩ | ⟨-, -, rfl⟩ := failed_cases hf <;> cases he
  cases pc with
  | puback =>
    cases h
    refine ⟨_, rfl, ?_⟩
    rw [hI.checkTopic]
    refine sameTurn_setPc (t := ⟨i, topic, payload, .puback⟩) hI.stamped halike ?_
    intro pkt todo size he
    obtain ⟨e, h'⟩ | h' := checkTopic_pc (A := A) r i topic <;>
    · rw [h'] at he; cases he
  | verifying =>
    have hset : ∀ e, SameTurn A a r u k j ⟨i, topic, payload, .verifying⟩
        (r.setPc k (.dropped e)) (u.setPc j (.dropped e)) :=
      fun e => sameTurn_setPc hI.stamped halike nofun
    simp only at h ⊢
    cases hp : AppPacket.unpack A payload with
    | error e =>
      rw [hp] at h
      cases h
      exact ⟨_, rfl, hset _⟩
    | ok o =>
      rw [hp] at h
      cases o with
      | none =>
        cases h
        exact ⟨_, rfl, hset _⟩
      | some pkt =>
        cases h
        exact ⟨_, rfl, hI.sameTurn_route hU hk rfl hp (hsrc hp) j⟩
  | hashing pkt =>
    cases h
    refine ⟨_, rfl, sameTurn_dedup (t := ⟨i, topic, payload, .hashing pkt⟩) hI.clock hI.stamped
      halike (fun hc => ?_) k j⟩
    have hch : pkt ∈ r.checking k := by simp [checking, hk]
    refine (hU.stamped k rfl _ hk pkt hch (hsrc hholds.1) hc).imp_right ?_
    rintro ⟨v, hv, hva, hvh⟩
    rw [← hvh]
    exact hI.heard v hv hva
  | handling pkt todo size =>
    cases h
    exact ⟨_, rfl, sameTurn_deliver (t := ⟨i, topic, payload, .handling pkt todo size⟩) hI.clock
      hI.stamped halike (hI.handling _ (List.mem_of_getElem? hj) _ _ _ rfl) k j⟩
  | signing pkt s signed =>
    cases h
    refine ⟨_, rfl, ?_⟩
    obtain ⟨⟨hp, -⟩, rfl, -⟩ := hholds
    have hr : (i, pkt) ∈ r.registering k := by simp [registering, hk]
    have hu := hU.register k rfl _ hr (hsrc hp)
    have hend := paired_catchLogged logged (halike.queueMsgAsyncEnd (A := A) hu
      (hI.opened.1 _ (List.mem_of_getElem? hk) _ _ _ rfl)
      (hI.opened.2 _ (List.mem_of_getElem? hj) _ _ _ rfl) rnd r.clock (.str "ack") signed)
    unfold ackEnd
    rw [hI.clock, hsrc hp]
    obtain ⟨v, w, c, d, hx, hy, -, hR⟩ | ⟨e, c, d, hx, hy, hR⟩ := hend.cases
    · rw [hx, hy]
      exact sameTurn_setClient (t := ⟨i, topic, payload, .signing pkt pkt.seqNo signed⟩) hI.stamped hR
        nofun
    · rw [hx, hy]
      exact sameTurn_setClient (t := ⟨i, topic, payload, .signing pkt pkt.seqNo signed⟩) hI.stamped hR
        nofun
  | sending =>
    cases h
    exact ⟨_, rfl, sameTurn_setPc (t := ⟨i, topic, payload, .sending⟩) hI.stamped halike nofun⟩
  | dropped e => cases h
  | done => cases h
  | raised e => cases h

end Isolated

theorem online_setClient (h : Online (r.clients i) c) (k : ℕ) (pc : TaskPc) (j : ι) :
    Online (r.clients j) (((r.setClient i c).setPc k pc).clients j) := by
  change Online _ (Function.update r.clients i c j)
  by_cases hj : j = i
  · subst hj
    rwa [Function.update_self]
  · rw [Function.update_of_ne hj]
    exact .refl _

theorem online_ackBegin (r : Router KP ι) (k : ℕ) (i : ι) (pkt : AppPacket) (j : ι) :
    Online (r.clients j) ((r.ackBegin A k i pkt).clients j) := by
  have hc := online_queueMsgAsyncBegin A r.clock (.str "ack") pkt.srcPkHex pkt.queueIdHex .msgack
    (some pkt.seqNo) (r.clients i)
  rw [← final_catchLogged logged] at hc
  unfold ackBegin
  split
  · rename_i h
    rw [h] at hc
    exact online_setClient hc k _ j
  · rename_i h
    rw [h] at hc
    exact online_setClient hc k _ j
  · rename_i h
    rw [h] at hc
    exact online_setClient hc k _ j

theorem online_deliver (r : Router KP ι) (k : ℕ) (i : ι) (pkt : AppPacket) (todo : List ℕ)
    (size : ℕ) (j : ι) : Online (r.clients j) ((r.deliver A k i pkt todo size).clients j) := by
  unfold deliver
  split_ifs
  · exact .refl _
  · cases todo with
    | nil => exact online_ackBegin r k i pkt j
    | cons y todo => exact .refl _

theorem online_route (r : Router KP ι) (k : ℕ) (i : ι) (rnd : ℕ) (pkt : AppPacket) (j : ι) :
    Online (r.clients j) ((r.route A k i rnd pkt).clients j) := by
  unfold route
  split_ifs
  · exact .refl _
  · have hc := online_processAppMsgBegin A pkt (r.clients i)
    unfold processAppMsg
    split <;>
    · rename_i h
      rw [h] at hc
      exact online_setClient hc k _ j
  · exact online_setClient (online_processAppAck _ _) k _ j
  · have hc := MQTTClient.online_processAppProbe A rnd r.clock pkt (.ok ()) (r.clients i)
    unfold processAppProbe
    split <;>
    · rename_i h
      rw [h] at hc
      exact online_setClient hc k _ j
  · exact .refl _

theorem online_resume (h : r.resume A k res = some r') (j : ι) :
    Online (r.clients j) (r'.clients j) := by
  unfold resume at h
  split at h
  · cases h
  · rename_i i topic payload pc hk
    obtain e | rnd := res
    · obtain ⟨pc', -, rfl⟩ := Option.map_eq_some_iff.mp h
      exact .refl _
    cases pc with
    | puback => cases h; exact .refl _
    | verifying =>
      simp only at h
      split at h
      · cases h; exact .refl _
      · cases h; exact .refl _
      · cases h; exact online_route r k i rnd _ j
    | hashing pkt =>
      cases h
      unfold dedup
      split_ifs
      · exact online_ackBegin r k i pkt j
      · exact online_deliver { r with
          recvMsgIds := r.recvMsgIds.set (A.msgHash pkt.msg) r.clock } k i pkt _ _ j
    | handling pkt todo size => cases h; exact online_deliver r k i pkt todo size j
    | signing pkt s signed =>
      cases h
      have hc := online_queueMsgAsyncEnd A rnd r.clock (.str "ack") pkt.srcPkHex pkt.queueIdHex
        .msgack s signed (r.clients i)
      rw [← final_catchLogged logged] at hc
      unfold ackEnd
      split <;>
      · rename_i h
        rw [h] at hc
        exact online_setClient hc k _ j
    | sending => cases h; exact .refl _
    | dropped e => cases h
    | done => cases h
    | raised e => cases h

omit [DecidableEq ι] in
theorem Turn.opened (h : Turn A r t res pc c recv calls) (hpc : pc = .signing pkt s signed) :
    (c.queue .msgack pkt.queueIdHex).isSome := by
  have hack : ∀ {now pkt' c'}, AckStarts A now pkt' c' pc c →
      (c.queue .msgack pkt.queueIdHex).isSome := by
    intro now pkt' c' ha
    cases ha with
    | signing hw hs hq => cases hpc; exact hq
    | failed hw hpc' he => rcases hpc' with rfl | rfl <;> cases hpc
  cases h with
  | topic =>
    obtain ⟨e, he⟩ | he := checkTopic_pc (A := A) r t.client t.topic <;>
    · rw [he] at hpc; cases hpc
  | again h hp hm ho he hpc' => obtain rfl | ⟨e, rfl⟩ := hpc' <;> cases hpc
  | probe h hp hm hpc' => obtain rfl | ⟨e, rfl⟩ := hpc' <;> cases hpc
  | signed h hpc' => obtain rfl | ⟨e, rfl⟩ := hpc' <;> cases hpc
  | seen h hr ha => exact hack ha
  | unheard h hn hl ha => exact hack ha
  | last h ha => exact hack ha
  | drop | fresh | ack | first | next | changed | sent => cases hpc
  | failed hf => obtain ⟨-, rfl⟩ | ⟨-, -, rfl⟩ := failed_cases hf <;> cases hpc

theorem Opened.step (hA : A.Lawful) (hs : Sound A r) (h : Opened r) (hx : x.inbound = true)
    (hM : Move A r x r') : Opened r' := by
  have hkept : ∀ i q, ((r.clients i).queue .msgack q).isSome →
      ((r'.clients i).queue .msgack q).isSome := by
    intro i q hq
    refine ((hM.writes hA hs i).queue_kept hq).resolve_right fun hu => ?_
    cases hu
    cases hx
  have hold : ∀ t ∈ r.tasks, ∀ pkt s signed, t.pc = .signing pkt s signed →
      ((r'.clients t.client).queue .msgack pkt.queueIdHex).isSome :=
    fun t ht pkt s signed hpc => hkept _ _ (h t ht pkt s signed hpc)
  intro t ht pkt s signed hpc
  cases hM with
  | tick | client | prune => exact hold t ht pkt s signed hpc
  | @recv i topic payload withId pc hpc' =>
    rcases List.mem_append.mp ht with ht | ht
    · exact hold t ht pkt s signed hpc
    · rw [List.mem_singleton.mp ht] at hpc
      obtain rfl | ⟨e, rfl⟩ | rfl := hpc'
      · cases hpc
      · cases hpc
      · change r.checkTopic A i topic = _ at hpc
        obtain ⟨e, he⟩ | he := checkTopic_pc (A := A) r i topic <;>
        · rw [he] at hpc; cases hpc
  | turn hk hT =>
    obtain ht | rfl := mem_tasks_afterTurn hk ht
    · exact hold t ht pkt s signed hpc
    · have hq := hT.opened hpc
      simp only [afterTurn, Function.update_self]
      exact hq

omit [DecidableEq ι] in
theorem Turn.outdated {q : String} (hk : r.tasks[k]? = some t)
    (hT : Turn A r t res pc c recv calls)
    (hc : Cause A r t.client (.resume k res) (.forget .msgack q s)) :
    c = r.clients t.client ∨ ∃ pkt, (t.client, pkt) ∈ r.lookingUp A k ∧
      AppPacket.unpack A t.payload = .ok (some pkt) ∧ pkt.msgType = MsgEnum.msg.value ∧
      pkt.queueIdHex = q ∧ s < pkt.seqNo := by
  cases hc with
  | @outdated k rnd t' pkt s hk' hi hpc hp hm hs =>
    rw [hk] at hk'
    cases hk'
    have hl : (r.clients t.client).tooOld r.clock pkt = false →
        (t.client, pkt) ∈ r.lookingUp A k := by
      intro ho
      simp [lookingUp, hk, hpc, hp, hm, ho]
    have hsame : ∀ {pkt'}, AppPacket.unpack A t.payload = .ok (some pkt') → pkt' = pkt := by
      intro pkt' hp'
      rw [hp] at hp'
      cases hp'
      rfl
    cases hT with
    | drop => exact .inl rfl
    | again h hp' hm' ho =>
      obtain rfl := hsame hp'
      exact .inr ⟨_, hl ho, hp, hm, rfl, hs⟩
    | fresh h hp' hm' ho =>
      obtain rfl := hsame hp'
      exact .inr ⟨_, hl ho, hp, hm, rfl, hs⟩
    | ack h hp' hm' =>
      obtain rfl := hsame hp'
      rw [hm] at hm'
      cases hm'
    | probe h hp' hm' =>
      obtain rfl := hsame hp'
      rw [hm] at hm'
      cases hm'
    | topic h | seen h | first h | unheard h | next h | changed h | last h | signed h | sent h =>
      rw [hpc] at h
      cases h

omit [DecidableEq ι] in
theorem Turn.ackFor_eq (hA : A.Lawful) (hs : Sound A r) (hk : r.tasks[k]? = some t)
    (hT : Turn A r t res pc c recv calls) (hU : Undisturbed A a r (.resume k res))
    (hown : ∀ pkt, AppPacket.unpack A t.payload = .ok (some pkt) → pkt.srcPkHex ≠ a) (q : String)
    (s : ℤ) : c.ackFor a q s = (r.clients t.client).ackFor a q s := by
  have hw := hT.writes hA hs hk
  have hreg : ∀ x, Cause A r t.client (.resume k res) (.register x) → x.destPkHex ≠ a ∧
      (r.clients t.client).entry .msgack x.queueIdHex x.seqNo = none := by
    intro x hx
    cases hx with
    | @acked k rnd t' pkt signed out ack hk' hi hpc hn =>
      rw [hk] at hk'
      cases hk'
      have hh := hs.holds t (List.mem_of_getElem? hk)
      rw [hpc] at hh
      exact ⟨hown pkt hh.1.1, hn⟩
    | @probeAcked k rnd t' pkt out ack hk' hi hpc hp hm hn =>
      rw [hk] at hk'
      cases hk'
      exact ⟨hown pkt hp, hn⟩
  unfold ackFor
  cases hm : (r.clients t.client).entry .msgack q s with
  | none =>
    cases hm' : c.entry .msgack q s with
    | none => rfl
    | some m' =>
      obtain ⟨m, hm'', -⟩ | ⟨msg, hx, -⟩ := hw.entry_cases hm'
      · rw [hm] at hm''; cases hm''
      · simp [Option.filter, (show m'.destPkHex ≠ a from (hreg _ hx).1)]
  | some m =>
    have hsame : ∀ {m'}, m'.core = m.core → c.entry .msgack q s = some m' →
        ((c.entry .msgack q s).filter fun m => m.destPkHex = a).map Meta.out =
          ((some m).filter fun m => m.destPkHex = a).map Meta.out := by
      intro m' hcore hm'
      rw [hm']
      simp only [Option.filter, Meta.destPkHex_eq_of_core hcore]
      split_ifs
      · rw [Option.map_some, Option.map_some, Meta.out_eq_of_core hcore]
      · rfl
    obtain ⟨m', hm', hcore⟩ | hf | hu | ⟨x, hx, -, hxq, hxs⟩ := hw.entry_kept hm
    · exact hsame hcore hm'
    · obtain rfl | ⟨pkt, hl, hp, hty, rfl, hlt⟩ := hT.outdated hk hf
      · exact hsame rfl hm
      · have hne : m.destPkHex ≠ a := by
          have hsp := hU.spared k rfl _ hl (hown pkt hp) hty
          cases hd : (r.clients t.client).queue .msgack pkt.queueIdHex with
          | none => rw [entry, hd] at hm; cases hm
          | some d =>
            rw [entry_of_queue hd] at hm
            exact hsp d hd (s, m) (PyDict.get?_eq_some_iff.mp hm) hlt
        cases hm' : c.entry .msgack pkt.queueIdHex s with
        | none => simp [Option.filter, hne]
        | some m' =>
          obtain ⟨m'', hm'', hcore⟩ | ⟨msg, hx, -⟩ := hw.entry_cases hm'
          · rw [hm] at hm''
            cases hm''
            rw [← hm']
            exact hsame hcore hm'
          · simp [Option.filter, hne, (show m'.destPkHex ≠ a from (hreg _ hx).1)]
    · cases hu
    · obtain ⟨-, hn⟩ := hreg x hx
      rw [hxq, hxs, hm] at hn
      cases hn

namespace Isolated

variable (hI : Isolated A a r u)

include hI

/-- Somebody else's packet changes nothing for the sender. -/
theorem foreign (hA : A.Lawful) (hU : Undisturbed A a r (.resume k res))
    (hk : r.tasks[k]? = some t) (hown : fromKey A a t.payload = false)
    (hT : Turn A r t res pc c recv calls)
    (hM : Move A r (.resume k res) (r.afterTurn k t pc c recv calls))
    (hon : ∀ j, Online (r.clients j) ((r.afterTurn k t pc c recv calls).clients j)) :
    Isolated A a (r.afterTurn k t pc c recv calls) u := by
  have hne : ∀ pkt, AppPacket.unpack A t.payload = .ok (some pkt) → pkt.srcPkHex ≠ a := by
    intro pkt hp ha
    rw [fromKey_iff.mpr ⟨pkt, hp, ha⟩] at hown
    cases hown
  have hs := hI.sound.1
  have hholds := hs.holds t (List.mem_of_getElem? hk)
  have hw := hM.writes hA hs
  refine
    { sound := ⟨hM.sound hA hs, hI.sound.2⟩
      opened := ⟨hI.opened.1.step hA hs rfl hM, hI.opened.2⟩
      running := hI.running
      clock := hI.clock
      tasks := ?_
      alike := fun j => ?_
      stamped := fun id hid => ?_
      heard := fun v hv hva => ?_
      handling := hI.handling }
  · rw [hI.tasks]
    exact (List.filter_modify_of_neg (p := ofKey A a) (f := fun t => { t with pc }) (fun _ => rfl) hk
      hown).symm
  · have hj := hI.alike j
    refine
      { kp := hj.kp.trans (hw j).grows.kp.symm
        msgHandlers := hj.msgHandlers.trans ((hw j).msgHandlers fun x hx => nomatch hx).symm
        republishDuration := hj.republishDuration.trans (hw j).grows.republishDuration.symm
        pipe := hj.pipe.trans (hon j).pipe.symm
        inFlight := hj.inFlight.trans (hon j).inFlightCount_le
        acks := fun q s => ?_
        own := hj.own }
    rw [hj.acks]
    by_cases hjt : j = t.client
    · subst hjt
      simp only [afterTurn, Function.update_self]
      exact (hT.ackFor_eq hA hs hk hU hne q s).symm
    · simp only [afterTurn, Function.update_of_ne hjt]
  · obtain hr | ⟨pkt', -, -, -, hr⟩ := hT.recv_cases hholds
    · simp only [afterTurn, hr]
      exact hI.stamped id hid
    · simp only [afterTurn, hr]
      exact PyDict.contains_set_of_contains (hI.stamped id hid)
  · rcases List.mem_append.mp hv with hv | hv
    · exact hI.heard v hv hva
    · obtain ⟨y, hy, rfl⟩ := List.mem_map.mp hv
      exact absurd hva (hne _ (hT.calls_pkt hholds y hy))

/-- The sender's packet is handled in both runs with the same reaction. -/
theorem own_turn (hA : A.Lawful) (hU : Undisturbed A a r (.resume k res))
    (hk : r.tasks[k]? = some t) (hown : fromKey A a t.payload = true)
    (h : r.resume A k res = some r') :
    ∃ u', u.resume A (r.tasks.rank (ofKey A a) k) res = some u' ∧ Isolated A a r' u' ∧
      u.reaction A a (.resume (r.tasks.rank (ofKey A a) k) res) u' =
        r.reaction A a (.resume k res) r' := by
  have hj := hI.getElem?_rank hk hown
  obtain ⟨u', hu', pc, c, d, recv, recv', calls, rfl, rfl, hR, hle, hmono, hcalls, hpc⟩ :=
    hI.sameTurn_resume hU hk hown hj h
  have hMr : Move A r (.resume k res) _ := act_spec hA h
  have hMu : Move A u (.resume (r.tasks.rank (ofKey A a) k) res) _ := act_spec hA hu'
  refine ⟨_, hu', ?_, ?_⟩
  · refine
      { sound := ⟨hMr.sound hA hI.sound.1, hMu.sound hA hI.sound.2⟩
        opened := ⟨hI.opened.1.step hA hI.sound.1 rfl hMr, hI.opened.2.step hA hI.sound.2 rfl hMu⟩
        running := hI.running
        clock := hI.clock
        tasks := ?_
        alike := fun i => ?_
        stamped := hle
        heard := fun v hv hva => ?_
        handling := fun t' ht' pkt todo size hpc' => ?_ }
    · simp only [afterTurn, hI.tasks]
      exact (List.filter_modify_of_pos (p := ofKey A a) (f := fun t => { t with pc }) (fun _ => rfl) hk
        hown).symm
    · by_cases hi : i = t.client
      · subst hi
        simp only [afterTurn, Function.update_self]
        exact hR.alike
      · simp only [afterTurn, Function.update_of_ne hi]
        exact hI.alike i
    · rcases List.mem_append.mp hv with hv | hv
      · exact hmono _ (hI.heard v hv hva)
      · obtain ⟨y, hy, rfl⟩ := List.mem_map.mp hv
        exact hcalls y hy
    · obtain ht' | rfl := mem_tasks_afterTurn hj ht'
      · exact hmono _ (hI.handling t' ht' pkt todo size hpc')
      · exact hpc pkt todo size hpc'
  · obtain ⟨l, hlc, hld⟩ := hR.queued
    obtain ⟨l', hlc', hld'⟩ := hR.sent
    simp only [reaction, hk, hj, hown, if_true, afterTurn, Function.update_self, hlc, hld, hlc', hld',
      List.map_append, hI.clock, Option.some.injEq, Reaction.mk.injEq, true_and]
    refine ⟨?_, ?_, ?_⟩
    · rw [List.drop_left' (by simp), List.drop_left' (by simp), List.map_map, List.map_map]
      rfl
    · rw [List.drop_left' (by simp), List.drop_left' (by simp)]
    · rw [List.drop_left' (by simp), List.drop_left' (by simp)]

theorem step (hA : A.Lawful) (hx : x.inbound = true) (hU : Undisturbed A a r x)
    (h : r.step A x = some r') :
    (∃ y u', r.isolateAction A a x = some y ∧ u.step A y = some u' ∧ Isolated A a r' u' ∧
      u.reaction A a y u' = r.reaction A a x r') ∨
    r.isolateAction A a x = none ∧ Isolated A a r' u ∧ r.reaction A a x r' = none := by
  have hact := act_of_step h
  have hstep : ∀ y, u.step A y = u.act A y := by
    intro y
    unfold Router.step
    rw [hI.running.2]
  cases x with
  | tick n =>
    simp only [act] at hact
    split_ifs at hact with hn
    cases hact
    refine .inl ⟨.tick n, { u with clock := n }, rfl, ?_, ?_, rfl⟩
    · rw [hstep, act, hI.clock, if_pos hn]
    · have hMr : Move A r (.tick n) { r with clock := n } := .tick hn.1 hn.2
      have hMu : Move A u (.tick n) { u with clock := n } := .tick (hI.clock ▸ hn.1) hn.2
      exact
        { hI with
          sound := ⟨hMr.sound hA hI.sound.1, hMu.sound hA hI.sound.2⟩
          opened := hI.opened
          clock := rfl }
  | recv i topic payload withId =>
    have hM := act_spec hA hact
    cases hact
    by_cases hown : fromKey A a payload = true
    · have hMu := act_spec hA (show u.act A (.recv i topic payload withId) = some _ from rfl)
      have hpc : u.handlePublish A i topic payload withId =
          { u with tasks := (r.handlePublish A i topic payload withId).tasks.filter (ofKey A a) } := by
        simp only [handlePublish, hI.checkTopic, (hI.alike i).pipe, hI.tasks, List.filter_append]
        simp [ofKey, hown]
      refine .inl ⟨.recv i topic payload withId, u.handlePublish A i topic payload withId,
        by simp [isolateAction, hown], hstep _, ?_, rfl⟩
      exact
        { hI with
          sound := ⟨hM.sound hA hI.sound.1, hMu.sound hA hI.sound.2⟩
          opened := ⟨hI.opened.1.step hA hI.sound.1 rfl hM, hI.opened.2.step hA hI.sound.2 rfl hMu⟩
          tasks := by rw [hpc]
          handling := by
            intro t ht pkt todo size hpc'
            rcases List.mem_append.mp ht with ht | ht
            · exact hI.handling t ht pkt todo size hpc'
            · rw [List.mem_singleton.mp ht] at hpc'
              simp only at hpc'
              split_ifs at hpc'
              obtain ⟨e, he⟩ | he := checkTopic_pc (A := A) u i topic <;>
              · rw [he] at hpc'; cases hpc' }
    · have hown' : fromKey A a payload = false := Bool.eq_false_of_not_eq_true hown
      refine .inr ⟨by simp [isolateAction, hown'], ?_, rfl⟩
      exact
        { hI with
          sound := ⟨hM.sound hA hI.sound.1, hI.sound.2⟩
          opened := ⟨hI.opened.1.step hA hI.sound.1 rfl hM, hI.opened.2⟩
          tasks := by
            rw [hI.tasks]
            simp [handlePublish, List.filter_append, ofKey, hown'] }
  | resume k res =>
    obtain ⟨t, pc, c, recv, calls, hk, hT, rfl⟩ := resume_spec hact
    by_cases hown : fromKey A a t.payload = true
    · obtain ⟨u', hu', hI', hre⟩ := hI.own_turn hA hU hk hown hact
      refine .inl ⟨.resume (r.tasks.rank (ofKey A a) k) res, u', ?_, (hstep _).trans hu', hI', hre⟩
      simp [isolateAction, hk, ofKey, hown]
    · have hown' : fromKey A a t.payload = false := Bool.eq_false_of_not_eq_true hown
      refine .inr ⟨?_, hI.foreign hA hU hk hown' hT (act_spec hA hact) (online_resume hact), ?_⟩
      · simp [isolateAction, hk, ofKey, hown']
      · simp [reaction, hk, hown']
  | _ => cases hx

end Isolated

/-- Along a whole run. -/
theorem Isolated.run (hA : A.Lawful) : ∀ {r u r' : Router KP ι} {xs : List (Action ι)},
    Isolated A a r u → (∀ x ∈ xs, x.inbound = true) →
    Machine.Meets (Router.step A) (Undisturbed A a) r xs →
    Machine.run (Router.step A) r xs = some r' →
    ∃ u', Machine.run (Router.step A) u (isolate A a r xs) = some u' ∧ Isolated A a r' u' ∧
      reactions A a u (isolate A a r xs) = reactions A a r xs
  | r, u, r', [], hI, _, _, h => by
    cases h
    exact ⟨u, rfl, hI, rfl⟩
  | r, u, r', x :: xs, hI, hx, hm, h => by
    obtain ⟨r₁, h₁, h⟩ := Machine.run_cons_eq_some.mp h
    have hrest : ∀ y ∈ xs, y.inbound = true := fun y hy => hx y (List.mem_cons_of_mem x hy)
    obtain ⟨y, u₁, hy, hu₁, hI₁, hre⟩ | ⟨hy, hI₁, hre⟩ :=
      hI.step hA (hx x (List.mem_cons_self ..)) hm.1 h₁
    · obtain ⟨u', hu', hI', hrs⟩ := Isolated.run hA hI₁ hrest (hm.2 r₁ h₁) h
      refine ⟨u', ?_, hI', ?_⟩
      · simp only [isolate, h₁, hy]
        exact Machine.run_cons_eq_some.mpr ⟨u₁, hu₁, hu'⟩
      · simp only [isolate, reactions, h₁, hy, Option.toList_some, List.singleton_append, hu₁, hre, hrs]
    · obtain ⟨u', hu', hI', hrs⟩ := Isolated.run hA hI₁ hrest (hm.2 r₁ h₁) h
      refine ⟨u', ?_, hI', ?_⟩
      · simp only [isolate, h₁, hy, Option.toList_none, List.nil_append]
        exact hu'
      · simp only [isolate, reactions, h₁, hy, Option.toList_none, List.nil_append, hre, hrs]

/-- Whatever other senders send: as long as nobody takes a key of the sender's packets or outdates
the sender's acks, the sender gets what it would get alone, in every interleaving. -/
theorem sender_isolated (hA : A.Lawful) {r₀ : Router KP ι} {xs : List (Action ι)} (h₀ : Fresh r₀)
    (hx : ∀ x ∈ xs, x.inbound = true) (hm : Machine.Meets (step A) (Undisturbed A a) r₀ xs)
    (hrun : Machine.run (step A) r₀ xs = some r) :
    ∃ u, Machine.run (step A) r₀ (isolate A a r₀ xs) = some u ∧
      reactions A a r₀ (isolate A a r₀ xs) = reactions A a r₀ xs ∧
      ∀ i q s, (u.clients i).ackFor a q s = (r.clients i).ackFor a q s := by
  obtain ⟨u, hu, hI, hre⟩ := Isolated.run hA h₀.isolated hx hm hrun
  exact ⟨u, hu, hre, fun i q s => (hI.alike i).acks q s⟩

end Lockstep

section Runs

variable {A : Aio KP} {a : String} {r : Router KP ι} {x : Action ι}

instance (c : MQTTClient KP) : Decidable (FreeId c) :=
  match h : getPacketId c with
  | .ok pid d => isTrue ((getPacketId_ok_iff c).mp ⟨pid, d, h⟩)
  | .error e d => isFalse fun hf => by
    obtain ⟨pid, d', h'⟩ := (getPacketId_ok_iff c).mpr hf
    rw [h] at h'
    cases h'

instance (c : MQTTClient KP) (q : String) (s : ℤ) : Decidable (Spared a c q s) :=
  inferInstanceAs (Decidable (∀ d ∈ c.queue .msgack q, ∀ e ∈ d.metas.entries, _))

instance : Decidable (Undisturbed A a r x) :=
  decidable_of_iff
    ((∀ k ∈ x.resumed, ∀ y ∈ r.lookingUp A k, y.2.srcPkHex = a →
        Unclaimed a (r.clients y.1) y.2.queueIdHex y.2.seqNo) ∧
      (∀ k ∈ x.resumed, ∀ y ∈ r.registering k, y.2.srcPkHex = a →
        Unclaimed a (r.clients y.1) y.2.queueIdHex y.2.seqNo) ∧
      (∀ k ∈ x.resumed, ∀ t ∈ r.tasks[k]?, ∀ pkt ∈ r.checking k, pkt.srcPkHex = a →
        r.recvMsgIds.contains (A.msgHash pkt.msg) = true →
          (r.clients t.client).msgHandlers.toList = [] ∨
            ∃ v ∈ r.log, v.pkt.srcPkHex = a ∧ A.msgHash v.pkt.msg = A.msgHash pkt.msg) ∧
      (∀ k ∈ x.resumed, ∀ y ∈ r.lookingUp A k, y.2.srcPkHex ≠ a →
        y.2.msgType = MsgEnum.msg.value → Spared a (r.clients y.1) y.2.queueIdHex y.2.seqNo) ∧
      ∀ k ∈ x.resumed, ∀ y ∈ r.lookingUp A k, y.2.srcPkHex = a →
        (y.2.msgType = MsgEnum.msg.value ↔
          ((r.clients y.1).entry .msgack y.2.queueIdHex y.2.seqNo).isSome) → FreeId (r.clients y.1))
    ⟨fun h => ⟨h.1, h.2.1, h.2.2.1, h.2.2.2.1, h.2.2.2.2⟩,
      fun h => ⟨h.lookup, h.register, h.stamped, h.spared, h.packetId⟩⟩

end Runs

open Concrete

def twoSenders : List (Action Unit) :=
  let seven := signedBy 7 100 (queueId 'a') 0 .msg "hello"
  let eight := signedBy 8 100 (queueId 'b') 0 .msg "good morning"
  let probe := signedBy 8 100 (queueId 'c') 0 .probe ""
  [.tick 101, .recv () (concrete.pkHex 1) seven false, .recv () (concrete.pkHex 1) eight false,
    .resume 0 (.ok 0), .resume 1 (.ok 0), .resume 0 (.ok 0), .resume 1 (.ok 0),
    .recv () (concrete.pkHex 1) probe false, .resume 0 (.ok 0), .resume 1 (.ok 0),
    .resume 2 (.ok 0), .resume 0 (.ok 0), .resume 1 (.ok 0),
    .recv () (concrete.pkHex 1) eight false, .resume 3 (.ok 0), .resume 3 (.ok 0)]

theorem sender_isolated_two :
    ∃ r, Machine.run (step concrete) (connected 1 ⟨[5], by decide⟩ 100) twoSenders = some r ∧
      ∃ u, Machine.run (step concrete) (connected 1 ⟨[5], by decide⟩ 100)
          (isolate concrete (concrete.pkHex 8) (connected 1 ⟨[5], by decide⟩ 100) twoSenders) =
            some u ∧
        reactions concrete (concrete.pkHex 8) (connected 1 ⟨[5], by decide⟩ 100)
            (isolate concrete (concrete.pkHex 8) (connected 1 ⟨[5], by decide⟩ 100) twoSenders) =
          reactions concrete (concrete.pkHex 8) (connected 1 ⟨[5], by decide⟩ 100) twoSenders ∧
        ∀ i q s, (u.clients i).ackFor (concrete.pkHex 8) q s =
          (r.clients i).ackFor (concrete.pkHex 8) q s := by
  obtain ⟨r, hr, hm, -⟩ := Machine.exists_runMeeting_of_any (step concrete)
    (Undisturbed concrete (concrete.pkHex 8)) (connected 1 ⟨[5], by decide⟩ 100) twoSenders
    (fun r => decide (r.log.length = 2)) (by decide +kernel)
  exact ⟨r, hr, sender_isolated concrete_lawful
    (fresh_connected 1 ⟨[5], by decide⟩ (by norm_num) (by decide +kernel))
    (by decide +kernel) hm hr⟩

def sameText : List (Action Unit) :=
  let seven := signedBy 7 100 (queueId 'a') 0 .msg "hello"
  let eight := signedBy 8 100 (queueId 'b') 0 .msg "hello"
  [.tick 101, .recv () (concrete.pkHex 1) seven false, .resume 0 (.ok 0), .resume 0 (.ok 0),
    .resume 0 (.ok 0), .resume 0 (.ok 0), .recv () (concrete.pkHex 1) eight false,
    .resume 1 (.ok 0), .resume 1 (.ok 0), .resume 1 (.ok 0)]

/-- No handler is called with the message of sender 8, which alone would have been delivered. -/
theorem not_sender_isolated :
    ∃ r u, Machine.run (step concrete) (connected 1 ⟨[5], by decide⟩ 100) sameText = some r ∧
      Machine.run (step concrete) (connected 1 ⟨[5], by decide⟩ 100)
        (isolate concrete (concrete.pkHex 8) (connected 1 ⟨[5], by decide⟩ 100) sameText) = some u ∧
      (∀ v ∈ r.log, v.pkt.srcPkHex ≠ concrete.pkHex 8) ∧ (∀ t ∈ r.tasks, t.pc = .done) ∧
      (∃ v ∈ u.log, v.pkt.srcPkHex = concrete.pkHex 8) ∧
      reactions concrete (concrete.pkHex 8) (connected 1 ⟨[5], by decide⟩ 100)
          (isolate concrete (concrete.pkHex 8) (connected 1 ⟨[5], by decide⟩ 100) sameText) ≠
        reactions concrete (concrete.pkHex 8) (connected 1 ⟨[5], by decide⟩ 100) sameText := by
  have hall : (Machine.run (step concrete) (connected 1 ⟨[5], by decide⟩ 100) sameText).any
        (fun r => decide ((∀ v ∈ r.log, v.pkt.srcPkHex ≠ concrete.pkHex 8) ∧
          ∀ t ∈ r.tasks, t.pc = .done)) = true ∧
      (Machine.run (step concrete) (connected 1 ⟨[5], by decide⟩ 100)
        (isolate concrete (concrete.pkHex 8) (connected 1 ⟨[5], by decide⟩ 100) sameText)).any
        (fun u => decide (∃ v ∈ u.log, v.pkt.srcPkHex = concrete.pkHex 8)) = true ∧
      reactions concrete (concrete.pkHex 8) (connected 1 ⟨[5], by decide⟩ 100)
          (isolate concrete (concrete.pkHex 8) (connected 1 ⟨[5], by decide⟩ 100) sameText) ≠
        reactions concrete (concrete.pkHex 8) (connected 1 ⟨[5], by decide⟩ 100) sameText := by
    decide +kernel
  obtain ⟨r, hr, hd⟩ := Machine.exists_run_of_any (step concrete) _ sameText _ hall.1
  obtain ⟨u, hu, hd'⟩ := Machine.exists_run_of_any (step concrete) _ _ _ hall.2.1
  exact ⟨r, u, hr, hu, (of_decide_eq_true hd).1, (of_decide_eq_true hd).2, of_decide_eq_true hd',
    hall.2.2⟩

end Router

end Sidewire
