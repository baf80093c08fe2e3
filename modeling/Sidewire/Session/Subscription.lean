import Sidewire.Mqtt.PacketIds
import Sidewire.Session.Handshake

/-! # The subscription of a handshake

One execution of `mqtt_connect` on a client whose packet ids are in use. Bytes
come in chunk by chunk, the packet reader hands their packets on, and a broker
acknowledgement among them may set the future that the handshake waits for. Other
code takes packet ids, gives up futures and resets the tables in between.
-/

namespace Sidewire

variable {KP : Type}

def nextPacket (buf : Bytes) : Option MQTTPacket :=
  match scan buf with
  | .packet pkt _ => some pkt
  | _ => none

def Connection.arriving (c : Connection) (chunk : Bytes) : Option MQTTPacket :=
  if chunk = [] then none else nextPacket (c.buf.map Prod.snd ++ chunk)

def ackType : MQTTEnum → Option AckType
  | .suback => some .suback
  | .puback => some .puback
  | _ => none

/-- A handshake with the packet ids of its client. `requested` is the packet id of its SUBSCRIBE
with the future returned for it, and `handled` remembers the packets handed on so far. -/
structure Subscription (KP : Type) where
  conn : Connection
  stage : MqttConnect
  ids : InFlight KP
  requested : Option (ℕ × ℕ)
  handled : List MQTTPacket

namespace Subscription

def init (kp : KP) (handlers : HandlerSet) (conn : Connection) : Subscription KP where
  conn := conn
  stage := .connecting
  ids := .init kp handlers
  requested := none
  handled := []

inductive Event
  | reply (r : Reply) (atOnce : Bool)
  | chunk (p : ℕ) (bytes : Bytes)
  | resume
  | other (op : InFlight.Op)

def cut (pipelined : Bool) (s : Subscription KP) : Event → Option MQTTPacket
  | .reply (.data connackRaw) _ =>
    match s.stage with
    | .awaitingConnack _ =>
      if pipelined = true ∧ connackRaw.take 4 = MqttConnect.connack then
        s.conn.arriving (connackRaw.drop 4)
      else none
    | _ => none
  | .reply _ _ => none
  | .chunk _ bytes => s.conn.arriving bytes
  | .resume => nextPacket (s.conn.buf.map Prod.snd)
  | .other _ => none

/-- `handle_mqtt_packet`, as far as it touches the packet ids. -/
def handle (s : Subscription KP) : Option MQTTPacket → Subscription KP
  | none => s
  | some pkt =>
    { s with
      handled := s.handled ++ [pkt]
      ids := match ackType pkt.type with
        | some t => s.ids.handleBrokerAck t pkt.body
        | none => s.ids }

def Ready (s : Subscription KP) : Reply → Prop
  | .codes codes => ∃ e ∈ s.requested, s.ids.futures e.2 = .result (.codes codes)
  | _ => True

instance (s : Subscription KP) : ∀ r, Decidable (s.Ready r)
  | .codes codes =>
    inferInstanceAs (Decidable (∃ e ∈ s.requested, s.ids.futures e.2 = .result (.codes codes)))
  | .pipe _ | .sent | .data _ | .done | .raised _ _ => isTrue trivial

/-- The call of `subscribe`. If it raises, the handshake goes where the handler around it says. -/
def callSubscribe (A : Aio KP) (s : Subscription KP) (atOnce : Bool) : Subscription KP :=
  match MQTTClient.subscribe A (A.pkHex s.ids.client.kp) s.ids.client with
  | .ok (_, pid) d =>
    { s with
      ids := ⟨d, s.ids.futures⟩
      requested := ((d.packetIds .suback).get? pid).map fun f => (pid, f) }
  | .error e d =>
    match s.stage with
    | .sendingSubscribe p =>
      { s with
        conn := (MqttConnect.unwind s.conn p (.other e) atOnce).1
        stage := (MqttConnect.unwind s.conn p (.other e) atOnce).2
        ids := ⟨d, s.ids.futures⟩ }
    | _ => { s with stage := .raised (.other e), ids := ⟨d, s.ids.futures⟩ }

def arrive (A : Aio KP) (s : Subscription KP) (atOnce : Bool) : Subscription KP :=
  match s.stage with
  | .sendingSubscribeFirst _ => s.callSubscribe A atOnce
  | .sendingSubscribe _ => s.callSubscribe A atOnce
  | _ => s

def step (A : Aio KP) (pipelined : Bool) (s : Subscription KP) (e : Event) :
    Option (Subscription KP) :=
  match e with
  | .reply r atOnce =>
    if s.Ready r then
      match s.stage.resume pipelined s.conn r atOnce with
      | some (conn, stage) =>
        some ((({ s with conn, stage } : Subscription KP).handle (s.cut pipelined e)).arrive A
          atOnce)
      | none => none
    else none
  | .chunk p bytes =>
    some (({ s with conn := s.conn.receive p bytes } : Subscription KP).handle (s.cut pipelined e))
  | .resume =>
    if 0 < s.conn.reading then
      some (({ s with
        conn := ({ s.conn with reading := s.conn.reading - 1 } : Connection).pass } :
          Subscription KP).handle (s.cut pipelined e))
    else none
  | .other op =>
    match op with
    | .ack _ _ => none
    | op => (InFlight.step A s.ids op).map fun ids => { s with ids }

end Subscription

def MQTTPacket.IsSuback (pkt : MQTTPacket) (pid : ℕ) : Prop :=
  pkt.type = .suback ∧ pkt.body.take 2 = packId pid

instance (pkt : MQTTPacket) (pid : ℕ) : Decidable (pkt.IsSuback pid) :=
  inferInstanceAs (Decidable (pkt.type = .suback ∧ pkt.body.take 2 = packId pid))

def OneCode (codes : Bytes) : Prop := codes.length = 1 ∨ ∃ code ∈ codes, code ≠ 1

instance (codes : Bytes) : Decidable (OneCode codes) :=
  inferInstanceAs (Decidable (codes.length = 1 ∨ ∃ code ∈ codes, code ≠ 1))

namespace Subscription

def Granted (s : Subscription KP) : Prop :=
  ∃ pid f, s.requested = some (pid, f) ∧
    ∃ pkt ∈ s.handled, pkt.IsSuback pid ∧ pkt.body.drop 2 = [1]

def AnswersOnce (pipelined : Bool) (s : Subscription KP) (e : Event) : Prop :=
  ∀ pkt ∈ s.cut pipelined e, ∀ r ∈ s.requested, pkt.IsSuback r.1 → OneCode (pkt.body.drop 2)

instance (pipelined : Bool) (s : Subscription KP) (e : Event) :
    Decidable (s.AnswersOnce pipelined e) :=
  inferInstanceAs (Decidable (∀ pkt ∈ s.cut pipelined e, ∀ r ∈ s.requested, pkt.IsSuback r.1 →
    OneCode (pkt.body.drop 2)))

end Subscription

namespace InFlight

variable {A : Aio KP} {s s' : InFlight KP} {t : AckType}

structure Quiet (s s' : InFlight KP) : Prop where
  nextObj : s.client.nextObj ≤ s'.client.nextObj
  lookup : ∀ t pid f, f < s.client.nextObj → s'.lookup t pid = some f → s.lookup t pid = some f
  result : ∀ f r, s'.futures f = .result r → s.futures f = .result r

theorem result_of_cancel {f : Future} {r : AckResult} (h : f.cancel = .result r) :
    f = .result r := by
  cases f with
  | pending => cases h
  | result => exact h
  | cancelled => cases h

theorem Takes.quiet {r : EStateM.Result PyExc (MQTTClient KP) (Bytes × ℕ)} (h : s.Takes t r) :
    s.Quiet ⟨Exec.final r, s.futures⟩ := by
  have hhands : ∀ {d pid}, s.HandsOut ⟨d, s.futures⟩ t pid → s.Quiet ⟨d, s.futures⟩ := by
    intro d pid h
    refine ⟨h.nextObj ▸ Nat.le_succ _, ?_, fun _ _ hr => hr⟩
    intro t' m f hf hl
    rw [h.lookup] at hl
    split_ifs at hl
    · exact absurd (Option.some.inj hl) hf.ne'
    · exact hl
  cases hr : r with
  | ok a d => exact hhands (h.1 a.1 a.2 d hr)
  | error e d =>
    rcases h.2 e d hr with h | ⟨pid, h⟩
    · exact ⟨h.nextObj.ge, fun t pid f _ hl => (h.lookup t pid).symm.trans hl, fun _ _ hr => hr⟩
    · exact hhands h

theorem Empties.quiet (h : s.Empties s') : s.Quiet s' := by
  refine ⟨h.nextObj.ge, ?_, ?_⟩
  · intro t pid f _ hl
    cases (h.lookup t pid).symm.trans hl
  · intro f r hr
    rw [h.futures] at hr
    split_ifs at hr
    · exact result_of_cancel hr
    · exact hr

theorem step_quiet {op : Op} (hop : ∀ t body, op ≠ .ack t body) (h : step A s op = some s') :
    s.Quiet s' := by
  cases op with
  | subscribe topic =>
    cases h
    exact (takes_subscribe A topic s).quiet
  | publish topic payload dup =>
    cases h
    exact (takes_publishBuf A topic payload dup s).quiet
  | ack t body => exact absurd rfl (hop t body)
  | giveUp f =>
    rw [step] at h
    split_ifs at h
    cases h
    refine ⟨le_rfl, fun _ _ _ _ hl => hl, ?_⟩
    intro f' r hr
    by_cases heq : f' = f
    · subst heq
      simp only [Function.update_self] at hr
      exact result_of_cancel hr
    · simp only [Function.update_of_ne heq] at hr
      exact hr
  | resetSessionState =>
    cases h
    exact (empties_resetSessionState s).quiet
  | resetClient =>
    cases h
    exact (empties_resetClient s).quiet

end InFlight

namespace Subscription

variable {A : Aio KP} {pipelined : Bool} {s t : Subscription KP} {Q : Bytes → Prop}

/-- The future of the SUBSCRIBE can only be set by a SUBACK with its packet id, and the handshake
returns its pipe for the codes that were set. `Q` is what is known of the codes. -/
structure Answered (Q : Bytes → Prop) (s : Subscription KP) : Prop where
  sound : s.ids.Sound
  bound : ∀ pid f, s.requested = some (pid, f) → f < s.ids.client.nextObj
  place : ∀ pid f, s.requested = some (pid, f) → ∀ t m, s.ids.lookup t m = some f →
    t = .suback ∧ m = pid
  codes : ∀ pid f codes, s.requested = some (pid, f) → s.ids.futures f = .result (.codes codes) →
    Q codes ∧ ∃ pkt ∈ s.handled, pkt.IsSuback pid ∧ pkt.body.drop 2 = codes
  returned : ∀ p, s.stage = .returned p → ∃ pid f codes, s.requested = some (pid, f) ∧ Q codes ∧
    codes.all (· == 1) = true ∧
    ∃ pkt ∈ s.handled, pkt.IsSuback pid ∧ pkt.body.drop 2 = codes

theorem answered_init (Q : Bytes → Prop) (kp : KP) (handlers : HandlerSet) (conn : Connection) :
    (init kp handlers conn).Answered Q := by
  refine ⟨InFlight.sound_init kp handlers, ?_, ?_, ?_, ?_⟩
  · intro pid f h
    cases h
  · intro pid f h
    cases h
  · intro pid f codes h
    cases h
  · intro p h
    cases h

theorem Answered.move (hs : s.Answered Q) {conn : Connection} {stage : MqttConnect}
    (h : ∀ p, stage = .returned p → s.stage = .returned p) :
    Answered Q { s with conn, stage } :=
  ⟨hs.sound, hs.bound, hs.place, hs.codes, fun p hp => hs.returned p (h p hp)⟩

theorem Answered.handle (hs : s.Answered Q) {o : Option MQTTPacket}
    (h : ∀ pkt ∈ o, ∀ pid f, s.requested = some (pid, f) → pkt.IsSuback pid →
      Q (pkt.body.drop 2)) : (s.handle o).Answered Q := by
  cases o with
  | none => exact hs
  | some pkt =>
    have hmem : ∀ {pid codes}, (∃ pkt ∈ s.handled, pkt.IsSuback pid ∧ pkt.body.drop 2 = codes) →
        ∃ pkt' ∈ s.handled ++ [pkt], pkt'.IsSuback pid ∧ pkt'.body.drop 2 = codes := by
      rintro pid codes ⟨pkt', hp, hpid, hcodes⟩
      exact ⟨pkt', List.mem_append_left _ hp, hpid, hcodes⟩
    have hreturned : ∀ p, s.stage = .returned p → ∃ pid f codes, s.requested = some (pid, f) ∧
        Q codes ∧ codes.all (· == 1) = true ∧
        ∃ pkt' ∈ s.handled ++ [pkt], pkt'.IsSuback pid ∧ pkt'.body.drop 2 = codes := by
      intro p hp
      obtain ⟨pid, f, codes, hreq, hQ, hall, hpkt⟩ := hs.returned p hp
      exact ⟨pid, f, codes, hreq, hQ, hall, hmem hpkt⟩
    rw [Subscription.handle]
    cases ht : ackType pkt.type with
    | none =>
      refine ⟨hs.sound, hs.bound, hs.place, ?_, hreturned⟩
      intro pid f codes hreq hf
      obtain ⟨hQ, hpkt⟩ := hs.codes pid f codes hreq hf
      exact ⟨hQ, hmem hpkt⟩
    | some t =>
      rcases InFlight.handleBrokerAck_cases hs.sound t pkt.body with ⟨heq, -⟩ | ⟨pid', f', hr⟩
      · simp only [heq]
        refine ⟨hs.sound, hs.bound, hs.place, ?_, hreturned⟩
        intro pid f codes hreq hf
        obtain ⟨hQ, hpkt⟩ := hs.codes pid f codes hreq hf
        exact ⟨hQ, hmem hpkt⟩
      · refine ⟨hr.sound hs.sound, ?_, ?_, ?_, hreturned⟩
        · intro pid f hreq
          exact hr.nextObj ▸ hs.bound pid f hreq
        · intro pid f hreq t' m hl
          rw [hr.lookup] at hl
          split_ifs at hl
          exact hs.place pid f hreq t' m hl
        · intro pid f codes hreq hf
          rw [hr.futures] at hf
          by_cases heq : f = f'
          · -- the packet is the one that answers
            subst heq
            obtain ⟨rfl, rfl⟩ := hs.place pid f hreq t pid' hr.registered
            rw [Function.update_self] at hf
            cases hf
            have hsub : pkt.IsSuback pid' := by
              refine ⟨?_, hr.packId.symm⟩
              revert ht
              cases pkt.type <;> simp [ackType]
            exact ⟨h pkt rfl pid' f hreq hsub, pkt, by simp, hsub, rfl⟩
          · rw [Function.update_of_ne heq] at hf
            obtain ⟨hQ, hpkt⟩ := hs.codes pid f codes hreq hf
            exact ⟨hQ, hmem hpkt⟩

theorem Answered.quiet (hs : s.Answered Q) {ids : InFlight KP} (hids : ids.Sound)
    (h : s.ids.Quiet ids) : Answered Q { s with ids } := by
  refine ⟨hids, ?_, ?_, ?_, hs.returned⟩
  · intro pid f hreq
    exact (hs.bound pid f hreq).trans_le h.nextObj
  · intro pid f hreq t m hl
    exact hs.place pid f hreq t m (h.lookup t m f (hs.bound pid f hreq) hl)
  · intro pid f codes hreq hf
    exact hs.codes pid f codes hreq (h.result f _ hf)

theorem Answered.callSubscribe (hs : s.Answered Q) (hstage : ∀ p, s.stage ≠ .returned p)
    (atOnce : Bool) : (s.callSubscribe A atOnce).Answered Q := by
  have htakes := InFlight.takes_subscribe A (A.pkHex s.ids.client.kp) s.ids
  rw [Subscription.callSubscribe]
  cases hsub : MQTTClient.subscribe A (A.pkHex s.ids.client.kp) s.ids.client with
  | ok a d =>
    obtain ⟨buf, pid⟩ := a
    have hout := htakes.1 buf pid d hsub
    have hget : (d.packetIds .suback).get? pid = some s.ids.client.nextObj := by
      have hl := hout.lookup .suback pid
      rwa [if_pos ⟨rfl, rfl⟩] at hl
    simp only [hget, Option.map_some]
    refine ⟨hout.sound hs.sound, ?_, ?_, ?_, fun p hp => absurd hp (hstage p)⟩
    · intro pid' f hreq
      cases hreq
      exact hout.nextObj ▸ Nat.lt_succ_self _
    · intro pid' f hreq t m hl
      cases hreq
      rw [hout.lookup] at hl
      split_ifs at hl with heq
      · exact heq
      · exact absurd (hs.sound.bound t m _ hl) (lt_irrefl _)
    · intro pid' f codes hreq hf
      cases hreq
      cases (hs.sound.fresh _ le_rfl).symm.trans hf
  | error e d =>
    have hids : InFlight.Sound ⟨d, s.ids.futures⟩ := by
      have h := htakes.sound hs.sound
      rwa [hsub] at h
    have hquiet : s.ids.Quiet ⟨d, s.ids.futures⟩ := by
      have h := htakes.quiet
      rwa [hsub] at h
    have h := hs.quiet hids hquiet
    simp only
    split
    · refine h.move ?_
      intro p hp
      cases hp
    · refine h.move ?_
      intro p hp
      cases hp

theorem Answered.arrive (hs : s.Answered Q) (atOnce : Bool) : (s.arrive A atOnce).Answered Q := by
  rw [Subscription.arrive]
  split
  · rename_i h
    exact hs.callSubscribe (fun p hp => by cases h.symm.trans hp) atOnce
  · rename_i h
    exact hs.callSubscribe (fun p hp => by cases h.symm.trans hp) atOnce
  · exact hs

theorem returned_of_resume {m : MqttConnect} {c conn : Connection} {r : Reply} {atOnce : Bool}
    {p : ℕ} (h : m.resume pipelined c r atOnce = some (conn, .returned p)) :
    ∃ codes, r = .codes codes ∧ codes.all (· == 1) = true := by
  generalize hm : MqttConnect.returned p = m' at h
  cases MqttConnect.resume_handshakeStep h with
  | returned hgrants =>
    cases r with
    | codes codes => exact ⟨codes, rfl, hgrants⟩
    | _ => cases hgrants
  | sent _ h' => subst hm; cases h'
  | handOver h' => subst hm; cases h'
  | _ => cases hm

theorem step_answered (s : Subscription KP) (e : Event) (t : Subscription KP) (hs : s.Answered Q)
    (hQ : ∀ pkt ∈ s.cut pipelined e, ∀ pid f, s.requested = some (pid, f) → pkt.IsSuback pid →
      Q (pkt.body.drop 2)) (h : step A pipelined s e = some t) : t.Answered Q := by
  cases e with
  | reply r atOnce =>
    rw [step] at h
    split_ifs at h with hready
    cases hm : s.stage.resume pipelined s.conn r atOnce with
    | none =>
      simp only [hm] at h
      cases h
    | some q =>
      obtain ⟨conn, stage⟩ := q
      simp only [hm, Option.some.injEq] at h
      rw [← h]
      apply Answered.arrive
      have hmoved : Answered Q { s with conn, stage } := by
        refine ⟨hs.sound, hs.bound, hs.place, hs.codes, ?_⟩
        intro p hp
        obtain rfl : stage = .returned p := hp
        obtain ⟨codes, rfl, hall⟩ := returned_of_resume hm
        obtain ⟨⟨pid, f⟩, hreq, hf⟩ := hready
        obtain ⟨hQc, hpkt⟩ := hs.codes pid f codes hreq hf
        exact ⟨pid, f, codes, hreq, hQc, hall, hpkt⟩
      exact hmoved.handle hQ
  | chunk p bytes =>
    cases h
    exact (hs.move fun p hp => hp).handle hQ
  | resume =>
    rw [step] at h
    split_ifs at h
    cases h
    exact (hs.move fun p hp => hp).handle hQ
  | other op =>
    have hop : (∀ t body, op ≠ .ack t body) ∧
        (InFlight.step A s.ids op).map (fun ids => { s with ids }) = some t := by
      cases op with
      | ack => cases h
      | _ => exact ⟨fun _ _ h => (by cases h), h⟩
    obtain ⟨ids, hids, rfl⟩ := Option.map_eq_some_iff.mp hop.2
    exact hs.quiet (InFlight.step_sound s.ids op ids hs.sound hids)
      (InFlight.step_quiet hop.1 hids)

theorem run_answered (kp : KP) (handlers : HandlerSet) (conn : Connection) {es : List Event}
    (hm : Machine.Meets (step A pipelined) (fun s e => ∀ pkt ∈ s.cut pipelined e, ∀ pid f,
      s.requested = some (pid, f) → pkt.IsSuback pid → Q (pkt.body.drop 2))
      (init kp handlers conn) es)
    (h : Machine.run (step A pipelined) (init kp handlers conn) es = some s) : s.Answered Q :=
  Machine.run_invariant step_answered (answered_init Q kp handlers conn) hm h

/-- A run in which every SUBACK that answers the SUBSCRIBE has one return code, or one that is not
accepted, returns a pipe only if QoS 1 was granted; and where the codes that were set are read, this
is exactly the condition under which a pipe is returned for the one code 1 only. -/
theorem granted_iff (A : Aio KP) (pipelined : Bool) (kp : KP) (handlers : HandlerSet)
    (conn : Connection) :
    (∀ es s p, Machine.Meets (step A pipelined) (AnswersOnce pipelined) (init kp handlers conn) es →
      Machine.run (step A pipelined) (init kp handlers conn) es = some s →
      s.stage = .returned p → s.Granted) ∧
    ∀ es s p pid f codes, Machine.run (step A pipelined) (init kp handlers conn) es = some s →
      s.stage = .awaitingSuback p → s.requested = some (pid, f) →
      s.ids.futures f = .result (.codes codes) →
      (∃ pkt ∈ s.handled, pkt.IsSuback pid ∧ pkt.body.drop 2 = codes) ∧
      ((∀ atOnce t q, step A pipelined s (.reply (.codes codes) atOnce) = some t →
        t.stage = .returned q → codes = [1]) ↔ OneCode codes) := by
  have hone : ∀ codes : Bytes, codes.all (· == 1) = true → (codes = [1] ↔ OneCode codes) := by
    intro codes hall
    simp only [List.all_eq_true, beq_iff_eq] at hall
    constructor
    · rintro rfl
      exact Or.inl rfl
    · rintro (hlen | ⟨code, hmem, hne⟩)
      · obtain ⟨code, rfl⟩ := List.length_eq_one_iff.mp hlen
        rw [hall code (List.mem_singleton_self code)]
      · exact absurd (hall code hmem) hne
  constructor
  · intro es s p hm h hp
    have hs : s.Answered OneCode := by
      refine run_answered kp handlers conn (hm.mono ?_) h
      intro s e ha pkt hpkt pid f hreq
      exact ha pkt hpkt (pid, f) hreq
    obtain ⟨pid, f, codes, hreq, hQ, hall, pkt, hpkt, hpid, hcodes⟩ := hs.returned p hp
    exact ⟨pid, f, hreq, pkt, hpkt, hpid, hcodes.trans ((hone codes hall).mpr hQ)⟩
  · intro es s p pid f codes h hstage hreq hf
    have hs := run_answered (Q := fun _ => True) kp handlers conn
      (Machine.meets_of_forall (fun _ _ _ _ _ _ _ _ => trivial) _ _) h
    refine ⟨(hs.codes pid f codes hreq hf).2, ?_⟩
    constructor
    · intro hret
      by_cases hall : codes.all (· == 1) = true
      · have hready : s.Ready (.codes codes) := ⟨(pid, f), hreq, hf⟩
        have hstep : step A pipelined s (.reply (.codes codes) true) =
            some { s with stage := .returned p } := by
          simp only [step, if_pos hready, hstage, MqttConnect.resume, MqttConnect.checkCodes,
            if_pos hall]
          rfl
        exact (hone codes hall).mp (hret true _ p hstep rfl)
      · right
        simpa only [List.all_eq_true, not_forall, beq_iff_eq, exists_prop] using hall
    · intro hcode atOnce t q hstep ht
      by_cases hall : codes.all (· == 1) = true
      · exact (hone codes hall).mpr hcode
      · have hready : s.Ready (.codes codes) := ⟨(pid, f), hreq, hf⟩
        simp only [step, if_pos hready, hstage, MqttConnect.resume, MqttConnect.checkCodes,
          if_neg hall, MqttConnect.unwind, Option.some.injEq] at hstep
        rw [← hstep] at ht
        cases ht

def answeredWith (codes : Bytes) : List Event :=
  [.reply (.pipe true) false, .reply .sent false, .reply (.data MqttConnect.connack) false,
    .reply .sent false, .chunk 0 ([0x90, UInt8.ofNat (2 + codes.length), 0, 1] ++ codes),
    .reply (.codes codes) false]

theorem granted_iff_one_code : ∃ s,
    Machine.run (step concrete false) (init 7 HandlerSet.empty {}) (answeredWith [1]) = some s ∧
      s.stage = .returned 0 ∧ s.Granted := by
  obtain ⟨s, hs, hm, hp⟩ := Machine.exists_runMeeting_of_any (step concrete false)
    (AnswersOnce false) (init 7 HandlerSet.empty {}) (answeredWith [1])
    (fun s => s.stage = .returned 0) (by decide +kernel)
  have hstage := of_decide_eq_true hp
  exact ⟨s, hs, hstage, (granted_iff concrete false 7 HandlerSet.empty {}).1 _ s 0 hm hs hstage⟩

/-- A SUBACK without any return code is taken as granting the subscription. -/
theorem not_granted_no_codes : ∃ s,
    Machine.run (step concrete false) (init 7 HandlerSet.empty {}) (answeredWith []) = some s ∧
      s.stage = .returned 0 ∧ ¬ s.Granted := by
  obtain ⟨s, hs, hp⟩ := Machine.exists_run_of_any (step concrete false)
    (init 7 HandlerSet.empty {}) (answeredWith [])
    (fun s => s.stage = .returned 0 ∧ ∀ pkt ∈ s.handled, pkt.body.drop 2 ≠ [1])
    (by decide +kernel)
  obtain ⟨hstage, hnone⟩ := of_decide_eq_true hp
  refine ⟨s, hs, hstage, ?_⟩
  rintro ⟨pid, f, -, pkt, hpkt, -, hcodes⟩
  exact hnone pkt hpkt hcodes

end Subscription

end Sidewire
