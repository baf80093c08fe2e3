import Sidewire.Lib.Reach
import Sidewire.Lib.Simulation
import Sidewire.Mqtt.Line
import Sidewire.Network.AckSound
import Sidewire.Session.Subscription

/-! # The network in bytes

Brokers write MQTT packets to streams, the streams arrive in pieces, and the
readers of the clients hand what they cut off to handlers that are tasks of the
routers. Such a network runs, step for step, as one in which publications are
received whole: what is known of the latter holds of the streams.
-/

namespace Sidewire

variable {P KP ι : Type}

def Action.ofReader {ι : Type} : Action ι → Bool
  | .recv _ _ _ _ | .brokerAck _ _ _ => true
  | _ => false

def TaskPc.result : TaskPc → Option (Except PyExc Unit)
  | .dropped none | .done => some (.ok ())
  | .dropped (some exc) | .raised exc => some (.error exc)
  | _ => none

/-- What the handler of a packet does to the router before it first waits, or how it ends at once.
`live` says that the future under the packet id of an acknowledgement still waits, which a router
does not record. -/
def handleMqttPacket (A : Aio KP) (c : MQTTClient KP) (i : ι) (live : Bool) (pkt : MQTTPacket) :
    Action ι ⊕ Except PyExc Unit :=
  match ackType pkt.type with
  | some t =>
    if live then
      match c.registeredAs t (pkt.body.take 2) with
      | some e => .inl (.brokerAck i t e.1)
      | none => .inr (.ok ())
    else .inr (.ok ())
  | none =>
    if pkt.type = .publish then
      match mqttParsePublish A pkt with
      | .ok (some (topic, payload, id)) => .inl (.recv i topic payload id.isSome)
      | .ok none => .inr (.ok ())
      | .error exc => .inr (.error exc)
    else .inr (.ok ())

def MQTTPacket.published (A : Aio KP) (pkt : MQTTPacket) : Option (String × Bytes) :=
  if pkt.type = .publish then
    match mqttParsePublish A pkt with
    | .ok (some (topic, payload, _)) => some (topic, payload)
    | _ => none
  else none

/-- The routers of the parties, and the stream to each client. -/
structure Wire (P KP ι : Type) where
  net : Net P KP ι
  lines : P → ι → Line

namespace Wire

open MQTTClient Router

/-- A broker writes a packet, bytes arrive, the handler of a suspended call is through, a client
starts on a new connection, or a router does what is not up to a reader. -/
inductive Act (P ι : Type)
  | write (p : P) (i : ι) (pkt : MQTTPacket)
  | chunk (p : P) (i : ι) (len : ℕ) (live : Bool)
  | resume (p : P) (i : ι) (k : ℕ) (live : Bool)
  | redial (p : P) (i : ι)
  | act (x : P × Action ι)

def started (r : Router KP ι) : Action ι → Handler
  | .recv _ _ _ _ => .task r.tasks.length
  | _ => .ended (.ok ())

def ended (r : Router KP ι) : Handler → Option (Except PyExc Unit)
  | .task k => (r.tasks[k]?).bind fun t => t.pc.result
  | .ended result => some result

variable [DecidableEq P] [DecidableEq ι]

def putLine (w : Wire P KP ι) (p : P) (i : ι) (l : Line) : Wire P KP ι :=
  { w with lines := Function.update w.lines p (Function.update (w.lines p) i l) }

variable (A : Aio KP)

def turn (w : Wire P KP ι) (p : P) (i : ι) (live : Bool) :
    Option (Line × Option MQTTPacket) → Option (Wire P KP ι)
  | none => none
  | some (l, none) => some (w.putLine p i l)
  | some (l, some pkt) =>
    match handleMqttPacket A ((w.net p).clients i) i live pkt with
    | .inr result => some (w.putLine p i { l with handlers := l.handlers ++ [.ended result] })
    | .inl a =>
      (Net.step A w.net (p, a)).map fun net =>
        { w.putLine p i { l with handlers := l.handlers ++ [started (w.net p) a] } with net }

def step (w : Wire P KP ι) : Act P ι → Option (Wire P KP ι)
  | .write p i pkt => some (w.putLine p i ((w.lines p i).write pkt))
  | .chunk p i len live =>
    if (w.net p).running = none then
      w.turn A p i live ((w.lines p i).chunk A.asyncWrapErrors len)
    else none
  | .resume p i k live =>
    if (w.net p).running = none then
      match ((w.lines p i).handlers[k]?).bind (ended (w.net p)) with
      | some result => w.turn A p i live ((w.lines p i).resume A.asyncWrapErrors k result)
      | none => none
    else none
  | .redial p i =>
    if (w.net p).running = none ∧ ((w.net p).dispatchers i).pc = .reconnecting ∧
        ((w.net p).clients i).pipeAlive = false then
      some (w.putLine p i (w.lines p i).redial)
    else none
  | .act x =>
    if x.2.ofReader then none else (Net.step A w.net x).map fun net => { w with net }

/-- A broker writes packets whose length can be spelled, and makes up no publication under an
honest key. -/
structure Conveyed (n : Net P KP ι) (pkt : MQTTPacket) : Prop where
  fits : (pkt.variableHeader ++ pkt.payload).length ≤ 268435455
  backed : ∀ x ∈ pkt.received.published A, Net.Backed A n (Net.onTopic x.1) x.2

/-- Brokers are honest, and what the routers do by themselves meets a condition. -/
def Faithful (C : Net P KP ι → P × Action ι → Prop) (w : Wire P KP ι) : Act P ι → Prop
  | .write _ _ pkt => Conveyed A w.net pkt
  | .act x => C w.net x
  | _ => True

/-- No handler ends with an error that strands a packet in the buffer of its client. -/
def Heeds (w : Wire P KP ι) : Act P ι → Prop
  | .resume p i k _ => ∀ result ∈ ((w.lines p i).handlers[k]?).bind (ended (w.net p)),
      ¬ Reader.Strands A.asyncWrapErrors (w.lines p i).reader (.resume k result)
  | _ => True

instance (w : Wire P KP ι) (x : Act P ι) : Decidable (Heeds A w x) := by
  cases x <;> unfold Heeds <;> infer_instance

section Decidable

variable [Fintype P] [Fintype ι]

instance (n : Net P KP ι) (pkt : MQTTPacket) : Decidable (Conveyed A n pkt) :=
  decidable_of_iff ((pkt.variableHeader ++ pkt.payload).length ≤ 268435455 ∧
      ∀ x ∈ pkt.received.published A, Net.Backed A n (Net.onTopic x.1) x.2)
    ⟨fun h => ⟨h.1, h.2⟩, fun h => ⟨h.1, h.2⟩⟩

instance (C : Net P KP ι → P × Action ι → Prop) [∀ n x, Decidable (C n x)] (w : Wire P KP ι)
    (x : Act P ι) : Decidable (Faithful A C w x) := by
  cases x <;> unfold Faithful <;> infer_instance

end Decidable

def arrivals (r : Router KP ι) (i : ι) : List (String × Bytes) :=
  (r.tasks.map fun t => (t.client, t.topic, t.payload)).filterMap fun x =>
    if x.1 = i then some x.2 else none

structure Sound (w : Wire P KP ι) : Prop where
  traced : Net.Traced A Net.onTopic w.net
  lines : ∀ p i, (w.lines p i).Sound (w.lines p i).handlers.length
  conveyed : ∀ p i, ∀ pkt ∈ (w.lines p i).written, ∀ x ∈ pkt.received.published A,
    Net.Backed A w.net (Net.onTopic x.1) x.2
  arrived : ∀ p i,
    arrivals (w.net p) i = (w.lines p i).dispatched.filterMap (MQTTPacket.published A)

variable {A} {w w' : Wire P KP ι} {n' : Net P KP ι} {p q : P} {i j : ι} {l' : Line} {live : Bool}
  {r r' : Router KP ι} {a : Action ι} {new : List (String × Bytes)} {pkt : MQTTPacket}
  {pkt? : Option MQTTPacket} {C : Net P KP ι → P × Action ι → Prop}

omit [DecidableEq ι] in
theorem handleMqttPacket_cases (A : Aio KP) (c : MQTTClient KP) (i : ι) (live : Bool)
    (pkt : MQTTPacket) :
    (∃ topic payload withId, handleMqttPacket A c i live pkt = .inl (.recv i topic payload withId) ∧
        pkt.published A = some (topic, payload)) ∨
      pkt.published A = none ∧ ((∃ result, handleMqttPacket A c i live pkt = .inr result) ∨
        ∃ t pid, handleMqttPacket A c i live pkt = .inl (.brokerAck i t pid)) := by
  unfold handleMqttPacket MQTTPacket.published
  cases hack : ackType pkt.type with
  | some t =>
    have hty : pkt.type ≠ .publish := by
      intro hty
      rw [hty] at hack
      cases hack
    simp only [if_neg hty]
    refine .inr ⟨trivial, ?_⟩
    split_ifs
    · cases c.registeredAs t (pkt.body.take 2) with
      | none => exact .inl ⟨_, rfl⟩
      | some e => exact .inr ⟨t, e.1, rfl⟩
    · exact .inl ⟨_, rfl⟩
  | none =>
    simp only
    split_ifs
    · cases mqttParsePublish A pkt with
      | error exc => exact .inr ⟨rfl, .inl ⟨_, rfl⟩⟩
      | ok parsed =>
        cases parsed with
        | none => exact .inr ⟨rfl, .inl ⟨_, rfl⟩⟩
        | some x => exact .inl ⟨_, _, _, rfl, rfl⟩
    · exact .inr ⟨rfl, .inl ⟨_, rfl⟩⟩

theorem arrivals_handlePublish (A : Aio KP) (r : Router KP ι) (i : ι) (topic : String)
    (payload : Bytes) (withId : Bool) (j : ι) :
    arrivals (r.handlePublish A i topic payload withId) j =
      arrivals r j ++ if j = i then [(topic, payload)] else [] := by
  simp only [arrivals, handlePublish, List.map_append, List.map_singleton, List.filterMap_append]
  congr 1
  by_cases h : j = i
  · simp [h]
  · simp [h, Ne.symm h]

theorem arrivals_step (hA : A.Lawful) (h : r.step A a = some r') (ha : a.received = none) :
    arrivals r' = arrivals r := by
  funext j
  cases step_spec hA h with
  | tick | client | prune => rfl
  | recv => cases ha
  | turn =>
    have hkeep : ∀ {k : ℕ} {pc : TaskPc} {ts : List (Task ι)},
        (ts.modify k fun t => { t with pc }).map (fun t => (t.client, t.topic, t.payload)) =
          ts.map fun t => (t.client, t.topic, t.payload) := by
      intro k pc ts
      induction ts generalizing k with
      | nil => simp
      | cons t ts ih => cases k <;> simp [ih]
    simp only [arrivals, afterTurn, hkeep]

omit [DecidableEq P] in
theorem sound_of_fresh (h : ∀ p, Fresh (w.net p)) (hl : ∀ p i, w.lines p i = {}) : w.Sound A where
  traced := .of_fresh h
  lines p i := by
    rw [hl]
    exact Line.sound_init
  conveyed p i := by simp [hl]
  arrived p i := by
    rw [hl, arrivals, (h p).tasks]
    rfl

theorem lines_putLine (w : Wire P KP ι) (p : P) (i : ι) (l : Line) (q : P) (j : ι) :
    (w.putLine p i l).lines q j = if q = p ∧ j = i then l else w.lines q j := by
  unfold Wire.putLine
  by_cases hq : q = p
  · subst hq
    simp only [Function.update_self]
    by_cases hj : j = i
    · subst hj
      simp
    · simp [hj]
  · simp only [Function.update_of_ne hq, hq, false_and, if_false]

theorem reader_turn (h : w.turn A p i live (some (l', pkt?)) = some w') (q : P) (j : ι) :
    (w'.lines q j).reader = if q = p ∧ j = i then l'.reader else (w.lines q j).reader := by
  have hput : ∀ l : Line, l.reader = l'.reader → ((w.putLine p i l).lines q j).reader =
      if q = p ∧ j = i then l'.reader else (w.lines q j).reader := by
    intro l hl
    rw [lines_putLine, ← hl]
    split_ifs <;> rfl
  cases pkt? with
  | none =>
    cases h
    exact hput l' rfl
  | some pkt =>
    simp only [Wire.turn] at h
    cases hh : handleMqttPacket A ((w.net p).clients i) i live pkt with
    | inl a =>
      rw [hh] at h
      obtain ⟨n', -, rfl⟩ := Option.map_eq_some_iff.mp h
      exact hput _ rfl
    | inr result =>
      rw [hh] at h
      cases h
      exact hput _ rfl

variable (new) in
theorem Sound.putLine (h : w.Sound A) (htr : Net.Traced A Net.onTopic n')
    (hadv : Net.Advances A w.net n') (hl : l'.Sound l'.handlers.length)
    (hw : ∀ pkt ∈ l'.written, pkt ∈ (w.lines p i).written ∨ Conveyed A w.net pkt)
    (harr : ∀ q j, arrivals (n' q) j =
      arrivals (w.net q) j ++ if q = p ∧ j = i then new else [])
    (hd : l'.dispatched.filterMap (MQTTPacket.published A) =
      (w.lines p i).dispatched.filterMap (MQTTPacket.published A) ++ new) :
    Sound A { w.putLine p i l' with net := n' } := by
  have hmono : ∀ {topic payload}, Net.Backed A w.net (Net.onTopic topic) payload →
      Net.Backed A n' (Net.onTopic topic) payload :=
    fun hb => hb.mono hadv.kp fun q j => (hadv.grows q j).sent
  refine ⟨htr, fun q j => ?_, fun q j pkt hp x hx => ?_, fun q j => ?_⟩
  · simp only [lines_putLine]
    split_ifs
    · exact hl
    · exact h.lines q j
  · apply hmono
    simp only [lines_putLine] at hp
    split_ifs at hp
    · rcases hw pkt hp with hp | hp
      · exact h.conveyed p i pkt hp x hx
      · exact hp.backed x hx
    · exact h.conveyed q j pkt hp x hx
  · simp only [lines_putLine, harr]
    split_ifs with hc
    · obtain ⟨rfl, rfl⟩ := hc
      rw [hd, h.arrived]
    · rw [List.append_nil]
      exact h.arrived q j

theorem step_resume {k : ℕ} (h : w.step A (.resume p i k live) = some w') :
    ∃ result ∈ ((w.lines p i).handlers[k]?).bind (ended (w.net p)),
      w.turn A p i live ((w.lines p i).resume A.asyncWrapErrors k result) = some w' := by
  simp only [Wire.step] at h
  split_ifs at h
  split at h
  · rename_i result hresult
    exact ⟨result, hresult, h⟩
  · cases h

/-- What the conditions on a network of streams come to for the network of publications. -/
def Honestly (A : Aio KP) (C : Net P KP ι → P × Action ι → Prop) (n : Net P KP ι)
    (x : P × Action ι) : Prop :=
  Net.Honest A Net.onTopic n x ∧ (x.2.ofReader = false → C n x)

/-- The network of publications takes a step under its conditions, or none. -/
def Follows (A : Aio KP) (C : Net P KP ι → P × Action ι → Prop) (n n' : Net P KP ι) : Prop :=
  ∃ b, (∀ x ∈ b, Honestly A C n x) ∧ Machine.stutter (Net.step A) n b = some n'

theorem Follows.refl (n : Net P KP ι) : Follows A C n n := ⟨none, nofun, rfl⟩

theorem Follows.single {n : Net P KP ι} {x : P × Action ι} (hx : Honestly A C n x)
    (h : Net.step A n x = some n') : Follows A C n n' :=
  ⟨some x, fun _ hy => by cases hy; exact hx, h⟩

theorem Sound.turn (hA : A.Lawful) (h : w.Sound A) {held : ℕ}
    (hl : l'.Sound (held + pkt?.toList.length))
    (hheld : l'.handlers.length = held)
    (hd : l'.dispatched = (w.lines p i).dispatched ++ pkt?.toList)
    (hw : l'.written = (w.lines p i).written)
    (hmem : ∀ pkt ∈ pkt?, pkt ∈ (w.lines p i).written.map MQTTPacket.received)
    (ht : w.turn A p i live (some (l', pkt?)) = some w') :
    w'.Sound A ∧ Follows A C w.net w'.net := by
  have hwritten : ∀ pkt ∈ l'.written, pkt ∈ (w.lines p i).written ∨ Conveyed A w.net pkt := by
    intro pkt hp
    rw [hw] at hp
    exact .inl hp
  cases pkt? with
  | none =>
    cases ht
    subst hheld
    refine ⟨?_, .refl _⟩
    exact h.putLine [] h.traced (.refl _) hl hwritten (by simp) (by simp [hd])
  | some pkt =>
    obtain ⟨pkt₀, hpkt₀, hrec⟩ := List.mem_map.mp (hmem pkt rfl)
    have hlen : ∀ t : Handler, Line.Sound (l'.handlers ++ [t]).length
        { l' with handlers := l'.handlers ++ [t] } := by
      intro t
      rw [List.length_append, hheld]
      exact ⟨hl.fits, hl.stream, hl.reads, hl.length, hl.earlier⟩
    simp only [Option.toList_some] at hd
    simp only [Wire.turn] at ht
    obtain ⟨topic, payload, withId, hh, hpub⟩ | ⟨hpub, ⟨result, hh⟩ | ⟨t, pid, hh⟩⟩ :=
      handleMqttPacket_cases A ((w.net p).clients i) i live pkt
    · rw [hh] at ht
      obtain ⟨n', hn, rfl⟩ := Option.map_eq_some_iff.mp ht
      have hbacked := h.conveyed p i pkt₀ hpkt₀ (topic, payload) (by rw [hrec]; exact hpub)
      have hhonest : Net.Honest A Net.onTopic w.net (p, .recv i topic payload withId) := by
        rintro y ⟨⟩
        exact hbacked
      obtain ⟨r', hr, hn'⟩ := Net.step_eq_some hn
      refine ⟨?_, .single ⟨hhonest, fun hc => by cases hc⟩ hn⟩
      refine h.putLine [(topic, payload)] (h.traced.step hA hhonest hn)
        (h.traced.advances hA hn) (hlen _) hwritten (fun q j => ?_) ?_
      · have hact := act_of_step hr
        cases hact
        rw [hn']
        by_cases hq : q = p
        · subst hq
          simp only [Function.update_self, arrivals_handlePublish, true_and]
        · rw [Function.update_of_ne hq, if_neg fun hc => hq hc.1, List.append_nil]
      · change l'.dispatched.filterMap _ = _
        rw [hd, List.filterMap_append]
        simp [hpub]
    · rw [hh] at ht
      cases ht
      refine ⟨?_, .refl _⟩
      refine h.putLine [] h.traced (.refl _) (hlen _) hwritten (by simp) ?_
      change l'.dispatched.filterMap _ = _
      rw [hd, List.filterMap_append]
      simp [hpub]
    · rw [hh] at ht
      obtain ⟨n', hn, rfl⟩ := Option.map_eq_some_iff.mp ht
      have hhonest : Net.Honest A Net.onTopic w.net (p, .brokerAck i t pid) := by
        rintro y ⟨⟩
      obtain ⟨r', hr, hn'⟩ := Net.step_eq_some hn
      refine ⟨?_, .single ⟨hhonest, fun hc => by cases hc⟩ hn⟩
      refine h.putLine [] (h.traced.step hA hhonest hn) (h.traced.advances hA hn) (hlen _)
        hwritten (fun q j => ?_) ?_
      · rw [hn']
        by_cases hq : q = p
        · subst hq
          rw [Function.update_self, arrivals_step hA hr rfl]
          simp
        · rw [Function.update_of_ne hq]
          simp
      · change l'.dispatched.filterMap _ = _
        rw [hd, List.filterMap_append]
        simp [hpub]

theorem Sound.step (hA : A.Lawful) (h : w.Sound A) {x : Act P ι} (hx : Faithful A C w x)
    (hstep : w.step A x = some w') : w'.Sound A ∧ Follows A C w.net w'.net := by
  cases x with
  | write p i pkt =>
    cases hstep
    refine ⟨?_, .refl _⟩
    refine h.putLine [] h.traced (.refl _) ((h.lines p i).write hx.fits) (fun pkt' hp => ?_)
      (by simp) (by simp [Line.write, Line.dispatched])
    rcases List.mem_append.mp hp with hp | hp
    · exact .inl hp
    · rw [List.mem_singleton.mp hp]
      exact .inr hx
  | chunk p i len live =>
    simp only [Wire.step] at hstep
    split_ifs at hstep
    cases hc : (w.lines p i).chunk A.asyncWrapErrors len with
    | none =>
      rw [hc] at hstep
      cases hstep
    | some out =>
      rw [hc] at hstep
      obtain ⟨hl, hd, hw, hh, hmem, -⟩ := (h.lines p i).chunk hc
      exact h.turn hA hl (by rw [hh]) hd hw hmem hstep
  | resume p i k live =>
    obtain ⟨result, -, hstep⟩ := step_resume hstep
    cases hc : (w.lines p i).resume A.asyncWrapErrors k result with
    | none =>
      rw [hc] at hstep
      cases hstep
    | some out =>
      rw [hc] at hstep
      obtain ⟨hk, hl, hd, hw, hh, hmem, -⟩ := (h.lines p i).resume hc
      exact h.turn hA hl (by rw [hh, List.length_eraseIdx_of_lt hk]) hd hw hmem hstep
  | redial p i =>
    simp only [Wire.step] at hstep
    split_ifs at hstep
    cases hstep
    refine ⟨?_, .refl _⟩
    exact h.putLine [] h.traced (.refl _) (h.lines p i).redial (by simp [Line.redial])
      (by simp) (by simp [Line.redial, Line.dispatched])
  | act x =>
    obtain ⟨p, a⟩ := x
    simp only [Wire.step] at hstep
    split_ifs at hstep with hreader
    obtain ⟨n', hn, rfl⟩ := Option.map_eq_some_iff.mp hstep
    have hnone : a.received = none := by
      cases a with
      | recv => exact absurd rfl hreader
      | _ => rfl
    have hhonest : Net.Honest A Net.onTopic w.net (p, a) := by
      intro y hy
      rw [hnone] at hy
      cases hy
    obtain ⟨r', hr, hn'⟩ := Net.step_eq_some hn
    have hadv := h.traced.advances hA hn
    refine ⟨⟨h.traced.step hA hhonest hn, h.lines, fun q j pkt hp x hx => ?_, fun q j => ?_⟩,
      .single ⟨hhonest, fun _ => hx⟩ hn⟩
    · exact (h.conveyed q j pkt hp x hx).mono hadv.kp fun q j => (hadv.grows q j).sent
    · rw [← h.arrived]
      by_cases hq : q = p
      · subst hq
        simp only [hn', Function.update_self, arrivals_step hA hr hnone]
      · simp only [hn', Function.update_of_ne hq]

theorem Sound.waits_step (h : w.Sound A) (hw : ∀ q j, (w.lines q j).reader.Waits) {x : Act P ι}
    (hx : Heeds A w x) (hstep : w.step A x = some w') (q : P) (j : ι) :
    (w'.lines q j).reader.Waits := by
  have hput : ∀ {p i l}, l.reader.Waits → ((w.putLine p i l).lines q j).reader.Waits := by
    intro p i l hl
    rw [lines_putLine]
    split_ifs
    · exact hl
    · exact hw q j
  have hturn : ∀ {p i live out}, w.turn A p i live out = some w' →
      (∀ l' pkt?, out = some (l', pkt?) → l'.reader.Waits) → (w'.lines q j).reader.Waits := by
    intro p i live out ht hl
    cases out with
    | none => cases ht
    | some out =>
      rw [reader_turn ht q j]
      split_ifs
      · exact hl _ _ rfl
      · exact hw q j
  cases x with
  | write p i pkt =>
    cases hstep
    exact hput (hw p i)
  | chunk p i len live =>
    simp only [Wire.step] at hstep
    split_ifs at hstep
    refine hturn hstep fun l' pkt? hc => ?_
    obtain ⟨-, -, -, -, -, hwaits⟩ := (h.lines p i).chunk hc
    exact hwaits (hw p i)
  | resume p i k live =>
    obtain ⟨result, hresult, hstep⟩ := step_resume hstep
    refine hturn hstep fun l' pkt? hc => ?_
    obtain ⟨-, -, -, -, -, -, hwaits⟩ := (h.lines p i).resume hc
    exact hwaits (hw p i) (hx result hresult)
  | redial p i =>
    simp only [Wire.step] at hstep
    split_ifs at hstep
    cases hstep
    exact hput fun _ => rfl
  | act x =>
    simp only [Wire.step] at hstep
    split_ifs at hstep
    obtain ⟨n', -, rfl⟩ := Option.map_eq_some_iff.mp hstep
    exact hw q j

theorem refines (hA : A.Lawful) : Machine.Refines (Wire.step A) (Faithful A C) (Net.step A)
    (Honestly A C) fun (w : Wire P KP ι) n => w.Sound A ∧ w.net = n := by
  rintro w x w' n ⟨h, rfl⟩ hx hstep
  obtain ⟨h', b, hb, hn⟩ := h.step hA hx hstep
  exact ⟨b, w'.net, hb, hn, h', rfl⟩

/-- A network of streams, cut up in any way, runs as one in which publications are received whole
and in which the routers do the same by themselves: each of its steps is one step of the other or
none, and after each the routers are in the same states. -/
theorem streams_refine (hA : A.Lawful) {w₀ : Wire P KP ι} (h₀ : ∀ p, Fresh (w₀.net p))
    (hl : ∀ p i, w₀.lines p i = {}) {as : List (Act P ι)}
    (hm : Machine.Meets (Wire.step A) (Faithful A C) w₀ as) :
    ∃ bs : List (Option (P × Action ι)), bs.length = as.length ∧
      ∀ k w, Machine.run (Wire.step A) w₀ (as.take k) = some w →
        Machine.run (Net.step A) w₀.net (bs.take k).reduceOption = some w.net ∧
          Machine.Meets (Net.step A) (Honestly A C) w₀.net (bs.take k).reduceOption := by
  obtain ⟨bs, hlen, hbs⟩ := (refines hA).run (u := w₀.net) ⟨sound_of_fresh h₀ hl, rfl⟩ hm
  refine ⟨bs, hlen, fun k w hw => ?_⟩
  obtain ⟨n, hn, hmeets, -, rfl⟩ := hbs k w hw
  exact ⟨hn, hmeets⟩

/-- However the streams are cut and the calls of the readers interleaved, the tasks of a client are
the publications that the brokers wrote to it: of each connection those up to some packet, in order,
and of the present one all, once everything has arrived and no call is suspended, if no error of a
handler stranded a packet. -/
theorem tasks_of_the_streams (hA : A.Lawful) {w₀ : Wire P KP ι} (h₀ : ∀ p, Fresh (w₀.net p))
    (hl : ∀ p i, w₀.lines p i = {}) {as : List (Act P ι)}
    (hm : Machine.Meets (Wire.step A) (Faithful A C) w₀ as)
    (hr : Machine.run (Wire.step A) w₀ as = some w) (p : P) (i : ι) :
    arrivals (w.net p) i = (w.lines p i).dispatched.filterMap (MQTTPacket.published A) ∧
      (∀ e ∈ (w.lines p i).earlier, e.2 <+: e.1.map MQTTPacket.received) ∧
      (w.lines p i).reader.dispatched <+: (w.lines p i).written.map MQTTPacket.received ∧
      (Machine.Meets (Wire.step A) (Heeds A) w₀ as → (w.lines p i).pending = [] →
        (w.lines p i).handlers = [] →
          (w.lines p i).reader.dispatched = (w.lines p i).written.map MQTTPacket.received) := by
  have h : w.Sound A := Machine.run_invariant (fun _ _ _ h hx hs => (h.step hA hx hs).1)
    (sound_of_fresh h₀ hl) hm hr
  have hline := h.lines p i
  refine ⟨h.arrived p i, hline.earlier, hline.dispatched_prefix, fun hheeds hp hh => ?_⟩
  have hwaits := (Machine.run_invariant
    (I := fun w : Wire P KP ι => w.Sound A ∧ ∀ q j, (w.lines q j).reader.Waits)
    (fun _ _ _ h hx hs => ⟨(h.1.step hA hx.1 hs).1, h.1.waits_step h.2 hx.2 hs⟩)
    ⟨sound_of_fresh h₀ hl, fun q j => by rw [hl]; exact Reader.waits_init⟩ (hm.and hheeds) hr).2
  rw [hh] at hline
  exact hline.dispatched_all (hwaits p i) hp

variable {F : Except PyExc Bytes → Prop} {R : P}

omit [DecidableEq P] [DecidableEq ι] in
theorem unconfused_of_ofReader {n : Net P KP ι} {x : P × Action ι} (h : x.2.ofReader = true) :
    Net.Unconfused A F R n x := by
  obtain ⟨p, a⟩ := x
  cases a with
  | recv | brokerAck => exact .of_quiet rfl rfl
  | _ => cases h

/-- Over streams as over whole publications, a message that was acknowledged has been handed
over. -/
theorem acked_over_streams (hA : A.Lawful) {w₀ : Wire P KP ι} (h₀ : ∀ p, Fresh (w₀.net p))
    (hkeys : Function.Injective fun p => A.pkHex (w₀.net p).kp)
    (hh : ∀ i, ((w₀.net R).clients i).msgHandlers.toList ≠ []) (hl : ∀ p i, w₀.lines p i = {})
    {as : List (Act P ι)}
    (hm : Machine.Meets (Wire.step A) (Faithful A (Net.Unconfused A F R)) w₀ as)
    (hr : Machine.run (Wire.step A) w₀ as = some w) {y : Queued}
    (hy : y ∈ ((w.net p).clients i).queued) (hack : y.appAck ∈ ((w.net p).clients i).acked)
    (hty : y.msgType = .msg) (hd : y.destPkHex = A.pkHex (w.net R).kp) (hF : F (A.hToB y.queueIdHex)) :
    Net.HandedOver A w.net R p y := by
  obtain ⟨bs, -, hbs⟩ := (refines hA).run (u := w₀.net) ⟨sound_of_fresh h₀ hl, rfl⟩ hm
  obtain ⟨n, hn, hmeets, -, rfl⟩ := hbs as.length w (by rwa [List.take_length])
  have hsound : Net.AckSound A F R w.net := by
    refine Machine.run_invariant (fun n x n' hI hx hs => ?_) (Net.AckSound.of_fresh h₀ hkeys hh)
      hmeets hn
    refine hI.step hA hx.1 ?_ hs
    by_cases hreader : x.2.ofReader = true
    · exact unconfused_of_ofReader hreader
    · exact hx.2 (Bool.not_eq_true _ ▸ hreader)
  exact hsound.acked p i y hy hack hty hd hF

open Concrete

def relayedTo (kp : ℕ) (payload : Bytes) : MQTTPacket :=
  publishPacket concrete (concrete.pkHex kp) (.bytes payload) [0x00, 0x01] false

def helloInPieces : List (Act Bool Unit) :=
  (.act (true, .queueMsg () 0 (.str "hello") (concrete.pkHex 2) (queueId 'a') .msg none)) ::
    List.replicate 4 (.act (true, .dispatch () 0)) ++
    [.write false () (relayedTo 2 (signedBy 1 100 (queueId 'a') 0 .msg "hello")),
      .chunk false () 70 true, .chunk false () 1000 true] ++
    List.replicate 5 (.act (false, .resume 0 (.ok 0))) ++ [.resume false () 0 true] ++
    List.replicate 5 (.act (false, .dispatch () 0)) ++
    [.write true () (relayedTo 1 (signedBy 2 100 (queueId 'a') 0 .msgack "ack")),
      .chunk true () 3 true, .chunk true () 1000 true] ++
    List.replicate 2 (.act (true, .resume 0 (.ok 0)))

theorem exists_helloInPieces : ∃ w, Machine.run (step concrete) ⟨Net.pair, fun _ _ => {}⟩
      helloInPieces = some w ∧
    Machine.Meets (step concrete)
      (fun w x => Faithful concrete (Net.Unconfused concrete (fun _ => True) false) w x ∧
        Heeds concrete w x) ⟨Net.pair, fun _ _ => {}⟩ helloInPieces ∧
    (w.lines false ()).pending = [] ∧ (w.lines false ()).handlers = [] ∧
    ∃ y ∈ ((w.net true).clients ()).queued, y.appAck ∈ ((w.net true).clients ()).acked ∧
      y.msgType = .msg ∧ y.destPkHex = concrete.pkHex (w.net false).kp := by
  obtain ⟨w, hw, hm, hd⟩ := Machine.exists_runMeeting_of_any (step concrete)
    (fun w x => Faithful concrete (Net.Unconfused concrete (fun _ => True) false) w x ∧
      Heeds concrete w x)
    ⟨Net.pair, fun _ _ => {}⟩ helloInPieces
    (fun w => decide ((w.lines false ()).pending = [] ∧ (w.lines false ()).handlers = [] ∧
      ∃ y ∈ ((w.net true).clients ()).queued, y.appAck ∈ ((w.net true).clients ()).acked ∧
        y.msgType = .msg ∧ y.destPkHex = concrete.pkHex (w.net false).kp)) (by decide +kernel)
  exact ⟨w, hw, hm, of_decide_eq_true hd⟩

theorem streams_refine_pieces : ∃ w bs, Machine.run (step concrete) ⟨Net.pair, fun _ _ => {}⟩
      helloInPieces = some w ∧
    Machine.run (Net.step concrete) Net.pair bs = some w.net ∧
    Machine.Meets (Net.step concrete)
      (Honestly concrete (Net.Unconfused concrete (fun _ => True) false)) Net.pair bs := by
  obtain ⟨w, hw, hm, -⟩ := exists_helloInPieces
  obtain ⟨bs, -, hbs⟩ := streams_refine concrete_lawful Net.fresh_pair (fun _ _ => rfl)
    (hm.mono fun _ _ h => h.1)
  obtain ⟨hrun, hmeets⟩ := hbs helloInPieces.length w (by rwa [List.take_length])
  exact ⟨w, _, hw, hrun, hmeets⟩

theorem tasks_of_the_streams_pieces : ∃ w, Machine.run (step concrete) ⟨Net.pair, fun _ _ => {}⟩
      helloInPieces = some w ∧
    (w.lines false ()).reader.dispatched =
      (w.lines false ()).written.map MQTTPacket.received := by
  obtain ⟨w, hw, hm, hp, hh, -⟩ := exists_helloInPieces
  exact ⟨w, hw, (tasks_of_the_streams concrete_lawful Net.fresh_pair (fun _ _ => rfl)
    (hm.mono fun _ _ h => h.1) hw false ()).2.2.2 (hm.mono fun _ _ h => h.2) hp hh⟩

theorem acked_over_streams_pieces : ∃ w, Machine.run (step concrete) ⟨Net.pair, fun _ _ => {}⟩
      helloInPieces = some w ∧
    ∃ y ∈ ((w.net true).clients ()).queued, Net.HandedOver concrete w.net false true y := by
  obtain ⟨w, hw, hm, -, -, y, hy, hack, hty, hd⟩ := exists_helloInPieces
  exact ⟨w, hw, y, hy, acked_over_streams concrete_lawful Net.fresh_pair (by decide +kernel)
    (by decide) (fun _ _ => rfl) (hm.mono fun _ _ h => h.1) hw hy hack hty hd trivial⟩

end Wire

end Sidewire
