import Sidewire.Lib.Reach
import Sidewire.Mqtt.Concrete
import Sidewire.Mqtt.Packet

/-! # The packet reader

Each received chunk starts a call of `mqtt_packet_reader` on the client's
buffer. A call runs until it has cut off a packet and awaits its handler, and
goes on when the handler is through, or ends with an error that
`async_wrap_errors` raises again. Several calls may stand at that await and
share the buffer.
-/

namespace Sidewire

inductive Scan
  | wait
  | fail (exc : PyExc) (rest : Bytes)
  | packet (pkt : MQTTPacket) (rest : Bytes)
  deriving DecidableEq

def scan (buf : Bytes) : Scan :=
  if buf = [] then .wait
  else if buf.length < 2 then .wait
  else
    match mqttDecodeVarint buf 1 with
    | .error _ => .wait
    | .ok (remLen, consumed) =>
      let totalLen := 1 + consumed + remLen
      if buf.length < totalLen then .wait
      else
        -- the buffer is advanced before the packet is parsed
        match mqttParsePacket (buf.take totalLen) with
        | .error exc => .fail exc (buf.drop totalLen)
        | .ok pkt => .packet pkt (buf.drop totalLen)

/-- The shared buffer and the packets whose handlers a suspended call awaits, with what has been
received and what has been handed to the handler so far. -/
structure Reader where
  buf : Bytes := []
  handling : List MQTTPacket := []
  received : Bytes := []
  dispatched : List MQTTPacket := []
  deriving DecidableEq

namespace Reader

inductive Event
  | chunk (bytes : Bytes)
  | resume (k : ℕ) (result : Except PyExc Unit)

inductive Outcome
  | suspended
  | returned
  | raised (exc : PyExc)
  deriving DecidableEq

/-- One pass of the loop: to the await of the handler, or out of the call. -/
def loop (s : Reader) : Reader × Outcome :=
  match scan s.buf with
  | .wait => (s, .returned)
  | .fail exc rest => ({ s with buf := rest }, .raised exc)
  | .packet pkt rest =>
    ({ s with
        buf := rest
        handling := s.handling ++ [pkt]
        dispatched := s.dispatched ++ [pkt] }, .suspended)

def mqttPacketReader (s : Reader) (chunk : Bytes) : Reader × Outcome :=
  if chunk = [] then (s, .returned)
  else loop { s with buf := s.buf ++ chunk, received := s.received ++ chunk }

/-- `wraps` says which errors `async_wrap_errors` keeps from the call. -/
def turn (wraps : PyExc → Bool) (s : Reader) : Event → Option (Reader × Outcome)
  | .chunk bytes => some (mqttPacketReader s bytes)
  | .resume k result =>
    if k < s.handling.length then
      let s := { s with handling := s.handling.eraseIdx k }
      match result with
      | .ok _ => some (loop s)
      | .error exc => some (if wraps exc then loop s else (s, .raised exc))
    else none

def step (wraps : PyExc → Bool) (s : Reader) (e : Event) : Option Reader :=
  (turn wraps s e).map Prod.fst

def Event.bytes : Event → Bytes
  | .chunk bytes => bytes
  | .resume _ _ => []

def fed (es : List Event) : Bytes := es.flatMap Event.bytes

end Reader

section Scan

variable {pkt : MQTTPacket} {b c x rest : Bytes} {exc : PyExc}

/-- No continuation makes a packet of these bytes: a reserved type, or a length of more than four
bytes. -/
def Stuck (b : Bytes) : Prop :=
  (∃ firstByte ∈ b.head?, ∀ t, MQTTEnum.ofValue (firstByte.toNat >>> 4) ≠ .ok t) ∨
    mqttDecodeVarint b 1 = .error (.valueError "malformed varint")

def Resumable (b : Bytes) : Prop := b = [] ∨ ∃ pkt c, Spells pkt (b ++ c) ∧ c ≠ []

theorem Spells.two_le_length (h : Spells pkt x) : 2 ≤ x.length := by
  obtain ⟨-, v, k, hv, hlen⟩ := h
  have := rounds_eq_ok_bounds hv
  omega

theorem scan_append (h : Spells pkt x) (rest : Bytes) : scan (x ++ rest) = .packet pkt rest := by
  have hlen := h.two_le_length
  obtain ⟨hp, v, k, hv, htotal⟩ := h
  have hne : x ++ rest ≠ [] := by
    intro hnil
    simp [(List.append_eq_nil_iff.mp hnil).1] at hlen
  have hlt : ¬ (x ++ rest).length < 2 := by rw [List.length_append]; omega
  have hge : ¬ (x ++ rest).length < x.length := by rw [List.length_append]; omega
  simp only [scan, hne, hlt, if_false, mqttDecodeVarint_append hv, ← htotal, hge, List.take_left,
    List.drop_left, hp]

theorem scan_cases (b : Bytes) :
    (scan b = .wait ∧ (b.length < 2 ∨ (∃ exc, mqttDecodeVarint b 1 = .error exc) ∨
        ∃ v k, mqttDecodeVarint b 1 = .ok (v, k) ∧ b.length < 1 + k + v)) ∨
      ∃ v k, mqttDecodeVarint b 1 = .ok (v, k) ∧ 1 + k + v ≤ b.length ∧
        scan b = match mqttParsePacket (b.take (1 + k + v)) with
          | .error exc => .fail exc (b.drop (1 + k + v))
          | .ok pkt => .packet pkt (b.drop (1 + k + v)) := by
  by_cases hne : b = []
  · exact Or.inl ⟨by simp [scan, hne], Or.inl (by simp [hne])⟩
  by_cases hlt : b.length < 2
  · exact Or.inl ⟨by simp [scan, hlt], Or.inl hlt⟩
  cases hd : mqttDecodeVarint b 1 with
  | error exc => exact Or.inl ⟨by simp [scan, hd], Or.inr (Or.inl ⟨exc, rfl⟩)⟩
  | ok r =>
    obtain ⟨v, k⟩ := r
    by_cases hge : b.length < 1 + k + v
    · exact Or.inl ⟨by simp [scan, hd, hge], Or.inr (Or.inr ⟨v, k, rfl, hge⟩)⟩
    · exact Or.inr ⟨v, k, rfl, not_lt.mp hge, by simp only [scan, hne, hlt, hd, hge, if_false]⟩

theorem mqttDecodeVarint_take {v k n : ℕ} (h : mqttDecodeVarint b 1 = .ok (v, k))
    (hn : 1 + k ≤ n) : mqttDecodeVarint (b.take n) 1 = .ok (v, k) := by
  apply rounds_eq_ok_congr h
  intro j hj
  exact List.getElem?_take_of_lt (by omega)

theorem spells_of_scan (h : scan b = .packet pkt rest) : ∃ x, Spells pkt x ∧ b = x ++ rest := by
  rcases scan_cases b with ⟨hw, -⟩ | ⟨v, k, hd, hlen, hs⟩
  · simp [hw] at h
  · rw [h] at hs
    cases hp : mqttParsePacket (b.take (1 + k + v)) with
    | error exc => simp [hp] at hs
    | ok pkt' =>
      simp only [hp, Scan.packet.injEq] at hs
      obtain ⟨rfl, rfl⟩ := hs
      exact ⟨b.take (1 + k + v), ⟨hp, v, k, mqttDecodeVarint_take hd (by omega),
        by rw [List.length_take]; omega⟩, (List.take_append_drop ..).symm⟩

theorem idle_of_scan (h : scan b = .wait) : framing.Idle b := by
  rintro pkt x rest hx rfl
  rw [scan_append hx] at h
  cases h

theorem Stuck.append (h : Stuck b) (c : Bytes) : Stuck (b ++ c) := by
  rcases h with ⟨firstByte, hmem, ht⟩ | h
  · apply Or.inl
    refine ⟨firstByte, ?_, ht⟩
    cases b with
    | nil => cases hmem
    | cons _ _ => exact hmem
  · apply Or.inr
    have hlen := rounds_eq_malformed_length h (by omega)
    apply rounds_eq_malformed_congr h
    intro j hj
    exact List.getElem?_append_left (by omega)

theorem Spells.not_stuck (h : Spells pkt x) (rest : Bytes) : ¬ Stuck (x ++ rest) := by
  have hlen := h.two_le_length
  obtain ⟨hp, v, k, hv, -⟩ := h
  rintro (⟨firstByte, hmem, ht⟩ | hmal)
  · cases x with
    | nil => simp at hlen
    | cons a x =>
      obtain rfl : a = firstByte := by simpa using hmem
      rw [mqttParsePacket_eq rfl hv] at hp
      cases hty : MQTTEnum.ofValue (a.toNat >>> 4) with
      | error exc => simp [hty, Except.map] at hp
      | ok t => exact ht t hty
  · rw [mqttDecodeVarint_append hv rest] at hmal
    cases hmal

theorem Stuck.not_resumable (h : Stuck b) : ¬ Resumable b := by
  rintro (rfl | ⟨pkt, c, hx, -⟩)
  · rcases h with ⟨_, hmem, -⟩ | h
    · cases hmem
    · simp [mqttDecodeVarint, mqttDecodeVarint.rounds] at h
  · have := hx.not_stuck []
    rw [List.append_nil] at this
    exact this (h.append c)

theorem stuck_of_scan_fail (h : scan b = .fail exc rest) : Stuck b := by
  rcases scan_cases b with ⟨hw, -⟩ | ⟨v, k, hd, hlen, hs⟩
  · simp [hw] at h
  · have hk := rounds_eq_ok_bounds hd
    cases b with
    | nil => simp at hk
    | cons firstByte b =>
      have h0 : (List.take (1 + k + v) (firstByte :: b))[0]? = some firstByte :=
        List.getElem?_take_of_lt (by omega)
      rw [h, mqttParsePacket_eq h0 (mqttDecodeVarint_take hd (by omega))] at hs
      refine Or.inl ⟨firstByte, rfl, ?_⟩
      intro t ht
      simp [ht, Except.map] at hs

theorem length_of_scan_fail (h : scan b = .fail exc rest) : rest.length ≤ b.length := by
  rcases scan_cases b with ⟨hw, -⟩ | ⟨v, k, -, -, hs⟩
  · simp [hw] at h
  · rw [h] at hs
    cases hp : mqttParsePacket (b.take (1 + k + v)) with
    | error exc' =>
      simp only [hp, Scan.fail.injEq] at hs
      rw [hs.2, List.length_drop]
      omega
    | ok pkt => simp [hp] at hs

theorem spells_of_length {v k : ℕ} {firstByte : UInt8} {t : MQTTEnum} (h : b[0]? = some firstByte)
    (ht : MQTTEnum.ofValue (firstByte.toNat >>> 4) = .ok t)
    (hd : mqttDecodeVarint b 1 = .ok (v, k)) (hlen : b.length = 1 + k + v) :
    ∃ pkt, Spells pkt b := by
  have hp := mqttParsePacket_eq h hd
  rw [ht] at hp
  exact ⟨_, hp, v, k, hd, hlen⟩

theorem Spells.not_resumable (h : Spells pkt x) : ¬ Resumable x := by
  rintro (rfl | ⟨pkt', c, hx, hc⟩)
  · have := h.two_le_length
    simp at this
  · have := hx.length_eq (b := []) h (List.append_nil _)
    rw [List.length_append] at this
    exact hc (List.eq_nil_of_length_eq_zero (by simpa using this))

theorem resumable_of_scan_wait (h : scan b = .wait) (hb : ¬ Stuck b) : Resumable b := by
  cases b with
  | nil => exact Or.inl rfl
  | cons firstByte b =>
    obtain ⟨t, ht⟩ : ∃ t, MQTTEnum.ofValue (firstByte.toNat >>> 4) = .ok t := by
      by_contra hno
      exact hb (Or.inl ⟨firstByte, rfl, fun t ht => hno ⟨t, ht⟩⟩)
    apply Or.inr
    -- a length that is complete is followed by its body, one that is not by a zero byte first
    have hfill : ∀ {c : Bytes} {v k : ℕ}, c ≠ [] → (firstByte :: (b ++ c)).length ≤ 1 + k + v →
        mqttDecodeVarint (firstByte :: (b ++ c)) 1 = .ok (v, k) →
        ∃ pkt c', Spells pkt (firstByte :: b ++ c') ∧ c' ≠ [] := by
      intro c v k hc hlen hd
      obtain ⟨pkt, hpkt⟩ := spells_of_length (b := firstByte :: (b ++ c) ++
        List.replicate (1 + k + v - (firstByte :: (b ++ c)).length) 0) rfl ht
        (mqttDecodeVarint_append hd _) (by rw [List.length_append, List.length_replicate]; omega)
      exact ⟨pkt, c ++ List.replicate (1 + k + v - (firstByte :: (b ++ c)).length) 0,
        by simpa using hpkt, by simp [hc]⟩
    cases hd : mqttDecodeVarint (firstByte :: b) 1 with
    | error exc =>
      rcases rounds_eq_error hd with rfl | rfl
      · obtain ⟨w, hw⟩ := rounds_append_zero hd (by simp)
        exact hfill (c := [0]) (by simp) (by simp; omega) hw
      · exact absurd (Or.inr hd) hb
    | ok r =>
      obtain ⟨v, k⟩ := r
      have hk := rounds_eq_ok_bounds hd
      rcases scan_cases (firstByte :: b) with
        ⟨-, hlt | ⟨exc, he⟩ | ⟨v', k', hd', hlt⟩⟩ | ⟨v', k', hd', hlen, hs⟩
      · omega
      · simp [hd] at he
      · obtain ⟨rfl, rfl⟩ : v = v' ∧ k = k' := by simpa [hd] using hd'
        have hone : (firstByte :: (b ++ [0])).length ≤ 1 + k + v := by
          simp only [List.length_cons, List.length_append, List.length_nil] at hlt ⊢
          omega
        exact hfill (by simp) hone (mqttDecodeVarint_append hd [0])
      · rw [h] at hs
        cases hp : mqttParsePacket (List.take (1 + k' + v') (firstByte :: b)) <;> simp [hp] at hs

theorem Stuck.exists_prefix (h : Stuck b) : ∃ b', b' <+: b ∧ b' ≠ [] ∧ Stuck b' ∧
    scan b' = .wait := by
  rcases h with ⟨firstByte, hmem, ht⟩ | h
  · cases b with
    | nil => cases hmem
    | cons a b =>
      obtain rfl : a = firstByte := by simpa using hmem
      exact ⟨[a], ⟨b, rfl⟩, by simp, Or.inl ⟨a, rfl, ht⟩, by simp [scan]⟩
  · have hlen := rounds_eq_malformed_length h (by omega)
    have hmal : mqttDecodeVarint (b.take 5) 1 = .error (.valueError "malformed varint") := by
      apply rounds_eq_malformed_congr h
      intro j hj
      exact List.getElem?_take_of_lt (by omega)
    refine ⟨b.take 5, List.take_prefix 5 b, ?_, Or.inr hmal, ?_⟩
    · intro hnil
      have := congrArg List.length hnil
      rw [List.length_take, List.length_nil] at this
      omega
    · simp [scan, hmal]

end Scan

namespace Reader

variable {wraps : PyExc → Bool} {H : MQTTPacket → PyExc → Prop} {s t u : Reader} {e : Event}
  {es : List Event} {o : Outcome} {S : Bytes} {k : ℕ} {exc : PyExc}

/-- However much of the stream is read off as packets, what follows can be one more. -/
def Clean (S : Bytes) : Prop := ∀ ps b, framing.Reads ps S b → ¬ Stuck b

theorem loop_of_wait (h : scan s.buf = .wait) : loop s = (s, .returned) := by
  rw [loop, h]

theorem loop_of_packet {pkt : MQTTPacket} {rest : Bytes} (h : scan s.buf = .packet pkt rest) :
    loop s = ({ s with
      buf := rest
      handling := s.handling ++ [pkt]
      dispatched := s.dispatched ++ [pkt] }, .suspended) := by
  rw [loop, h]

theorem loop_received (s : Reader) : (loop s).1.received = s.received := by
  rw [loop]
  split <;> rfl

theorem loop_cases (s : Reader) :
    ((loop s).2 = .suspended ∧ ∃ pkt, (loop s).1.dispatched = s.dispatched ++ [pkt] ∧
        (loop s).1.handling = s.handling ++ [pkt]) ∨
      ((loop s).2 ≠ .suspended ∧ (loop s).1.dispatched = s.dispatched ∧
        (loop s).1.handling = s.handling) := by
  rw [loop]
  split
  · exact .inr ⟨by simp, rfl, rfl⟩
  · exact .inr ⟨by simp, rfl, rfl⟩
  · exact .inl ⟨rfl, _, rfl, rfl⟩

def Event.kept : Event → List MQTTPacket → List MQTTPacket
  | .chunk _, hs => hs
  | .resume k _, hs => hs.eraseIdx k

def entering (s : Reader) (e : Event) : Reader :=
  { s with
    buf := s.buf ++ e.bytes
    handling := e.kept s.handling
    received := s.received ++ e.bytes }

theorem turn_cases (h : turn wraps s e = some (t, o)) :
    loop (s.entering e) = (t, o) ∨ t = s.entering e ∧
      (e = .chunk [] ∧ o = .returned ∨ ∃ k exc, e = .resume k (.error exc) ∧
        wraps exc = false ∧ o = .raised exc ∧ k < s.handling.length) := by
  cases e with
  | chunk bytes =>
    simp only [turn, mqttPacketReader, Option.some.injEq] at h
    split_ifs at h with hnil
    · cases h
      refine .inr ⟨?_, .inl ⟨by rw [hnil], rfl⟩⟩
      simp [entering, Event.bytes, Event.kept, hnil]
    · exact .inl h
  | resume k result =>
    simp only [turn] at h
    split_ifs at h with hk
    have henter : ∀ r, s.entering (.resume k r) = { s with handling := s.handling.eraseIdx k } := by
      simp [entering, Event.bytes, Event.kept]
    rw [henter]
    cases result with
    | ok _ => exact .inl (Option.some.inj h)
    | error exc =>
      simp only [Option.some.injEq] at h
      split_ifs at h with hw
      · exact .inl h
      · cases h
        exact .inr ⟨rfl, .inr ⟨k, exc, rfl, Bool.eq_false_of_not_eq_true hw, rfl, hk⟩⟩

theorem turn_received (h : turn wraps s e = some (t, o)) :
    t.received = s.received ++ e.bytes := by
  obtain hl | ⟨rfl, -⟩ := turn_cases h
  · have := loop_received (s.entering e)
    rw [hl] at this
    exact this
  · rfl

theorem turn_handling (h : turn wraps s e = some (t, o)) :
    (o = .suspended ∧ ∃ pkt, t.dispatched = s.dispatched ++ [pkt] ∧
        t.handling = e.kept s.handling ++ [pkt]) ∨
      (o ≠ .suspended ∧ t.dispatched = s.dispatched ∧ t.handling = e.kept s.handling) := by
  obtain hl | ⟨rfl, ⟨-, rfl⟩ | ⟨k, exc, -, -, rfl, -⟩⟩ := turn_cases h
  · have := loop_cases (s.entering e)
    rw [hl] at this
    exact this
  · exact .inr ⟨by simp, rfl, rfl⟩
  · exact .inr ⟨by simp, rfl, rfl⟩

theorem lt_of_turn_resume {r : Except PyExc Unit} (h : turn wraps s (.resume k r) = some (t, o)) :
    k < s.handling.length := by
  simp only [turn] at h
  split_ifs at h with hk
  exact hk

theorem step_eq_some : step wraps s e = some t ↔ ∃ o, turn wraps s e = some (t, o) := by
  simp [step]

theorem run_received (h : Machine.run (step wraps) s es = some t) :
    t.received = s.received ++ fed es := by
  induction es generalizing s with
  | nil =>
    cases h
    simp [fed]
  | cons e es ih =>
    obtain ⟨u, hu, ht⟩ := Machine.run_cons_eq_some.mp h
    obtain ⟨o, ho⟩ := step_eq_some.mp hu
    rw [ih ht, turn_received ho, List.append_assoc]
    rfl

theorem received_eq_fed (h : Machine.run (step wraps) {} es = some t) : t.received = fed es := by
  simpa using run_received h

theorem received_prefix_of_turn (h : turn wraps s e = some (t, o)) (hpre : t.received <+: S) :
    s.received <+: S := by
  rw [turn_received h] at hpre
  exact (List.prefix_append _ _).trans hpre

theorem turn_subset (hs : s.handling ⊆ s.dispatched) (h : turn wraps s e = some (t, o)) :
    t.handling ⊆ t.dispatched := by
  have hkept : e.kept s.handling ⊆ s.dispatched := by
    cases e with
    | chunk => exact hs
    | resume => exact List.Subset.trans (List.eraseIdx_subset ..) hs
  obtain ⟨-, pkt, hd, hh⟩ | ⟨-, hd, hh⟩ := turn_handling h
  · rw [hd, hh]
    exact List.append_subset.mpr
      ⟨List.subset_append_of_subset_left _ hkept, List.subset_append_right ..⟩
  · rw [hd, hh]
    exact hkept

/-- The buffer is what is left of the received bytes after the packets handed on. -/
def Reads (s : Reader) : Prop := framing.Reads s.dispatched s.received s.buf

/-- Unless a call is suspended, no packet stands in the buffer. -/
def Waits (s : Reader) : Prop := s.handling = [] → scan s.buf = .wait

theorem reads_init : Reads {} := .nil []

theorem waits_init : Waits {} := fun _ => rfl

theorem Clean.not_stuck (hS : Clean S) (h : s.Reads) (hpre : s.received <+: S) :
    ¬ Stuck s.buf := by
  obtain ⟨c, rfl⟩ := hpre
  intro hb
  exact hS _ _ (Framing.Reads.append h c) (hb.append c)

theorem loop_spec (h : s.Reads) (hb : ¬ Stuck s.buf) : (loop s).1.Reads ∧
    (scan (loop s).1.buf = .wait ∨ (loop s).2 = .suspended ∧ (loop s).1.handling ≠ []) := by
  cases hs : scan s.buf with
  | wait =>
    rw [loop_of_wait hs]
    exact ⟨h, .inl hs⟩
  | fail exc rest => exact absurd (stuck_of_scan_fail hs) hb
  | packet pkt rest =>
    rw [loop_of_packet hs]
    obtain ⟨x, hx, hbuf⟩ := spells_of_scan hs
    exact ⟨Framing.Reads.snoc h hx hbuf, .inr ⟨rfl, by simp⟩⟩

/-- After a turn the packets handed on are still those read off. Its call waits for the rest of a
packet or for one more handler, except for an empty chunk and an error that is raised again. -/
theorem turn_spec (hS : Clean S) (hs : s.Reads) (h : turn wraps s e = some (t, o))
    (hpre : t.received <+: S) : t.Reads ∧
      (scan t.buf = .wait ∨ o = .suspended ∧ t.handling ≠ [] ∨ t = s.entering e ∧
        (e = .chunk [] ∨ ∃ k exc, e = .resume k (.error exc) ∧ wraps exc = false ∧
          k < s.handling.length)) := by
  have henter : (s.entering e).Reads := Framing.Reads.append hs e.bytes
  obtain hl | ⟨rfl, he⟩ := turn_cases h
  · rw [turn_received h] at hpre
    have hb := hS.not_stuck henter hpre
    have hspec := loop_spec henter hb
    rw [hl] at hspec
    exact ⟨hspec.1, hspec.2.imp_right .inl⟩
  · refine ⟨henter, .inr (.inr ⟨rfl, ?_⟩)⟩
    exact he.imp And.left fun ⟨k, exc, he, hw, _, hk⟩ => ⟨k, exc, he, hw, hk⟩

theorem run_reads (hS : Clean S) (h : Machine.run (step wraps) {} es = some t)
    (hpre : t.received <+: S) : t.Reads := by
  refine Machine.run_preserves (I := fun s => s.received <+: S → s.Reads) ?_
    (fun _ => reads_init) h hpre
  intro s e t hs ht hpre
  obtain ⟨o, ho⟩ := step_eq_some.mp ht
  exact (turn_spec hS (hs (received_prefix_of_turn ho hpre)) ho hpre).1

/-- The last call that is suspended ends with an error of its handler, though a packet stands in the
buffer. -/
def Strands (wraps : PyExc → Bool) (s : Reader) : Event → Prop
  | .resume _ (.error exc) => wraps exc = false ∧ s.handling.length = 1 ∧ scan s.buf ≠ .wait
  | _ => False

instance (wraps : PyExc → Bool) (s : Reader) (e : Event) : Decidable (Strands wraps s e) := by
  unfold Strands
  split <;> infer_instance

theorem turn_waits (hS : Clean S) (hs : s.Reads) (hw : e = .chunk [] → s.Waits)
    (h : turn wraps s e = some (t, o)) (hpre : t.received <+: S) (hn : ¬ Strands wraps s e) :
    t.Waits := by
  intro hnil
  obtain hwait | ⟨-, hne⟩ | ⟨rfl, rfl | ⟨k, exc, rfl, hexc, hk⟩⟩ := (turn_spec hS hs h hpre).2
  · exact hwait
  · exact absurd hnil hne
  · change scan (s.buf ++ []) = .wait
    rw [List.append_nil]
    exact hw rfl hnil
  · change scan (s.buf ++ []) = .wait
    rw [List.append_nil]
    by_contra hscan
    refine hn ⟨hexc, ?_, hscan⟩
    have hlen := List.length_eraseIdx_of_lt hk
    rw [show s.handling.eraseIdx k = [] from hnil, List.length_nil] at hlen
    omega

theorem clean_of_reads {ps : List MQTTPacket} (h : framing.Reads ps S []) : Clean S := by
  intro qs b hb hst
  obtain ⟨rs, -, hrs⟩ := h.of_idle Framing.idle_nil hb
  cases hrs with
  | nil => exact absurd (Or.inl rfl) hst.not_resumable
  | cons hx _ => exact Spells.not_stuck hx _ hst

theorem loop_shrinks (hk : k < s.handling.length) :
    (loop { s with handling := s.handling.eraseIdx k }).1.handling.length +
      (loop { s with handling := s.handling.eraseIdx k }).1.buf.length <
        s.handling.length + s.buf.length := by
  have hlen := List.length_eraseIdx_of_lt hk
  cases hs : scan s.buf with
  | wait =>
    simp only [loop, hs, hlen]
    omega
  | fail exc rest =>
    have := length_of_scan_fail hs
    simp only [loop, hs, hlen]
    omega
  | packet pkt rest =>
    obtain ⟨x, hx, hbuf⟩ := spells_of_scan hs
    have := hx.two_le_length
    have hsum := congrArg List.length hbuf
    rw [List.length_append] at hsum
    simp only [loop, hs, List.length_append, hlen, List.length_singleton]
    omega

theorem exists_settled (wraps : PyExc → Bool) (s : Reader) : ∃ n u,
    Machine.run (step wraps) s (List.replicate n (.resume 0 (.ok ()))) = some u ∧
      u.handling = [] := by
  induction hm : s.handling.length + s.buf.length using Nat.strongRecOn generalizing s with
  | ind m ih =>
    by_cases hnil : s.handling = []
    · exact ⟨0, s, rfl, hnil⟩
    · have hk : 0 < s.handling.length := List.length_pos_iff.mpr hnil
      obtain ⟨n, u, hu, hdone⟩ := ih _ (hm ▸ loop_shrinks hk) _ rfl
      refine ⟨n + 1, u, ?_, hdone⟩
      rw [List.replicate_succ, Machine.run_cons_eq_some]
      exact ⟨_, by rw [step, turn, if_pos hk]; rfl, hu⟩

theorem fed_replicate_resume (n : ℕ) (r : Except PyExc Unit) :
    fed (List.replicate n (.resume 0 r)) = [] := by
  simp [fed, Event.bytes]

theorem run_of_idle (hs : s.handling = []) (h : Machine.run (step wraps) s es = some t)
    (hfed : fed es = []) : t = s := by
  induction es with
  | nil =>
    cases h
    rfl
  | cons e es ih =>
    obtain ⟨u, hu, ht⟩ := Machine.run_cons_eq_some.mp h
    obtain ⟨he, hes⟩ := List.append_eq_nil_iff.mp (show e.bytes ++ fed es = [] from hfed)
    cases e with
    | chunk bytes =>
      obtain rfl : bytes = [] := he
      cases hu
      exact ih ht hes
    | resume k r =>
      obtain ⟨o, ho⟩ := step_eq_some.mp hu
      have hk := lt_of_turn_resume ho
      rw [hs] at hk
      cases hk

/-- With the whole stream received, the buffer is empty in the end exactly if no call stranded a
packet in it. -/
theorem waits_iff (hS : Clean S) (hrun : Machine.run (step wraps) {} es = some t)
    (hrec : t.received = S) (hdone : t.handling = []) : scan t.buf = .wait ↔
      Machine.Meets (step wraps) (fun s e => s.received = S → ¬ Strands wraps s e) {} es := by
  constructor
  · intro hwait
    by_contra hn
    obtain ⟨bs, e, cs, u, v, -, hu, hP, hv, ht⟩ := Machine.exists_of_not_meets hrun hn
    obtain ⟨hall, hstr⟩ := Classical.not_imp.mp hP
    obtain ⟨o, ho⟩ := step_eq_some.mp hv
    obtain ⟨k, exc, rfl, hexc, hlen, hscan⟩ : ∃ k exc, e = .resume k (.error exc) ∧
        wraps exc = false ∧ u.handling.length = 1 ∧ scan u.buf ≠ .wait := by
      have hstr := not_not.mp hstr
      unfold Strands at hstr
      split at hstr
      · exact ⟨_, _, rfl, hstr⟩
      · exact hstr.elim
    have hk := lt_of_turn_resume ho
    simp only [turn, if_pos hk, hexc, Option.some.injEq, Bool.false_eq_true, if_false,
      Prod.mk.injEq] at ho
    obtain ⟨rfl, -⟩ := ho
    have hnil : u.handling.eraseIdx k = [] := by
      rw [List.eq_nil_iff_length_eq_zero, List.length_eraseIdx_of_lt hk, hlen]
    have hfed : fed cs = [] := by
      have hr := run_received ht
      rw [hrec, show ({ u with handling := u.handling.eraseIdx k } : Reader).received = S from hall]
        at hr
      exact List.append_cancel_left (hr.symm.trans (List.append_nil S).symm)
    obtain rfl := run_of_idle hnil ht hfed
    exact hscan hwait
  · intro hm
    refine (Machine.run_invariant
      (I := fun s : Reader => s.received <+: S → s.Reads ∧ (s.received = S → s.Waits)) ?_
      (fun _ => ⟨reads_init, fun _ => waits_init⟩) hm hrun (hrec ▸ List.prefix_rfl)).2 hrec hdone
    intro s e t hs hP ht hpre
    obtain ⟨o, ho⟩ := step_eq_some.mp ht
    obtain ⟨hreads, hwaits⟩ := hs (received_prefix_of_turn ho hpre)
    refine ⟨(turn_spec hS hreads ho hpre).1, fun hall => ?_⟩
    have hsame : e.bytes = [] → s.received = S := by
      intro hnil
      rw [← hall, turn_received ho, hnil, List.append_nil]
    refine turn_waits hS hreads ?_ ho hpre ?_
    · rintro rfl
      exact hwaits (hsame rfl)
    · cases e with
      | chunk => exact id
      | resume k r => exact hP (hsame rfl)

theorem dispatched_all_iff {ps : List MQTTPacket} (hS : framing.Reads ps S [])
    (hrun : Machine.run (step wraps) {} es = some t) (hfed : fed es = S)
    (hdone : t.handling = []) : t.dispatched = ps ∧ t.buf = [] ↔
      Machine.Meets (step wraps) (fun s e => s.received = S → ¬ Strands wraps s e) {} es := by
  have hrec : t.received = S := (received_eq_fed hrun).trans hfed
  have hreads := run_reads (clean_of_reads hS) hrun (hrec ▸ List.prefix_rfl)
  rw [← waits_iff (clean_of_reads hS) hrun hrec hdone]
  constructor
  · rintro ⟨-, hbuf⟩
    rw [hbuf]
    rfl
  · intro hwait
    rw [Reads, hrec] at hreads
    exact hreads.eq_of_idle (idle_of_scan hwait) hS Framing.idle_nil

/-- However a stream of well-formed packets is cut and the calls are interleaved, the handler is
handed the packets one by one and in order. When all calls are through it has been handed every one
of them, and the buffer is empty, exactly if no call that ended with an error stranded a packet. -/
theorem dispatches_the_packets (wraps : PyExc → Bool) (ps : List MQTTPacket) (es : List Event)
    (t : Reader) (hps : ∀ p ∈ ps, (p.variableHeader ++ p.payload).length ≤ 268435455)
    (hfed : fed es <+: (ps.map MQTTPacket.build).flatten)
    (hrun : Machine.run (step wraps) {} es = some t) :
    t.dispatched <+: ps.map MQTTPacket.received ∧
      (fed es = (ps.map MQTTPacket.build).flatten → t.handling = [] →
        (t.dispatched = ps.map MQTTPacket.received ∧ t.buf = [] ↔
          Machine.Meets (step wraps)
            (fun s e => s.received = (ps.map MQTTPacket.build).flatten → ¬ Strands wraps s e)
            {} es)) ∧
      ∃ n u, Machine.run (step wraps) t (List.replicate n (.resume 0 (.ok ()))) = some u ∧
        u.handling = [] := by
  have hS : framing.Reads (ps.map MQTTPacket.received) (ps.map MQTTPacket.build).flatten [] :=
    Framing.reads_flatten fun p hp => spells_build (hps p hp)
  have hrec := received_eq_fed hrun
  have hreads := run_reads (clean_of_reads hS) hrun (hrec ▸ hfed)
  refine ⟨?_, dispatched_all_iff hS hrun, exists_settled wraps t⟩
  obtain ⟨c, hc⟩ := hfed
  have hall := Framing.Reads.append hreads c
  rw [hrec, hc] at hall
  obtain ⟨rs, hrs, -⟩ := hS.of_idle Framing.idle_nil hall
  exact ⟨rs, hrs.symm⟩

/-- A `CONNACK` and a `PINGRESP`, cut in the header of the first and in its body, the second
arriving with the end of the first. -/
theorem dispatches_connack_pingresp : ∃ t, Machine.run (step Concrete.asyncWrapErrors) {}
    [.chunk [0x20], .chunk [0x02, 0x00], .chunk [0x00, 0xD0, 0x00],
      .resume 0 (.error (.keyError "topic")), .resume 0 (.error (.typeError "handler"))] = some t ∧
    t.dispatched = [{ type := .connack, flags := 0, body := [0x00, 0x00] },
      { type := .pingresp, flags := 0 }] ∧ t.buf = [] := by
  obtain ⟨t, hrun, hm, hdone⟩ := Machine.exists_runMeeting_of_any (step Concrete.asyncWrapErrors)
    (fun s e => s.received = [0x20, 0x02, 0x00, 0x00, 0xD0, 0x00] →
      ¬ Strands Concrete.asyncWrapErrors s e) {}
    [.chunk [0x20], .chunk [0x02, 0x00], .chunk [0x00, 0xD0, 0x00],
      .resume 0 (.error (.keyError "topic")), .resume 0 (.error (.typeError "handler"))]
    (fun t : Reader => t.handling = []) (by decide +kernel)
  have hbuild : [0x20, 0x02, 0x00, 0x00, 0xD0, 0x00] =
      ([{ type := .connack, flags := 0, variableHeader := [0x00, 0x00] },
        { type := .pingresp, flags := 0 }].map MQTTPacket.build).flatten := by
    simp [MQTTPacket.build, mqttBuildHeader, mqttEncodeVarint_of_lt, MQTTEnum.value]
  rw [hbuild] at hm
  have key := (dispatches_the_packets Concrete.asyncWrapErrors
    [{ type := .connack, flags := 0, variableHeader := [0x00, 0x00] },
      { type := .pingresp, flags := 0 }] _ t (by simp) (hbuild ▸ by simp [fed, Event.bytes])
    hrun).2.1 (hbuild ▸ by simp [fed, Event.bytes]) (by simpa using hdone)
  exact ⟨t, hrun, key.mpr hm⟩

/-- A `PUBLISH` that is to be acknowledged arrives with a `PINGRESP`, while the client has no
pipe. -/
theorem not_dispatches_pingresp : ∃ t, Machine.run (step Concrete.asyncWrapErrors) {}
    [.chunk [0x32, 0x05, 0x00, 0x01, 0x61, 0x00, 0x01, 0xD0, 0x00],
      .resume 0 (.error (.attributeError "'NoneType' object has no attribute 'send'"))] = some t ∧
    [0x32, 0x05, 0x00, 0x01, 0x61, 0x00, 0x01, 0xD0, 0x00] =
      ([{ type := .publish, flags := 2, variableHeader := [0x00, 0x01, 0x61, 0x00, 0x01] },
        { type := .pingresp, flags := 0 }].map MQTTPacket.build).flatten ∧
    t.handling = [] ∧
    t.dispatched = [{ type := .publish, flags := 2, body := [0x00, 0x01, 0x61, 0x00, 0x01] }] ∧
    t.buf = [0xD0, 0x00] := by
  have hbuild : [0x32, 0x05, 0x00, 0x01, 0x61, 0x00, 0x01, 0xD0, 0x00] =
      ([{ type := .publish, flags := 2, variableHeader := [0x00, 0x01, 0x61, 0x00, 0x01] },
        { type := .pingresp, flags := 0 }].map MQTTPacket.build).flatten := by
    simp [MQTTPacket.build, mqttBuildHeader, mqttEncodeVarint_of_lt, MQTTEnum.value]
  refine ⟨_, rfl, hbuild, ?_, ?_, ?_⟩ <;> decide +kernel

def Ends (H : MQTTPacket → PyExc → Prop) (s : Reader) (e : Event) : Prop :=
  ∀ k exc, e = .resume k (.error exc) → ∀ pkt ∈ s.handling[k]?, H pkt exc

/-- After each call that is over the buffer is empty or lacks the rest of a packet, and any two
ways of cutting the stream and interleaving the calls dispatch the same packets, whatever errors the
handlers end with of those they may. A call for an empty chunk leaves the buffer as it is, and is
considered where no other call is suspended. -/
def Recovers (wraps : PyExc → Bool) (H : MQTTPacket → PyExc → Prop) (S : Bytes) : Prop :=
  (∀ es s e t o, Machine.run (step wraps) {} es = some s → turn wraps s e = some (t, o) →
    Machine.Meets (step wraps) (Ends H) {} es → Ends H s e → fed (es ++ [e]) <+: S →
      o ≠ .suspended → (e = .chunk [] → s.handling = []) → Resumable t.buf) ∧
  ∀ es es' t t', Machine.run (step wraps) {} es = some t → Machine.run (step wraps) {} es' = some t' →
    Machine.Meets (step wraps) (Ends H) {} es → Machine.Meets (step wraps) (Ends H) {} es' →
      fed es = S → fed es' = S → t.handling = [] → t'.handling = [] → t.dispatched = t'.dispatched

/-- Of a packet that another one follows, `async_wrap_errors` keeps the errors. -/
def Kept (wraps : PyExc → Bool) (H : MQTTPacket → PyExc → Prop) (S : Bytes) : Prop :=
  ∀ ps pkt next b, framing.Reads (ps ++ [pkt, next]) S b → ∀ exc, H pkt exc → wraps exc = true

theorem fed_append (es es' : List Event) : fed (es ++ es') = fed es ++ fed es' := by
  simp [fed]

theorem fed_singleton (e : Event) : fed [e] = e.bytes := by
  simp [fed]

theorem Kept.wait (hK : Kept wraps H S) (hS : Clean S) (hs : s.Reads)
    (hsub : s.handling ⊆ s.dispatched) (hpre : s.received <+: S)
    (he : Ends H s (.resume k (.error exc))) (hk : k < s.handling.length)
    (hw : wraps exc = false) : scan s.buf = .wait := by
  cases hscan : scan s.buf with
  | wait => rfl
  | fail => exact absurd (stuck_of_scan_fail hscan) (hS.not_stuck hs hpre)
  | packet last rest =>
    obtain ⟨x, hx, hbuf⟩ := spells_of_scan hscan
    obtain ⟨c, hc⟩ := hpre
    have hall := (Framing.Reads.snoc hs hx hbuf).append c
    rw [hc] at hall
    -- the packet that is handled was handed on, and the next one of the stream after it
    obtain ⟨ps, rs, hd⟩ := List.append_of_mem (hsub (List.getElem_mem hk))
    obtain ⟨next, qs, hq⟩ : ∃ next qs, rs ++ [last] = next :: qs :=
      List.exists_cons_of_ne_nil (by simp)
    have hsplit : s.dispatched ++ [last] = (ps ++ [s.handling[k], next]) ++ qs := by
      rw [hd, List.append_assoc, List.cons_append, hq]
      simp
    rw [hsplit] at hall
    obtain ⟨b, hb, -⟩ := hall.of_append
    have hkept := hK ps _ next b hb exc (he k exc rfl _ (List.getElem?_eq_getElem hk))
    rw [hw] at hkept
    cases hkept

/-- Along every run in which handlers end as they may, the reader keeps up with the stream. -/
theorem Kept.run (hK : Kept wraps H S) (hS : Clean S)
    (hm : Machine.Meets (step wraps) (Ends H) {} es)
    (hrun : Machine.run (step wraps) {} es = some t) (hpre : t.received <+: S) :
    t.Reads ∧ t.Waits ∧ t.handling ⊆ t.dispatched := by
  refine Machine.run_invariant (I := fun s : Reader => s.received <+: S →
    s.Reads ∧ s.Waits ∧ s.handling ⊆ s.dispatched) ?_
    (fun _ => ⟨reads_init, waits_init, by simp⟩) hm hrun hpre
  intro s e t hs he ht hpre
  obtain ⟨o, ho⟩ := step_eq_some.mp ht
  have hle := received_prefix_of_turn ho hpre
  obtain ⟨hreads, hwaits, hsub⟩ := hs hle
  refine ⟨(turn_spec hS hreads ho hpre).1, ?_, turn_subset hsub ho⟩
  refine turn_waits hS hreads (fun _ => hwaits) ho hpre fun hstr => ?_
  unfold Strands at hstr
  split at hstr
  · exact hstr.2.2 (hK.wait hS hreads hsub hle he (lt_of_turn_resume ho) hstr.1)
  · exact hstr

theorem recovers_of_clean (hS : Clean S) (hK : Kept wraps H S) : Recovers wraps H S := by
  constructor
  · intro es s e t o hrun ht hm he hpre ho hq
    have hpre : t.received <+: S := by
      rwa [turn_received ht, received_eq_fed hrun, ← fed_singleton, ← fed_append]
    have hle := received_prefix_of_turn ht hpre
    obtain ⟨hreads, hwaits, hsub⟩ := hK.run hS hm hrun hle
    obtain ⟨hreads', hcases⟩ := turn_spec hS hreads ht hpre
    refine resumable_of_scan_wait ?_ (hS.not_stuck hreads' hpre)
    obtain hwait | ⟨hsus, -⟩ | ⟨rfl, rfl | ⟨k, exc, rfl, hexc, hk⟩⟩ := hcases
    · exact hwait
    · exact absurd hsus ho
    · change scan (s.buf ++ []) = .wait
      rw [List.append_nil]
      exact hwaits (hq rfl)
    · change scan (s.buf ++ []) = .wait
      rw [List.append_nil]
      exact hK.wait hS hreads hsub hle he hk hexc
  · intro es es' t t' hrun hrun' hm hm' hfed hfed' hdone hdone'
    have hrec : t.received = S := (received_eq_fed hrun).trans hfed
    have hrec' : t'.received = S := (received_eq_fed hrun').trans hfed'
    obtain ⟨hreads, hwaits, -⟩ := hK.run hS hm hrun (hrec ▸ List.prefix_rfl)
    obtain ⟨hreads', hwaits', -⟩ := hK.run hS hm' hrun' (hrec' ▸ List.prefix_rfl)
    rw [Reads, hrec] at hreads
    rw [Reads, hrec'] at hreads'
    exact (hreads.eq_of_idle (idle_of_scan (hwaits hdone)) hreads'
      (idle_of_scan (hwaits' hdone'))).1

theorem exists_run_of_reads (wraps : PyExc → Bool) (H : MQTTPacket → PyExc → Prop)
    {ps : List MQTTPacket} (h : framing.Reads ps S []) :
    ∃ es u, Machine.run (step wraps) {} es = some u ∧ Machine.Meets (step wraps) (Ends H) {} es ∧
      fed es = S ∧ u.handling = [] ∧ u.buf = [] := by
  obtain ⟨n, u, hu, hdone⟩ := exists_settled wraps (mqttPacketReader {} S).1
  have hrun : Machine.run (step wraps) {}
      (.chunk S :: List.replicate n (.resume 0 (.ok ()))) = some u :=
    Machine.run_cons_eq_some.mpr ⟨_, rfl, hu⟩
  have hfed : fed (.chunk S :: List.replicate n (.resume 0 (.ok ()))) = S := by
    rw [← List.singleton_append, fed_append, fed_replicate_resume, fed_singleton,
      List.append_nil]
    rfl
  have hreturns : ∀ e ∈ Event.chunk S :: List.replicate n (.resume 0 (.ok ())),
      ∀ s (H : MQTTPacket → PyExc → Prop), Ends H s e := by
    intro e he s H k exc hexc
    obtain rfl | he := List.mem_cons.mp he
    · cases hexc
    · rw [List.eq_of_mem_replicate he] at hexc
      cases hexc
  have hrec : u.received = S := (received_eq_fed hrun).trans hfed
  have hkept : Kept wraps (fun _ _ => False) S := fun _ _ _ _ _ _ h => h.elim
  obtain ⟨hreads, hwaits, -⟩ := hkept.run (clean_of_reads h)
    (Machine.meets_of_mem (fun e he s => hreturns e he s _) _) hrun (hrec ▸ List.prefix_rfl)
  rw [Reads, hrec] at hreads
  exact ⟨_, u, hrun, Machine.meets_of_mem (fun e he s => hreturns e he s _) _, hfed, hdone,
    (hreads.eq_of_idle (idle_of_scan (hwaits hdone)) h Framing.idle_nil).2⟩

theorem clean_of_recovers (hS : Recovers wraps H S) : Clean S := by
  intro ps b hb hst
  obtain ⟨g, rfl, hg⟩ := hb.exists_eq_append
  obtain ⟨b', hpre, hne, hst', hwait⟩ := hst.exists_prefix
  obtain ⟨es, u, hrun, hm, hfed, hdone, hbuf⟩ := exists_run_of_reads wraps H hg
  -- the packets in front are through, and the next chunk holds what no packet starts with
  have hturn : turn wraps u (.chunk b') =
      some ({ u with buf := b', received := u.received ++ b' }, .returned) := by
    rw [turn, mqttPacketReader, if_neg hne, hbuf, List.nil_append, loop_of_wait hwait]
  apply hst'.not_resumable
  refine hS.1 es u (.chunk b') _ _ hrun hturn hm nofun ?_ (by simp) (fun _ => hdone)
  rw [fed_append, hfed, fed_singleton]
  exact (List.prefix_append_right_inj g).mpr hpre

theorem kept_of_recovers (hS : Recovers wraps H S) : Kept wraps H S := by
  intro ps pkt next b hb exc hexc
  obtain ⟨m, hps, hpair⟩ := hb.of_append
  obtain ⟨g, rfl, hg⟩ := hps.exists_eq_append
  obtain ⟨x, m', hx, rfl, hlast⟩ := Framing.reads_cons_iff.mp hpair
  obtain ⟨y, m, hy, rfl, -⟩ := Framing.reads_cons_iff.mp hlast
  obtain ⟨es, u, hrun, hmeets, hfed, hdone, hbuf⟩ := exists_run_of_reads wraps H hg
  by_contra hw
  -- the two packets arrive in one chunk, and the handler of the first fails
  obtain ⟨v, hv, rfl, hhandling⟩ : ∃ v, turn wraps u (.chunk (x ++ y)) = some (v, .suspended) ∧
      v.buf = y ∧ v.handling = [pkt] := by
    have hne : x ++ y ≠ [] := by
      intro hnil
      exact framing.ne_nil hx (List.append_eq_nil_iff.mp hnil).1
    refine ⟨{ u with
      buf := y
      handling := [pkt]
      received := u.received ++ (x ++ y)
      dispatched := u.dispatched ++ [pkt] }, ?_, rfl, rfl⟩
    rw [turn, mqttPacketReader, if_neg hne, hbuf, List.nil_append,
      loop_of_packet (scan_append hx y), hdone, List.nil_append]
  have hfail : turn wraps v (.resume 0 (.error exc)) =
      some ({ v with handling := [] }, .raised exc) := by
    simp [turn, hhandling, hw]
  refine hy.not_resumable (hS.1 (es ++ [.chunk (x ++ v.buf)]) v (.resume 0 (.error exc))
    { v with handling := [] } _ (Machine.run_append.mpr ⟨u, hrun, ?_⟩) hfail
    (hmeets.append fun _ _ => ?_) ?_ ?_ (by simp) (fun h => by cases h))
  · exact Machine.run_cons_eq_some.mpr ⟨v, step_eq_some.mpr ⟨_, hv⟩, rfl⟩
  · exact ⟨nofun, fun _ _ => trivial⟩
  · rintro k exc' ⟨⟩ pkt' hpkt
    rw [hhandling] at hpkt
    cases hpkt
    exact hexc
  · rw [fed_append, fed_append, hfed, fed_singleton, fed_singleton]
    exact ⟨m, by simp [Event.bytes]⟩

/-- The reader recovers on a stream exactly if no reserved type and no over-long length is met
where a packet starts, and the handler of a packet that another one follows ends with no error that
is raised again. -/
theorem recovers_iff (wraps : PyExc → Bool) (H : MQTTPacket → PyExc → Prop) (S : Bytes) :
    Recovers wraps H S ↔ Clean S ∧ Kept wraps H S :=
  ⟨fun h => ⟨clean_of_recovers h, kept_of_recovers h⟩, fun h => recovers_of_clean h.1 h.2⟩

/-- A packet of the reserved type 0 raises in front of a complete `PINGRESP`, which stays in the
buffer. -/
theorem not_recovers_reserved_type :
    ¬ Recovers Concrete.asyncWrapErrors (fun _ _ => False) [0x00, 0x00, 0xD0, 0x00] := by
  rintro ⟨h, -⟩
  have hleft := h [] {} (.chunk [0x00, 0x00, 0xD0, 0x00])
    { buf := [0xD0, 0x00], received := [0x00, 0x00, 0xD0, 0x00] }
    (.raised (.valueError "0 is not a valid MQTTEnum")) rfl (by decide +kernel) trivial nofun
    (by simp [fed, Event.bytes]) (by simp) (by simp)
  have hping : Spells { type := .pingresp, flags := 0 } [0xD0, 0x00] :=
    ⟨rfl, 0, 1, rfl, rfl⟩
  exact hping.not_resumable hleft

end Reader

end Sidewire
