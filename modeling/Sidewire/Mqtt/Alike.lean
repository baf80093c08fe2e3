import Mathlib.Data.Finset.Card
import Sidewire.Mqtt.Operations

/-! # Two clients side by side

One client hears everybody, the other only a single sender. What the first
keeps for that sender is what the second keeps at all: handling a packet of the
sender gives the same answers on both, and leaves them alike.
-/

namespace Sidewire

def Queued.content (x : Queued) : MsgEnum × String × ℤ × String × Bytes :=
  (x.msgType, x.queueIdHex, x.seqNo, x.destPkHex, x.out)

def Publish.content (p : Publish) : String × Bytes := (p.topic, p.payload)

namespace MQTTClient

open Exec

variable {KP : Type} {A : Aio KP} {a q dest topic : String} {s : ℤ} {t : MsgEnum}
  {c d c' d' c₀ d₀ e : MQTTClient KP} {m : Meta} {msg : PyMsg} {out payload signed : Bytes} {now : ℚ}
  {rnd : ℕ} {pkt : AppPacket}

def ackFor (c : MQTTClient KP) (a q : String) (s : ℤ) : Option Bytes :=
  ((c.entry .msgack q s).filter fun m => m.destPkHex = a).map Meta.out

def inFlightCount (c : MQTTClient KP) : ℕ :=
  ((Finset.Icc 1 65535).filter fun pid => c.inFlight pid = true).card

/-- The first client holds for the sender what the second one holds, and has no more packet ids
left. -/
structure Alike (a : String) (c d : MQTTClient KP) : Prop where
  kp : d.kp = c.kp
  msgHandlers : d.msgHandlers = c.msgHandlers
  republishDuration : d.republishDuration = c.republishDuration
  pipe : d.pipe = c.pipe
  inFlight : d.inFlightCount ≤ c.inFlightCount
  acks : ∀ q s, d.ackFor a q s = c.ackFor a q s
  own : ∀ {q s m}, d.entry .msgack q s = some m → m.destPkHex = a

/-- Two alike clients that have queued and sent the same since they were `c₀` and `d₀`. -/
structure InStep (a : String) (c₀ d₀ c d : MQTTClient KP) : Prop where
  alike : Alike a c d
  queued : ∃ l, c.queued.map Queued.content = c₀.queued.map Queued.content ++ l ∧
    d.queued.map Queued.content = d₀.queued.map Queued.content ++ l
  sent : ∃ l, c.sent.map Publish.content = c₀.sent.map Publish.content ++ l ∧
    d.sent.map Publish.content = d₀.sent.map Publish.content ++ l

/-- Nothing under a queue id and sequence number is held for anyone but the sender. -/
def Unclaimed (a : String) (c : MQTTClient KP) (q : String) (s : ℤ) : Prop :=
  ∀ m ∈ c.entry .msgack q s, m.destPkHex = a

instance : Decidable (Unclaimed a c q s) := inferInstanceAs (Decidable (∀ m ∈ c.entry .msgack q s, _))

theorem freeId_iff (c : MQTTClient KP) : FreeId c ↔ c.inFlightCount < 65535 := by
  have hcard : (Finset.Icc 1 65535).card = 65535 := Nat.card_Icc 1 65535
  constructor
  · rintro ⟨pid, h₁, h₂, hf⟩
    refine (Finset.card_lt_card ⟨Finset.filter_subset _ _, fun hsub => ?_⟩).trans_eq hcard
    have hp := (Finset.mem_filter.mp (hsub (Finset.mem_Icc.mpr ⟨h₁, h₂⟩))).2
    rw [hf] at hp
    cases hp
  · intro h
    by_contra hn
    refine absurd h (not_lt.mpr ?_)
    rw [inFlightCount, Finset.filter_true_of_mem, hcard]
    intro pid hp
    obtain ⟨h₁, h₂⟩ := Finset.mem_Icc.mp hp
    by_contra hf
    exact hn ⟨pid, h₁, h₂, Bool.eq_false_of_not_eq_true hf⟩

theorem Alike.freeId (h : Alike a c d) (hf : FreeId c) : FreeId d := by
  rw [freeId_iff] at hf ⊢
  exact h.inFlight.trans_lt hf

theorem getPacketIdLoop_eq_ok {n pid : ℕ} (h : getPacketIdLoop n c = .ok pid d) :
    1 ≤ pid ∧ pid ≤ 65535 ∧ c.inFlight pid = false ∧ d = { c with packetId := d.packetId } := by
  induction n generalizing c with
  | zero => cases h
  | succ n ih =>
    simp only [getPacketIdLoop, bind_apply, modify_apply, get_apply] at h
    split_ifs at h with hf
    · obtain ⟨h₁, h₂, h₃, h₄⟩ := ih h
      exact ⟨h₁, h₂, h₃, h₄⟩
    · cases h
      have hp : 1 ≤ c.packetId % 65535 + 1 ∧ c.packetId % 65535 + 1 ≤ 65535 := by omega
      exact ⟨hp.1, hp.2, Bool.eq_false_of_not_eq_true hf, rfl⟩

def allocate (c : MQTTClient KP) (counter pid : ℕ) : MQTTClient KP :=
  { c with
    packetId := counter
    packetIds := Function.update c.packetIds .puback ((c.packetIds .puback).set pid c.nextObj)
    nextObj := c.nextObj + 1 }

theorem inFlight_allocate (c : MQTTClient KP) (counter pid n : ℕ) :
    (c.allocate counter pid).inFlight n = (decide (n = pid) || c.inFlight n) := by
  simp only [inFlight, allocate, Function.update_self, ne_eq, reduceCtorEq, not_false_eq_true,
    Function.update_of_ne, PyDict.contains_set]
  cases (c.packetIds .suback).contains n <;> simp

theorem publish_cases (A : Aio KP) (topic : String) (payload : Bytes) (c : MQTTClient KP) :
    (∃ e counter, publish A topic payload c = .error e { c with packetId := counter }) ∨
      ∃ counter pid, 1 ≤ pid ∧ pid ≤ 65535 ∧ c.inFlight pid = false ∧
        publish A topic payload c = .ok ⟨topic, payload, pid⟩ (c.allocate counter pid) := by
  by_cases ha : A.isAscii topic = true
  · rw [publish_of_ascii ha, packetAckFuture, getPacketId]
    simp only [bind_apply]
    cases h : getPacketIdLoop 65535 c with
    | error e d =>
      obtain ⟨counter, hd⟩ := getPacketIdLoop_frame 65535 c
      rw [h, final_error] at hd
      exact .inl ⟨e, counter, by rw [hd]⟩
    | ok pid d =>
      obtain ⟨h₁, h₂, hf, hd⟩ := getPacketIdLoop_eq_ok h
      refine .inr ⟨d.packetId, pid, h₁, h₂, hf, ?_⟩
      rw [hd]
      rfl
  · rw [publish_of_not_ascii ha]
    exact .inl ⟨_, c.packetId, rfl⟩

theorem inFlightCount_allocate {counter pid : ℕ} (h₁ : 1 ≤ pid) (h₂ : pid ≤ 65535)
    (hf : c.inFlight pid = false) :
    (c.allocate counter pid).inFlightCount = c.inFlightCount + 1 := by
  have hset : (Finset.Icc 1 65535).filter (fun n => (decide (n = pid) || c.inFlight n) = true) =
      insert pid ((Finset.Icc 1 65535).filter fun n => c.inFlight n = true) := by
    ext n
    simp only [Finset.mem_filter, Finset.mem_insert, Finset.mem_Icc, Bool.or_eq_true,
      decide_eq_true_eq]
    constructor
    · rintro ⟨hn, rfl | hn'⟩
      · exact .inl rfl
      · exact .inr ⟨hn, hn'⟩
    · rintro (rfl | ⟨hn, hn'⟩)
      · exact ⟨⟨h₁, h₂⟩, .inl rfl⟩
      · exact ⟨hn, .inr hn'⟩
  simp only [inFlightCount, inFlight_allocate]
  rw [hset, Finset.card_insert_of_notMem]
  simp [hf]

structure Online (c d : MQTTClient KP) : Prop where
  pipe : d.pipe = c.pipe
  inFlight : ∀ pid, c.inFlight pid = true → d.inFlight pid = true

theorem Online.refl (c : MQTTClient KP) : Online c c := ⟨rfl, fun _ h => h⟩

theorem Online.trans (h : Online c d) (h' : Online d e) : Online c e :=
  ⟨h'.pipe.trans h.pipe, fun pid hp => h'.inFlight pid (h.inFlight pid hp)⟩

theorem Online.inFlightCount_le (h : Online c d) : c.inFlightCount ≤ d.inFlightCount :=
  Finset.card_le_card (Finset.monotone_filter_right _ fun pid _ hp => h.inFlight pid hp)

theorem online_bind {α β : Type} {x : ClientM KP α} {f : α → ClientM KP β}
    (hx : Online c (final (x c))) (hf : ∀ a d, x c = .ok a d → Online d (final (f a d))) :
    Online c (final ((x >>= f) c)) :=
  rel_final_bind Online Online.trans hx hf

theorem online_publish (A : Aio KP) (topic : String) (payload : Bytes) (c : MQTTClient KP) :
    Online c (final (publish A topic payload c)) := by
  obtain ⟨e, counter, h⟩ | ⟨counter, pid, -, -, -, h⟩ := publish_cases A topic payload c
  · rw [h]
    exact ⟨rfl, fun _ hp => hp⟩
  · rw [h]
    exact ⟨rfl, fun n hn => by rw [final_ok, inFlight_allocate, hn, Bool.or_true]⟩

theorem online_safePipeSend (p : Publish) (c : MQTTClient KP) :
    Online c (final (safePipeSend p c)) := by
  simp only [safePipeSend, bind_apply, get_apply]
  split_ifs
  · exact ⟨rfl, fun _ h => h⟩
  · exact .refl c

theorem online_ensureQueue (c : MQTTClient KP) (t : MsgEnum) (q : String) :
    Online c (c.ensureQueue t q) := by
  unfold MQTTClient.ensureQueue
  split_ifs
  · exact .refl c
  · exact ⟨rfl, fun _ h => h⟩

theorem online_stampSent (c : MQTTClient KP) (id : String) (now : ℚ) :
    Online c (c.stampSent id now) := by
  unfold stampSent
  split_ifs
  · exact .refl c
  · exact ⟨rfl, fun _ h => h⟩

theorem online_dropOldAcks (c : MQTTClient KP) (q : String) (s : ℤ) :
    Online c (c.dropOldAcks q s) := by
  unfold dropOldAcks
  split
  · exact .refl c
  · exact ⟨rfl, fun _ h => h⟩

theorem online_ofExcept {α : Type} (x : Except PyExc α) (c : MQTTClient KP) :
    Online c (final (ofExcept x c)) := by
  rw [ofExcept_apply]
  cases x <;> exact .refl c

theorem online_registerOneShot (c : MQTTClient KP) (now : ℚ) (msg : PyMsg) (dest q : String)
    (t : MsgEnum) (s : ℤ) (out : Bytes) :
    Online c (final (registerOneShot now msg dest q t s out c)) := by
  simp only [registerOneShot, bind_apply, get_apply]
  cases c.queue t q with
  | none => exact .refl c
  | some d => exact ⟨rfl, fun _ h => h⟩

theorem online_processAppMsgBegin (A : Aio KP) (pkt : AppPacket) (c : MQTTClient KP) :
    Online c (final (processAppMsgBegin A pkt c)) := by
  refine online_bind (online_dropOldAcks c _ _) fun _ c₁ h₁ => ?_
  refine online_bind (.refl c₁) fun _ c₂ h₂ => ?_
  cases h₂
  cases c₁.entry .msgack pkt.queueIdHex pkt.seqNo with
  | none => exact .refl c₁
  | some m =>
    refine online_bind (online_publish A _ _ c₁) fun out c₃ _ => ?_
    refine online_bind (.refl c₃) fun _ c₄ h₄ => ?_
    cases h₄
    split_ifs
    · exact .refl c₃
    · exact ⟨rfl, fun _ h => h⟩

theorem online_sendProbeAck (A : Aio KP) (rnd : ℕ) (now : ℚ) (dest q : String) (s : ℤ)
    (res : Except PyExc Unit) (c : MQTTClient KP) :
    Online c (final (sendProbeAck A rnd now dest q s res c)) := by
  refine online_bind ⟨rfl, fun _ h => h⟩ fun _ c₁ _ => ?_
  refine online_bind (online_ensureQueue c₁ .msgack q) fun _ c₂ _ => ?_
  refine online_bind (.refl c₂) fun c₃ c₄ h₃ => ?_
  cases h₃
  split_ifs
  · exact .refl _
  refine online_bind (online_ofExcept _ _) fun out c₃ _ => ?_
  refine online_bind (online_registerOneShot c₃ _ _ _ _ _ _ _) fun _ c₄ _ => ?_
  refine online_bind (online_publish A _ _ c₄) fun p c₅ _ => ?_
  rw [final_pipeSend]
  exact online_safePipeSend p c₅

theorem online_processAppProbe (A : Aio KP) (rnd : ℕ) (now : ℚ) (pkt : AppPacket)
    (res : Except PyExc Unit) (c : MQTTClient KP) :
    Online c (final (processAppProbe A rnd now pkt res c)) := by
  refine online_bind (.refl c) fun _ c₁ h₁ => ?_
  cases h₁
  split_ifs
  · exact .refl c
  refine online_bind ?_ fun _ c₂ _ => .refl c₂
  rw [final_catchLogged]
  exact online_sendProbeAck A rnd now _ _ _ res c

theorem online_deleteEntry (c : MQTTClient KP) (t : MsgEnum) (q : String) (s : ℤ) :
    Online c (c.deleteEntry t q s) := by
  unfold deleteEntry
  split
  · exact .refl c
  · simp only
    split_ifs <;> exact ⟨rfl, fun _ h => h⟩

theorem online_ackIn {pkt : AppPacket} (h : c.ackIn pkt t = some d) : Online c d := by
  unfold ackIn at h
  split at h
  · cases h
  · rename_i m hm
    have hmark : Online c { c.setResult m with acked := m.appAck :: c.acked } :=
      ⟨rfl, fun _ h => h⟩
    split_ifs at h <;> cases h
    · exact .refl _
    · exact hmark.trans (online_deleteEntry _ _ _ _)
    · exact hmark

theorem online_processAppAck (c : MQTTClient KP) (pkt : AppPacket) :
    Online c (c.processAppAck pkt) := by
  unfold processAppAck
  cases hm : c.ackIn pkt .msg with
  | some d => exact online_ackIn hm
  | none =>
    cases hp : c.ackIn pkt .probe with
    | some d => exact online_ackIn hp
    | none => exact .refl c

theorem online_orderedAckSendBegin (A : Aio KP) (now : ℚ) (msg : PyMsg) (dest q : String)
    (t : MsgEnum) (seqNo : Option ℤ) (c : MQTTClient KP) :
    Online c (final (orderedAckSendBegin A now msg dest q t seqNo c)) := by
  unfold orderedAckSendBegin
  cases checkLengths dest q with
  | error e => exact .refl c
  | ok u =>
    by_cases ht : t = .msg
    · simp only [ht, if_true, bind_apply, pure_apply, modify_apply, get_apply, final_ok]
      exact (online_stampSent c _ _).trans (online_ensureQueue _ .msg q)
    · simp only [ht, if_false, bind_apply, pure_apply, modify_apply, get_apply, final_ok]
      exact online_ensureQueue c t q

theorem online_queueMsgAsyncBegin (A : Aio KP) (now : ℚ) (msg : PyMsg) (dest q : String)
    (t : MsgEnum) (seqNo : Option ℤ) (c : MQTTClient KP) :
    Online c (final (queueMsgAsyncBegin A now msg dest q t seqNo c)) := by
  refine online_bind ⟨rfl, fun _ h => h⟩ fun _ c₁ _ => ?_
  refine online_bind (online_orderedAckSendBegin A _ _ _ _ _ _ c₁) fun _ c₂ _ => ?_
  exact online_bind (online_ofExcept _ c₂) fun _ c₃ _ => .refl c₃

theorem online_queueMsgAsyncEnd (A : Aio KP) (rnd : ℕ) (now : ℚ) (msg : PyMsg) (dest q : String)
    (t : MsgEnum) (s : ℤ) (signed : Bytes) (c : MQTTClient KP) :
    Online c (final (queueMsgAsyncEnd A rnd now msg dest q t s signed c)) := by
  simp only [queueMsgAsyncEnd, bind_apply, get_apply]
  obtain ⟨-, h⟩ | ⟨m, -, h⟩ | ⟨d, -, -, h⟩ := orderedAckSendEnd_spec now msg dest q t s
    (AppPacket.assemble A c.kp rnd signed) c
  · rw [h]; exact .refl c
  · rw [h]; exact .refl c
  · rw [h]; exact ⟨rfl, fun _ h => h⟩

structure Steady (c c' : MQTTClient KP) : Prop where
  kp : c'.kp = c.kp
  msgHandlers : c'.msgHandlers = c.msgHandlers
  republishDuration : c'.republishDuration = c.republishDuration
  pipe : c'.pipe = c.pipe
  packetIds : c'.packetIds = c.packetIds
  queued : c'.queued = c.queued
  sent : c'.sent = c.sent

theorem steady_dropOldAcks (c : MQTTClient KP) (q : String) (s : ℤ) :
    Steady c (c.dropOldAcks q s) := by
  unfold dropOldAcks
  split <;> exact ⟨rfl, rfl, rfl, rfl, rfl, rfl, rfl⟩

theorem steady_ensureQueue (c : MQTTClient KP) (t : MsgEnum) (q : String) :
    Steady c (c.ensureQueue t q) := by
  unfold MQTTClient.ensureQueue
  split_ifs <;> exact ⟨rfl, rfl, rfl, rfl, rfl, rfl, rfl⟩

theorem processAppAck_steady (c : MQTTClient KP) (pkt : AppPacket) :
    (∀ q s, (c.processAppAck pkt).entry .msgack q s = c.entry .msgack q s) ∧
      Steady c (c.processAppAck pkt) := by
  have hdelete : ∀ (c : MQTTClient KP) (t : MsgEnum), t ≠ .msgack →
      (∀ q s, (c.deleteEntry t pkt.queueIdHex pkt.seqNo).entry .msgack q s =
        c.entry .msgack q s) ∧ Steady c (c.deleteEntry t pkt.queueIdHex pkt.seqNo) := by
    intro c t ht
    unfold deleteEntry
    split
    · exact ⟨fun _ _ => rfl, rfl, rfl, rfl, rfl, rfl, rfl, rfl⟩
    · simp only
      split_ifs
      · refine ⟨fun q s => ?_, rfl, rfl, rfl, rfl, rfl, rfl, rfl⟩
        rw [entry_unlinkQueue, if_neg fun h => ht h.1.symm]
      · refine ⟨fun q s => ?_, rfl, rfl, rfl, rfl, rfl, rfl, rfl⟩
        rw [entry_putQueue, if_neg fun h => ht h.1.symm]
  have hin : ∀ {t c'}, t ≠ .msgack → c.ackIn pkt t = some c' →
      (∀ q s, c'.entry .msgack q s = c.entry .msgack q s) ∧ Steady c c' := by
    intro t c' ht h
    unfold ackIn at h
    split at h
    · cases h
    · rename_i m hm
      split_ifs at h <;> cases h
      · exact ⟨fun _ _ => rfl, rfl, rfl, rfl, rfl, rfl, rfl, rfl⟩
      · obtain ⟨he, h₁, h₂, h₃, h₄, h₅, h₆, h₇⟩ :=
          hdelete { c.setResult m with acked := m.appAck :: c.acked } t ht
        exact ⟨he, h₁, h₂, h₃, h₄, h₅, h₆, h₇⟩
      · exact ⟨fun _ _ => rfl, rfl, rfl, rfl, rfl, rfl, rfl, rfl⟩
  unfold processAppAck
  cases hm : c.ackIn pkt .msg with
  | some d => exact hin (by decide) hm
  | none =>
    cases hp : c.ackIn pkt .probe with
    | some d => exact hin (by decide) hp
    | none => exact ⟨fun _ _ => rfl, rfl, rfl, rfl, rfl, rfl, rfl, rfl⟩

theorem ackFor_congr (h : c'.entry .msgack q s = c.entry .msgack q s) :
    c'.ackFor a q s = c.ackFor a q s := by
  rw [ackFor, ackFor, h]

theorem Alike.entry_cases (h : Alike a c d) (hu : Unclaimed a c q s) :
    (c.entry .msgack q s = none ∧ d.entry .msgack q s = none) ∨
      ∃ m n, c.entry .msgack q s = some m ∧ d.entry .msgack q s = some n ∧ m.destPkHex = a ∧
        n.destPkHex = a ∧ n.out = m.out := by
  have hacks := h.acks q s
  unfold ackFor at hacks
  cases hm : c.entry .msgack q s with
  | none =>
    left
    refine ⟨rfl, ?_⟩
    cases hn : d.entry .msgack q s with
    | none => rfl
    | some n =>
      rw [hm, hn] at hacks
      simp [Option.filter, h.own hn] at hacks
  | some m =>
    right
    have hma := hu m hm
    cases hn : d.entry .msgack q s with
    | none =>
      rw [hm, hn] at hacks
      simp [Option.filter, hma] at hacks
    | some n =>
      have hna := h.own hn
      rw [hm, hn] at hacks
      simp only [Option.filter, hma, hna, decide_true, if_true, Option.map_some,
        Option.some.injEq] at hacks
      exact ⟨m, n, rfl, rfl, hma, hna, hacks⟩

theorem Alike.of_steady (h : Alike a c d) (hc : Steady c c') (hd : Steady d d')
    (hacks : ∀ q s, d'.ackFor a q s = c'.ackFor a q s)
    (hown : ∀ {q s m}, d'.entry .msgack q s = some m → m.destPkHex = a) : Alike a c' d' where
  kp := by rw [hd.kp, hc.kp, h.kp]
  msgHandlers := by rw [hd.msgHandlers, hc.msgHandlers, h.msgHandlers]
  republishDuration := by rw [hd.republishDuration, hc.republishDuration, h.republishDuration]
  pipe := by rw [hd.pipe, hc.pipe, h.pipe]
  inFlight := by
    have hle := h.inFlight
    unfold inFlightCount MQTTClient.inFlight at hle ⊢
    rwa [hd.packetIds, hc.packetIds]
  acks := hacks
  own := hown

theorem InStep.of_steady (h : InStep a c₀ d₀ c d) (hc : Steady c c') (hd : Steady d d')
    (hacks : ∀ q s, d'.ackFor a q s = c'.ackFor a q s)
    (hown : ∀ {q s m}, d'.entry .msgack q s = some m → m.destPkHex = a) :
    InStep a c₀ d₀ c' d' where
  alike := h.alike.of_steady hc hd hacks hown
  queued := by rw [hc.queued, hd.queued]; exact h.queued
  sent := by rw [hc.sent, hd.sent]; exact h.sent

theorem InStep.of_entries (h : InStep a c₀ d₀ c d) (hc : Steady c c') (hd : Steady d d')
    (hce : ∀ q s, c'.entry .msgack q s = c.entry .msgack q s)
    (hde : ∀ q s, d'.entry .msgack q s = d.entry .msgack q s) : InStep a c₀ d₀ c' d' :=
  h.of_steady hc hd
    (fun q s => by rw [ackFor_congr (hde q s), ackFor_congr (hce q s), h.alike.acks])
    fun hm => h.alike.own ((hde _ _).symm.trans hm)

theorem Alike.inStep (h : Alike a c d) : InStep a c d c d :=
  ⟨h, ⟨[], by simp, by simp⟩, ⟨[], by simp, by simp⟩⟩

namespace InStep

variable (h : InStep a c₀ d₀ c d)

include h

theorem lastSend (l : Option ℚ) :
    InStep a c₀ d₀ { c with lastSend := l } { d with lastSend := l } :=
  h.of_entries ⟨rfl, rfl, rfl, rfl, rfl, rfl, rfl⟩ ⟨rfl, rfl, rfl, rfl, rfl, rfl, rfl⟩
    (fun _ _ => rfl) fun _ _ => rfl

theorem ensureQueue (t : MsgEnum) (q : String) :
    InStep a c₀ d₀ (c.ensureQueue t q) (d.ensureQueue t q) :=
  h.of_entries (steady_ensureQueue c t q) (steady_ensureQueue d t q)
    (fun _ _ => entry_ensureQueue ..) fun _ _ => entry_ensureQueue ..

theorem dropOldAcks (q : String) (s : ℤ) :
    InStep a c₀ d₀ (c.dropOldAcks q s) (d.dropOldAcks q s) := by
  refine h.of_steady (steady_dropOldAcks c q s) (steady_dropOldAcks d q s) (fun q' s' => ?_)
    fun {q' s' m} hm => ?_
  · rw [ackFor, ackFor, entry_dropOldAcks, entry_dropOldAcks]
    split_ifs
    · rfl
    · exact h.alike.acks q' s'
  · rw [entry_dropOldAcks] at hm
    split_ifs at hm
    exact h.alike.own hm

theorem send {p p' : Publish} (hp : p.content = p'.content) :
    InStep a c₀ d₀ { c with sent := c.sent ++ [p] } { d with sent := d.sent ++ [p'] } where
  alike := { h.alike with }
  queued := h.queued
  sent := by
    obtain ⟨l, hc, hd⟩ := h.sent
    refine ⟨l ++ [p.content], ?_, ?_⟩
    · rw [List.map_append, hc, List.append_assoc]
      rfl
    · rw [List.map_append, hd, List.append_assoc, hp]
      rfl

theorem publish (hf : FreeId c) (topic : String) (payload : Bytes) :
    Paired (fun p p' => p.content = p'.content) (InStep a c₀ d₀)
      (MQTTClient.publish A topic payload c) (MQTTClient.publish A topic payload d) := by
  by_cases ha : A.isAscii topic = true
  · obtain ⟨p, c', hc⟩ := (publish_ok_iff topic payload c).mpr ⟨ha, hf⟩
    obtain ⟨p', d', hd⟩ := (publish_ok_iff topic payload d).mpr ⟨ha, h.alike.freeId hf⟩
    obtain ⟨e, n, he⟩ | ⟨n, pid, h₁, h₂, hfree, he⟩ := publish_cases A topic payload c
    · rw [hc] at he; cases he
    obtain ⟨e, n', he'⟩ | ⟨n', pid', h₁', h₂', hfree', he'⟩ := publish_cases A topic payload d
    · rw [hd] at he'; cases he'
    rw [he, he']
    refine ⟨rfl, { h.alike with inFlight := ?_ }, h.queued, h.sent⟩
    rw [inFlightCount_allocate h₁ h₂ hfree, inFlightCount_allocate h₁' h₂' hfree']
    exact Nat.succ_le_succ h.alike.inFlight
  · rw [publish_of_not_ascii ha, publish_of_not_ascii ha]
    exact ⟨rfl, h⟩

theorem pipeSend (res : Except PyExc Unit) {p p' : Publish} (hp : p.content = p'.content) :
    Paired (fun _ _ => True) (InStep a c₀ d₀) (MQTTClient.pipeSend res p c)
      (MQTTClient.pipeSend res p' d) := by
  simp only [MQTTClient.pipeSend, bind_apply, get_apply]
  have hpipe : d.pipeAlive = c.pipeAlive := by
    unfold MQTTClient.pipeAlive
    rw [h.alike.pipe]
  rw [hpipe]
  split_ifs
  · cases res with
    | error e => exact ⟨rfl, h.send hp⟩
    | ok u => exact ⟨trivial, h.send hp⟩
  · exact ⟨trivial, h⟩

theorem register {dc dd : Queue} {m n : Meta} (hc : c.queue .msgack q = some dc)
    (hd : d.queue .msgack q = some dd) (hm : m.destPkHex = a) (hn : n.destPkHex = a)
    (hs : n.seqNo = m.seqNo) (ho : n.out = m.out) (msg : PyMsg) :
    InStep a c₀ d₀ (c.register .msgack q dc m msg) (d.register .msgack q dd n msg) where
  alike :=
    { h.alike with
      acks := by
        intro q' s'
        rw [ackFor, ackFor, entry_register c .msgack q dc m msg hc,
          entry_register d .msgack q dd n msg hd, hs]
        split_ifs
        · simp [Option.filter, hm, hn, ho]
        · exact h.alike.acks q' s'
      own := by
        intro q' s' m' hm'
        rw [entry_register d .msgack q dd n msg hd] at hm'
        split_ifs at hm'
        · cases hm'
          exact hn
        · exact h.alike.own hm' }
  queued := by
    obtain ⟨l, hlc, hld⟩ := h.queued
    refine ⟨l ++ [(Queued.of .msgack q m.seqNo m msg).content], ?_, ?_⟩
    · change (c.queued ++ [_]).map Queued.content = _
      rw [List.map_append, hlc, List.append_assoc]
      rfl
    · change (d.queued ++ [_]).map Queued.content = _
      rw [List.map_append, hld, List.append_assoc, hs]
      simp [Queued.content, Queued.of, hm, hn, ho]
  sent := h.sent

end InStep

theorem Steady.freeId (h : Steady c c') (hf : FreeId c) : FreeId c' := by
  unfold FreeId MQTTClient.inFlight at hf ⊢
  rwa [h.packetIds]

theorem paired_catchLogged {α : Type} {V : α → α → Prop} {R : MQTTClient KP → MQTTClient KP → Prop}
    {x y : ClientM KP α} (caught : PyExc → Bool) (h : Paired V R (x c) (y d)) :
    Paired (Option.Rel V) R (catchLogged caught x c) (catchLogged caught y d) := by
  unfold catchLogged
  obtain ⟨v, w, c₁, d₁, hx, hy, hv, hR⟩ | ⟨e, c₁, d₁, hx, hy, hR⟩ := h.cases
  · rw [hx, hy]
    exact ⟨.some hv, hR⟩
  · rw [hx, hy]
    simp only
    split_ifs
    · exact ⟨.none, hR⟩
    · exact ⟨rfl, hR⟩

theorem InStep.registerOneShot (h : InStep a c₀ d₀ c d)
    (hc : (c.queue .msgack q).isSome) (hd : (d.queue .msgack q).isSome) (now : ℚ) (msg : PyMsg)
    (s : ℤ) (out : Bytes) :
    Paired (fun _ _ => True) (fun c' d' => InStep a c₀ d₀ c' d' ∧ c'.packetIds = c.packetIds)
      (MQTTClient.registerOneShot now msg a q .msgack s out c)
      (MQTTClient.registerOneShot now msg a q .msgack s out d) := by
  obtain ⟨dc, hdc⟩ := Option.isSome_iff_exists.mp hc
  obtain ⟨dd, hdd⟩ := Option.isSome_iff_exists.mp hd
  simp only [MQTTClient.registerOneShot, bind_apply, get_apply, hdc, hdd]
  have h₁ := h.register (m := c.newMeta now a s out true) (n := d.newMeta now a s out true) hdc hdd
    rfl rfl rfl rfl msg
  exact ⟨trivial, h₁, rfl⟩

section Packets

variable (h : Alike a c d)

include h

theorem Alike.processAppMsgBegin (hu : Unclaimed a c pkt.queueIdHex pkt.seqNo)
    (hf : (c.entry .msgack pkt.queueIdHex pkt.seqNo).isSome → FreeId c) :
    Paired (· = ·) (InStep a c d) (MQTTClient.processAppMsgBegin A pkt c)
      (MQTTClient.processAppMsgBegin A pkt d) := by
  have h₁ := h.inStep.dropOldAcks pkt.queueIdHex pkt.seqNo
  have he : (c.dropOldAcks pkt.queueIdHex pkt.seqNo).entry .msgack pkt.queueIdHex pkt.seqNo =
      c.entry .msgack pkt.queueIdHex pkt.seqNo := by
    rw [entry_dropOldAcks, if_neg fun hlt => lt_irrefl _ hlt.2.2]
  simp only [MQTTClient.processAppMsgBegin, bind_apply, modify_apply, get_apply]
  obtain ⟨hc, hd⟩ | ⟨m, n, hc, hd, hm, hn, ho⟩ :=
    h₁.alike.entry_cases (q := pkt.queueIdHex) (s := pkt.seqNo) (by rwa [Unclaimed, he])
  · rw [hc, hd]
    exact ⟨rfl, h₁⟩
  · rw [hc, hd]
    simp only [hm, hn, ho]
    have hfree : FreeId (c.dropOldAcks pkt.queueIdHex pkt.seqNo) :=
      (steady_dropOldAcks c _ _).freeId (hf (by rw [← he, hc]; rfl))
    refine Paired.bind (fun _ _ h => h) (h₁.publish hfree a m.out) fun p p' c₂ d₂ hp h₂ => ?_
    simp only [bind_apply, get_apply, h₂.alike.pipe]
    split_ifs
    · exact ⟨rfl, h₂⟩
    · exact ⟨rfl, h₂.send hp⟩

theorem Alike.queueMsgAsyncBegin (now : ℚ) (msg : PyMsg) (dest q : String) (s : ℤ) :
    Paired (· = ·) (InStep a c d)
      (MQTTClient.queueMsgAsyncBegin A now msg dest q .msgack (some s) c)
      (MQTTClient.queueMsgAsyncBegin A now msg dest q .msgack (some s) d) := by
  have h₁ := h.inStep.lastSend (some now)
  simp only [MQTTClient.queueMsgAsyncBegin, orderedAckSendBegin, bind_apply, modify_apply]
  cases checkLengths dest q with
  | error e => exact ⟨rfl, h₁⟩
  | ok u =>
    have h₂ := h₁.ensureQueue .msgack q
    simp only [reduceCtorEq, if_false, bind_apply, pure_apply, modify_apply, get_apply,
      Option.getD_some, ofExcept_apply]
    cases AppPacket.packAsyncBegin A now ⟨q, s, .msgack, msg⟩ with
    | error e => exact ⟨rfl, h₂⟩
    | ok signed => exact ⟨rfl, h₂⟩

theorem Alike.queueMsgAsyncEnd (hu : Unclaimed a c q s) (hc : (c.queue .msgack q).isSome)
    (hd : (d.queue .msgack q).isSome) (rnd : ℕ) (now : ℚ) (msg : PyMsg) (signed : Bytes) :
    Paired (fun _ _ => True) (InStep a c d)
      (MQTTClient.queueMsgAsyncEnd A rnd now msg a q .msgack s signed c)
      (MQTTClient.queueMsgAsyncEnd A rnd now msg a q .msgack s signed d) := by
  simp only [MQTTClient.queueMsgAsyncEnd, orderedAckSendEnd, bind_apply, get_apply, h.kp]
  obtain ⟨dc, hdc⟩ := Option.isSome_iff_exists.mp hc
  obtain ⟨dd, hdd⟩ := Option.isSome_iff_exists.mp hd
  have hcases := h.entry_cases hu
  rw [entry_of_queue hdc, entry_of_queue hdd] at hcases
  simp only [hdc, hdd]
  obtain ⟨hec, hed⟩ | ⟨m, n, hec, hed, -⟩ := hcases
  · simp only [hec, hed]
    have h₁ := h.inStep.register (m := c.newMeta now a s (AppPacket.assemble A c.kp rnd signed) false)
      (n := d.newMeta now a s (AppPacket.assemble A c.kp rnd signed) false) hdc hdd rfl rfl rfl rfl msg
    exact ⟨trivial, h₁⟩
  · simp only [hec, hed]
    exact ⟨trivial, h.inStep⟩

theorem Alike.processAppProbe (hu : Unclaimed a c pkt.queueIdHex pkt.seqNo)
    (hf : c.entry .msgack pkt.queueIdHex pkt.seqNo = none → FreeId c) (hs : pkt.srcPkHex = a)
    (rnd : ℕ) (now : ℚ) (res : Except PyExc Unit) :
    Paired (fun _ _ => True) (InStep a c d) (MQTTClient.processAppProbe A rnd now pkt res c)
      (MQTTClient.processAppProbe A rnd now pkt res d) := by
  have hq : ∀ c : MQTTClient KP, ((c.ensureQueue .msgack pkt.queueIdHex).queue .msgack
      pkt.queueIdHex).isSome := fun c => by
    rw [queue_ensureQueue, if_pos ⟨rfl, rfl⟩]
    rfl
  simp only [MQTTClient.processAppProbe, bind_apply, get_apply]
  obtain ⟨hc, hd⟩ | ⟨m, n, hc, hd, -⟩ := h.entry_cases hu
  · have hgc : c.getMsgFromQueue pkt.queueIdHex pkt.seqNo .msgack = none := hc
    have hgd : d.getMsgFromQueue pkt.queueIdHex pkt.seqNo .msgack = none := hd
    simp only [hgc, hgd, Option.isSome_none, Bool.false_eq_true, if_false]
    refine Paired.bind (fun _ _ h => h) (paired_catchLogged (V := fun _ _ => True) loggedProbe ?_)
      fun _ _ c' d' _ h' => ⟨trivial, h'⟩
    have h₂ := (h.inStep.lastSend (some now)).ensureQueue .msgack pkt.queueIdHex
    simp only [sendProbeAck, bind_apply, modify_apply, get_apply, entry_ensureQueue]
    have hc' : MQTTClient.entry { c with lastSend := some now } .msgack pkt.queueIdHex pkt.seqNo =
      none := hc
    have hd' : MQTTClient.entry { d with lastSend := some now } .msgack pkt.queueIdHex pkt.seqNo =
      none := hd
    simp only [hc', hd', Option.isSome_none, Bool.false_eq_true, if_false, bind_apply,
      ofExcept_apply, h₂.alike.kp]
    cases AppPacket.pack A (MQTTClient.ensureQueue { c with lastSend := some now } .msgack
        pkt.queueIdHex).kp rnd now ⟨pkt.queueIdHex, pkt.seqNo, .msgack, .str "ack"⟩ with
    | error e => exact ⟨rfl, h₂⟩
    | ok out =>
      rw [hs]
      have hfree : FreeId (MQTTClient.ensureQueue { c with lastSend := some now } .msgack
          pkt.queueIdHex) := (steady_ensureQueue _ _ _).freeId (hf hc)
      refine Paired.bind (fun _ _ h => h.1) (h₂.registerOneShot (hq _) (hq _) now (.str "ack")
        pkt.seqNo out) fun _ _ c₃ d₃ _ h₃ => ?_
      have hfree₃ : FreeId c₃ := by
        unfold FreeId MQTTClient.inFlight at hfree ⊢
        rwa [h₃.2]
      exact Paired.bind (fun _ _ h => h) (h₃.1.publish hfree₃ a out)
        fun p p' c₄ d₄ hp h₄ => h₄.pipeSend res hp
  · have hgc : c.getMsgFromQueue pkt.queueIdHex pkt.seqNo .msgack = some m := hc
    have hgd : d.getMsgFromQueue pkt.queueIdHex pkt.seqNo .msgack = some n := hd
    simp only [hgc, hgd, Option.isSome_some, if_true]
    exact ⟨trivial, h.inStep⟩

end Packets

end MQTTClient

end Sidewire
