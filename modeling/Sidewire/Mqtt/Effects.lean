import Sidewire.Lib.Exec
import Sidewire.Mqtt.AppProto

/-! # What code may do to a client

Whatever runs on a client, its effect on the message tables is a sequence of a
few kinds of writes. Each operation is described once, by the writes it may
make; what a table holds afterwards follows from the writes alone.
-/

namespace Sidewire

def Meta.core (m : Meta) : Meta := { m with updated := 0, attempts := 0 }

namespace Meta

variable {m m' : Meta}

theorem appAck_eq_of_core (h : m'.core = m.core) : m'.appAck = m.appAck :=
  (congrArg Meta.appAck h :)

theorem destPkHex_eq_of_core (h : m'.core = m.core) : m'.destPkHex = m.destPkHex :=
  (congrArg Meta.destPkHex h :)

theorem probeOneShot_eq_of_core (h : m'.core = m.core) : m'.probeOneShot = m.probeOneShot :=
  (congrArg Meta.probeOneShot h :)

theorem out_eq_of_core (h : m'.core = m.core) : m'.out = m.out :=
  (congrArg Meta.out h :)

end Meta

def Queued.of (t : MsgEnum) (q : String) (s : ℤ) (m : Meta) (msg : PyMsg) : Queued :=
  ⟨t, q, s, m.destPkHex, msg, m.out, m.appAck⟩

theorem Queued.of_core {t : MsgEnum} {q : String} {s : ℤ} {m m' : Meta} {msg : PyMsg}
    (h : m'.core = m.core) : Queued.of t q s m' msg = Queued.of t q s m msg := by
  rw [Queued.of, Queued.of, Meta.appAck_eq_of_core h, Meta.destPkHex_eq_of_core h,
    Meta.out_eq_of_core h]

inductive Write
  | register (x : Queued)
  | forget (t : MsgEnum) (q : String) (s : ℤ)
  | unlink (t : MsgEnum) (q : String)
  | resolve (m : Meta)
  | ack (t : MsgEnum) (q : String) (s : ℤ) (m : Meta)
  | addHandler (h : ℕ)

/-- The bytes of a queued message are its own fields, signed by the client's key. -/
def Packed {KP : Type} (A : Aio KP) (kp : KP) (x : Queued) : Prop :=
  ∃ now signed rnd, AppPacket.Signed A now ⟨x.queueIdHex, x.seqNo, x.msgType, x.msg⟩
    (A.toB x.msg) signed ∧ x.out = AppPacket.assemble A kp rnd signed

namespace MQTTClient

variable {KP : Type} {A : Aio KP} {P Q : Write → Prop} {c d e : MQTTClient KP}

/-- Two clients that differ at most in their connection and in bookkeeping no message depends
on. -/
structure SameBook (c c' : MQTTClient KP) : Prop where
  kp : c'.kp = c.kp
  msgHandlers : c'.msgHandlers = c.msgHandlers
  msgQueues : c'.msgQueues = c.msgQueues
  republishDuration : c'.republishDuration = c.republishDuration
  resolved : c'.resolved = c.resolved
  unlinked : c'.unlinked = c.unlinked
  nextObj_le : c.nextObj ≤ c'.nextObj
  queued : c'.queued = c.queued
  acked : c'.acked = c.acked
  sent : c'.sent = c.sent

structure Shrinks (P : Write → Prop) (t : MsgEnum) (q : String) (d d' : Queue) : Prop where
  ident : d'.ident = d.ident
  kept : ∀ s m, d'.metas.get? s = some m → d.metas.get? s = some m
  lost : ∀ s m, d.metas.get? s = some m → d'.metas.get? s = none → P (.forget t q s)

inductive Writes (A : Aio KP) (P : Write → Prop) : MQTTClient KP → MQTTClient KP → Prop
  | quiet {c c' : MQTTClient KP} (h : SameBook c c') : Writes A P c c'
  | trans {c d e : MQTTClient KP} (h : Writes A P c d) (h' : Writes A P d e) : Writes A P c e
  | ensureQueue (c : MQTTClient KP) (t : MsgEnum) (q : String) : Writes A P c (c.ensureQueue t q)
  | register {c : MQTTClient KP} {t : MsgEnum} {q : String} {d : Queue} {m : Meta} {msg : PyMsg}
      (hd : c.queue t q = some d) (hm : m.appAck = c.nextObj)
      (ho : t = .msg → m.probeOneShot = false) (hp : Packed A c.kp (Queued.of t q m.seqNo m msg))
      (h : P (.register (Queued.of t q m.seqNo m msg))) : Writes A P c (c.register t q d m msg)
  | shrink {c : MQTTClient KP} {t : MsgEnum} {q : String} {d d' : Queue}
      (hd : c.queue t q = some d) (h : Shrinks P t q d d') : Writes A P c (c.putQueue t q d')
  | unlink {c : MQTTClient KP} {t : MsgEnum} {q : String} {d d' : Queue}
      (hd : c.queue t q = some d) (h : Shrinks P t q d d') (hp : P (.unlink t q)) :
      Writes A P c (c.unlinkQueue t q d')
  | resolve {c : MQTTClient KP} {t : MsgEnum} {q : String} {s : ℤ} {m : Meta}
      (hm : c.entry t q s = some m) (h : P (.resolve m)) : Writes A P c (c.setResult m)
  | ack {c : MQTTClient KP} {t : MsgEnum} {q : String} {s : ℤ} {m : Meta}
      (hm : c.entry t q s = some m) (h : P (.ack t q s m)) :
      Writes A P c { c.setResult m with acked := m.appAck :: c.acked }
  | bump {c : MQTTClient KP} {t : MsgEnum} {q : String} {n : ℕ} {s : ℤ} {m m' : Meta}
      (hm : (c.queueObject t q n).get? s = some m) (h : m'.core = m.core) :
      Writes A P c (c.putMeta t q n s m')
  | send {c : MQTTClient KP} {t : MsgEnum} {q : String} {n : ℕ} {s : ℤ} {m : Meta} {p : Publish}
      (hm : (c.queueObject t q n).get? s = some m) (ht : p.topic = m.destPkHex)
      (hp : p.payload = m.out) : Writes A P c { c with sent := c.sent ++ [p] }
  | addHandler {c : MQTTClient KP} {h : ℕ} (hp : P (.addHandler h)) :
      Writes A P c { c with msgHandlers := c.msgHandlers.add h }

namespace SameBook

@[refl] theorem refl (c : MQTTClient KP) : SameBook c c :=
  ⟨rfl, rfl, rfl, rfl, rfl, rfl, le_rfl, rfl, rfl, rfl⟩

theorem trans (h : SameBook c d) (h' : SameBook d e) : SameBook c e :=
  ⟨h'.kp.trans h.kp, h'.msgHandlers.trans h.msgHandlers, h'.msgQueues.trans h.msgQueues,
    h'.republishDuration.trans h.republishDuration, h'.resolved.trans h.resolved,
    h'.unlinked.trans h.unlinked, h.nextObj_le.trans h'.nextObj_le, h'.queued.trans h.queued,
    h'.acked.trans h.acked, h'.sent.trans h.sent⟩

theorem queue (h : SameBook c d) (t : MsgEnum) (q : String) : d.queue t q = c.queue t q := by
  simp only [MQTTClient.queue, h.msgQueues]

theorem entry (h : SameBook c d) (t : MsgEnum) (q : String) (s : ℤ) :
    d.entry t q s = c.entry t q s := by
  simp only [MQTTClient.entry, h.queue]

theorem queueObject (h : SameBook c d) (t : MsgEnum) (q : String) (n : ℕ) :
    d.queueObject t q n = c.queueObject t q n := by
  simp only [MQTTClient.queueObject, h.queue, h.unlinked]

end SameBook

theorem Writes.refl (c : MQTTClient KP) : Writes A P c c := .quiet (.refl c)

section Lookup

variable {t t' : MsgEnum} {q q' : String} {s : ℤ}

theorem queue_putQueue (c : MQTTClient KP) (t : MsgEnum) (q : String) (d : Queue) (t' q') :
    (c.putQueue t q d).queue t' q' = if t' = t ∧ q' = q then some d else c.queue t' q' := by
  by_cases ht : t' = t
  · subst ht
    by_cases hq : q' = q <;> simp [queue, putQueue, PyDict.get?_set, hq]
  · simp [queue, putQueue, ht]

theorem entry_putQueue (c : MQTTClient KP) (t : MsgEnum) (q : String) (d : Queue) (t' q' s) :
    (c.putQueue t q d).entry t' q' s =
      if t' = t ∧ q' = q then d.metas.get? s else c.entry t' q' s := by
  rw [entry, queue_putQueue]
  split_ifs <;> rfl

theorem queue_unlinkQueue (c : MQTTClient KP) (t : MsgEnum) (q : String) (d : Queue) (t' q') :
    (c.unlinkQueue t q d).queue t' q' = if t' = t ∧ q' = q then none else c.queue t' q' := by
  by_cases ht : t' = t
  · subst ht
    by_cases hq : q' = q <;> simp [queue, unlinkQueue, PyDict.get?_erase, hq]
  · simp [queue, unlinkQueue, ht]

theorem entry_unlinkQueue (c : MQTTClient KP) (t : MsgEnum) (q : String) (d : Queue) (t' q' s) :
    (c.unlinkQueue t q d).entry t' q' s =
      if t' = t ∧ q' = q then none else c.entry t' q' s := by
  rw [entry, queue_unlinkQueue]
  split_ifs <;> rfl

theorem entry_of_queue {d : Queue} (h : c.queue t q = some d) (s : ℤ) :
    c.entry t q s = d.metas.get? s := by
  rw [entry, h]; rfl

theorem contains_iff_queue : (c.msgQueues t).contains q = true ↔ ∃ d, c.queue t q = some d := by
  rw [PyDict.contains, Option.isSome_iff_exists]; rfl

theorem queue_ensureQueue (c : MQTTClient KP) (t : MsgEnum) (q : String) (t' q') :
    (c.ensureQueue t q).queue t' q' =
      if t' = t ∧ q' = q then some ((c.queue t q).getD ⟨c.nextObj, ∅⟩) else c.queue t' q' := by
  unfold ensureQueue
  split_ifs with h h' h'
  · obtain ⟨d, hd⟩ := contains_iff_queue.mp h
    rw [h'.1, h'.2, hd]; rfl
  · rfl
  · have hn : c.queue t q = none := by
      cases hd : c.queue t q with
      | none => rfl
      | some d => exact absurd (contains_iff_queue.mpr ⟨d, hd⟩) h
    change (c.putQueue t q _).queue t' q' = _
    rw [queue_putQueue, if_pos h', hn]; rfl
  · change (c.putQueue t q _).queue t' q' = _
    rw [queue_putQueue, if_neg h']

theorem entry_ensureQueue (c : MQTTClient KP) (t : MsgEnum) (q : String) (t' q' s) :
    (c.ensureQueue t q).entry t' q' s = c.entry t' q' s := by
  rw [entry, queue_ensureQueue]
  split_ifs with h
  · rw [h.1, h.2, entry]
    cases c.queue t q <;> rfl
  · rfl

theorem queueObject_cases {n : ℕ} {m : Meta} (h : (c.queueObject t q n).get? s = some m) :
    c.entry t q s = some m ∨ ∃ d, c.unlinked.get? n = some d ∧ d.get? s = some m := by
  have hu : ((c.unlinked.get? n).getD ∅).get? s = some m →
      ∃ d, c.unlinked.get? n = some d ∧ d.get? s = some m := by
    cases hd : c.unlinked.get? n with
    | none => intro h'; cases h'
    | some d => exact fun h' => ⟨d, rfl, h'⟩
  unfold queueObject at h
  split at h
  · rename_i d hd
    split_ifs at h
    · exact .inl (by rw [entry_of_queue hd]; exact h)
    · exact .inr (hu h)
  · exact .inr (hu h)

theorem putMeta_cases {n : ℕ} {m : Meta} (m' : Meta)
    (h : (c.queueObject t q n).get? s = some m) :
    (∃ d, c.queue t q = some d ∧ d.metas.get? s = some m ∧
      c.putMeta t q n s m' = c.putQueue t q { d with metas := d.metas.set s m' }) ∨
    ∃ d, c.unlinked.get? n = some d ∧ d.get? s = some m ∧
      c.putMeta t q n s m' = { c with unlinked := c.unlinked.set n (d.set s m') } := by
  have hu : ((c.unlinked.get? n).getD ∅).get? s = some m →
      ∃ d, c.unlinked.get? n = some d ∧ d.get? s = some m ∧
        { c with unlinked := c.unlinked.set n (((c.unlinked.get? n).getD ∅).set s m') } =
          { c with unlinked := c.unlinked.set n (d.set s m') } := by
    cases hd : c.unlinked.get? n with
    | none => intro h'; cases h'
    | some d => exact fun h' => ⟨d, rfl, h', rfl⟩
  unfold queueObject at h
  unfold putMeta
  split at h
  · rename_i d hd
    rw [hd]
    split_ifs at h with hn
    · exact .inl ⟨d, rfl, h, if_pos hn⟩
    · right
      simpa only [hd, if_neg hn] using hu h
  · rename_i hd
    rw [hd]
    exact .inr (hu h)

end Lookup

theorem Writes.mono (hPQ : ∀ w, P w → Q w) (h : Writes A P c d) : Writes A Q c d := by
  have hs : ∀ {t q d d'}, Shrinks P t q d d' → Shrinks Q t q d d' := fun h =>
    ⟨h.ident, h.kept, fun s m hm hn => hPQ _ (h.lost s m hm hn)⟩
  induction h with
  | quiet h => exact .quiet h
  | trans _ _ ih ih' => exact .trans ih ih'
  | ensureQueue c t q => exact .ensureQueue c t q
  | register hd hm ho hp h => exact .register hd hm ho hp (hPQ _ h)
  | shrink hd h => exact .shrink hd (hs h)
  | unlink hd h hp => exact .unlink hd (hs h) (hPQ _ hp)
  | resolve hm h => exact .resolve hm (hPQ _ h)
  | ack hm h => exact .ack hm (hPQ _ h)
  | bump hm h => exact .bump hm h
  | send hm ht hp => exact .send hm ht hp
  | addHandler hp => exact .addHandler (hPQ _ hp)

structure Grows (c d : MQTTClient KP) : Prop where
  kp : d.kp = c.kp
  republishDuration : d.republishDuration = c.republishDuration
  nextObj_le : c.nextObj ≤ d.nextObj
  queued : c.queued <+: d.queued
  resolved : c.resolved ⊆ d.resolved
  acked : c.acked ⊆ d.acked
  sent : c.sent <+: d.sent

theorem Grows.refl (c : MQTTClient KP) : Grows c c :=
  ⟨rfl, rfl, le_rfl, List.prefix_rfl, fun _ h => h, fun _ h => h, List.prefix_rfl⟩

theorem Grows.trans (h : Grows c d) (h' : Grows d e) : Grows c e :=
  ⟨h'.kp.trans h.kp, h'.republishDuration.trans h.republishDuration,
    h.nextObj_le.trans h'.nextObj_le, h.queued.trans h'.queued,
    fun _ ha => h'.resolved (h.resolved ha), fun _ ha => h'.acked (h.acked ha),
    h.sent.trans h'.sent⟩

theorem grows_putMeta (c : MQTTClient KP) (t : MsgEnum) (q : String) (n : ℕ) (s : ℤ) (m : Meta) :
    Grows c (c.putMeta t q n s m) := by
  unfold putMeta
  split
  · split_ifs <;> exact { Grows.refl c with }
  · exact { Grows.refl c with }

theorem Writes.grows (h : Writes A P c d) : Grows c d := by
  induction h with
  | @quiet c c' h =>
    exact ⟨h.kp, h.republishDuration, h.nextObj_le, by rw [h.queued], fun a ha => by rwa [h.resolved],
      fun a ha => by rwa [h.acked], by rw [h.sent]⟩
  | trans _ _ ih ih' => exact ih.trans ih'
  | ensureQueue c t q =>
    unfold MQTTClient.ensureQueue
    split_ifs
    · exact .refl c
    · exact { Grows.refl c with nextObj_le := Nat.le_succ _ }
  | @register c t q d m msg hd hm ho hp h =>
    exact { Grows.refl c with nextObj_le := Nat.le_succ _, queued := List.prefix_append _ _ }
  | @shrink c t q d d' hd h => exact { Grows.refl c with }
  | @unlink c t q d d' hd h hp => exact { Grows.refl c with }
  | @resolve c t q s m hm h => exact { Grows.refl c with resolved := List.subset_cons_self _ _ }
  | @ack c t q s m hm h =>
    exact { Grows.refl c with
      resolved := List.subset_cons_self _ _, acked := List.subset_cons_self _ _ }
  | bump hm h => exact grows_putMeta ..
  | @send c t q n s m p hm ht hp => exact { Grows.refl c with sent := List.prefix_append _ _ }
  | @addHandler c h hp => exact { Grows.refl c with }

section Entries

variable {t : MsgEnum} {q : String} {s : ℤ} {m m' : Meta}

theorem entry_putMeta {n : ℕ} {s' : ℤ} {m m₁ : Meta} {t' : MsgEnum} {q' : String}
    (hm : (c.queueObject t' q' n).get? s' = some m) (hc : m₁.core = m.core) :
    (∀ {m'}, (c.putMeta t' q' n s' m₁).entry t q s = some m' →
        ∃ m, c.entry t q s = some m ∧ m'.core = m.core) ∧
      ∀ {m}, c.entry t q s = some m →
        ∃ m', (c.putMeta t' q' n s' m₁).entry t q s = some m' ∧ m'.core = m.core := by
  obtain ⟨d, hd, hs, he⟩ | ⟨d, -, -, he⟩ := putMeta_cases m₁ hm
  · rw [he]
    have hput := entry_putQueue c t' q' { d with metas := d.metas.set s' m₁ } t q s
    by_cases h : t = t' ∧ q = q'
    · obtain ⟨rfl, rfl⟩ := h
      rw [if_pos ⟨rfl, rfl⟩, PyDict.get?_set] at hput
      rw [hput, entry_of_queue hd]
      split_ifs with hss
      · subst hss
        exact ⟨fun h' => ⟨m, hs, by cases h'; exact hc⟩,
          fun h' => ⟨m₁, rfl, by rw [hs] at h'; cases h'; exact hc⟩⟩
      · exact ⟨fun h' => ⟨_, h', rfl⟩, fun h' => ⟨_, h', rfl⟩⟩
    · rw [if_neg h] at hput
      rw [hput]
      exact ⟨fun h' => ⟨_, h', rfl⟩, fun h' => ⟨_, h', rfl⟩⟩
  · rw [he]
    exact ⟨fun h' => ⟨_, h', rfl⟩, fun h' => ⟨_, h', rfl⟩⟩

theorem entry_register (c : MQTTClient KP) (t' : MsgEnum) (q' : String) (d : Queue) (m : Meta)
    (msg : PyMsg) (hd : c.queue t' q' = some d) :
    (c.register t' q' d m msg).entry t q s =
      if t = t' ∧ q = q' ∧ s = m.seqNo then some m else c.entry t q s := by
  change (c.putQueue t' q' _).entry t q s = _
  rw [entry_putQueue]
  by_cases h : t = t' ∧ q = q'
  · obtain ⟨rfl, rfl⟩ := h
    simp [PyDict.get?_set, entry_of_queue hd]
  · rw [if_neg h, if_neg fun h' => h ⟨h'.1, h'.2.1⟩]

theorem Writes.entry_cases (h : Writes A P c d) (hm : d.entry t q s = some m') :
    (∃ m, c.entry t q s = some m ∧ m'.core = m.core) ∨
      ∃ msg, P (.register (Queued.of t q s m' msg)) ∧ Queued.of t q s m' msg ∈ d.queued ∧
        c.nextObj ≤ m'.appAck := by
  induction h generalizing m' with
  | quiet h => exact .inl ⟨m', by rwa [← h.entry], rfl⟩
  | trans h₁ h₂ ih ih' =>
    obtain ⟨m₁, h₃, h₄⟩ | ⟨msg, h₃, h₄, h₅⟩ := ih' hm
    · obtain ⟨m₂, h₅, h₆⟩ | ⟨msg, h₅, h₆, h₇⟩ := ih h₃
      · exact .inl ⟨m₂, h₅, h₄.trans h₆⟩
      · have ha := Meta.appAck_eq_of_core h₄
        rw [← Queued.of_core h₄] at h₅ h₆
        exact .inr ⟨msg, h₅, h₂.grows.queued.subset h₆, ha ▸ h₇⟩
    · exact .inr ⟨msg, h₃, h₄, h₁.grows.nextObj_le.trans h₅⟩
  | ensureQueue c t q =>
    rw [entry_ensureQueue] at hm
    exact .inl ⟨m', hm, rfl⟩
  | @register c t' q' d m msg hd ha ho hp h =>
    rw [entry_register c t' q' d m msg hd] at hm
    split_ifs at hm with he
    · obtain ⟨rfl, rfl, rfl⟩ := he
      cases hm
      exact .inr ⟨msg, h, List.mem_append_right _ (List.mem_singleton_self _), ha.ge⟩
    · exact .inl ⟨m', hm, rfl⟩
  | @shrink c t' q' d d' hd h =>
    rw [entry_putQueue] at hm
    split_ifs at hm with he
    · obtain ⟨rfl, rfl⟩ := he
      exact .inl ⟨m', by rw [entry_of_queue hd]; exact h.kept _ _ hm, rfl⟩
    · exact .inl ⟨m', hm, rfl⟩
  | @unlink c t' q' d d' hd h hp =>
    rw [entry_unlinkQueue] at hm
    split_ifs at hm
    exact .inl ⟨m', hm, rfl⟩
  | resolve => exact .inl ⟨m', hm, rfl⟩
  | ack => exact .inl ⟨m', hm, rfl⟩
  | bump hm' h => exact .inl ((entry_putMeta hm' h).1 hm)
  | send => exact .inl ⟨m', hm, rfl⟩
  | addHandler => exact .inl ⟨m', hm, rfl⟩

/-- An entry is still there after writes, unless they forget it, drop its queue or register
another one in its place. -/
theorem Writes.entry_kept (h : Writes A P c d) (hm : c.entry t q s = some m) :
    (∃ m', d.entry t q s = some m' ∧ m'.core = m.core) ∨ P (.forget t q s) ∨ P (.unlink t q) ∨
      ∃ x, P (.register x) ∧ x.msgType = t ∧ x.queueIdHex = q ∧ x.seqNo = s := by
  induction h generalizing m with
  | quiet h => exact .inl ⟨m, by rwa [h.entry], rfl⟩
  | trans _ _ ih ih' =>
    obtain ⟨m₁, h₁, h₂⟩ | h₁ := ih hm
    · obtain ⟨m₂, h₃, h₄⟩ | h₃ := ih' h₁
      · exact .inl ⟨m₂, h₃, h₄.trans h₂⟩
      · exact .inr h₃
    · exact .inr h₁
  | ensureQueue c t q => exact .inl ⟨m, by rwa [entry_ensureQueue], rfl⟩
  | @register c t' q' d m₁ msg hd ha ho hp h =>
    rw [entry_register c t' q' d m₁ msg hd]
    split_ifs with he
    · obtain ⟨rfl, rfl, rfl⟩ := he
      exact .inr (.inr (.inr ⟨_, h, rfl, rfl, rfl⟩))
    · exact .inl ⟨m, hm, rfl⟩
  | @shrink c t' q' d d' hd h =>
    rw [entry_putQueue]
    split_ifs with he
    · obtain ⟨rfl, rfl⟩ := he
      rw [entry_of_queue hd] at hm
      cases hg : d'.metas.get? s with
      | none => exact .inr (.inl (h.lost s m hm hg))
      | some m₁ =>
        have hk := h.kept s m₁ hg
        rw [hm] at hk
        cases hk
        exact .inl ⟨m, rfl, rfl⟩
    · exact .inl ⟨m, hm, rfl⟩
  | @unlink c t' q' d d' hd h hp =>
    rw [entry_unlinkQueue]
    split_ifs with he
    · obtain ⟨rfl, rfl⟩ := he
      exact .inr (.inr (.inl hp))
    · exact .inl ⟨m, hm, rfl⟩
  | resolve => exact .inl ⟨m, hm, rfl⟩
  | ack => exact .inl ⟨m, hm, rfl⟩
  | bump hm' h => exact .inl ((entry_putMeta hm' h).2 hm)
  | send => exact .inl ⟨m, hm, rfl⟩
  | addHandler => exact .inl ⟨m, hm, rfl⟩

theorem queue_putMeta_isSome {n : ℕ} {s' : ℤ} {m₁ : Meta} {t' : MsgEnum} {q' : String}
    (h : (c.queue t q).isSome) : ((c.putMeta t' q' n s' m₁).queue t q).isSome := by
  unfold putMeta
  split
  · split_ifs
    · rw [queue_putQueue]
      split_ifs
      · rfl
      · exact h
    · exact h
  · exact h

theorem Writes.queue_kept (h : Writes A P c d) (hq : (c.queue t q).isSome) :
    (d.queue t q).isSome ∨ P (.unlink t q) := by
  have put : ∀ {c : MQTTClient KP} {t' q' d'}, (c.queue t q).isSome →
      ((c.putQueue t' q' d').queue t q).isSome := by
    intro c t' q' d' h
    rw [queue_putQueue]
    split_ifs
    · rfl
    · exact h
  induction h with
  | quiet h => exact .inl (by rwa [h.queue])
  | trans _ _ ih ih' => exact (ih hq).elim ih' .inr
  | ensureQueue c t' q' =>
    left
    rw [queue_ensureQueue]
    split_ifs
    · rfl
    · exact hq
  | register hd ha ho hp h => exact .inl (put hq)
  | shrink hd h => exact .inl (put hq)
  | @unlink c t' q' d d' hd h hp =>
    rw [queue_unlinkQueue]
    split_ifs with he
    · obtain ⟨rfl, rfl⟩ := he
      exact .inr hp
    · exact .inl hq
  | resolve => exact .inl hq
  | ack => exact .inl hq
  | bump => exact .inl (queue_putMeta_isSome hq)
  | send => exact .inl hq
  | addHandler => exact .inl hq

end Entries

/-- Whatever a client holds, sends or marks as acknowledged comes from a message it queued. -/
structure Tracked (A : Aio KP) (c : MQTTClient KP) : Prop where
  entry : ∀ {t q s m}, c.entry t q s = some m → ∃ msg, Queued.of t q s m msg ∈ c.queued
  oneShot : ∀ {q s m}, c.entry .msg q s = some m → m.probeOneShot = false
  unlinked : ∀ {n d s m}, c.unlinked.get? n = some d → d.get? s = some m →
    ∃ x ∈ c.queued, x.destPkHex = m.destPkHex ∧ x.out = m.out
  sent : ∀ p ∈ c.sent, ∃ x ∈ c.queued, x.destPkHex = p.topic ∧ x.out = p.payload
  packed : ∀ x ∈ c.queued, Packed A c.kp x
  appAck_lt : ∀ x ∈ c.queued, x.appAck < c.nextObj
  nodup : (c.queued.map Queued.appAck).Nodup
  resolved : ∀ a ∈ c.resolved, ∃ x ∈ c.queued, x.appAck = a
  acked : c.acked ⊆ c.resolved

namespace Tracked

variable {t : MsgEnum} {q : String} {n : ℕ} {s : ℤ} {m m' : Meta}

theorem backed (h : Tracked A c) (hm : c.entry t q s = some m) :
    ∃ x ∈ c.queued, x.destPkHex = m.destPkHex ∧ x.out = m.out ∧ x.appAck = m.appAck := by
  obtain ⟨msg, hx⟩ := h.entry hm
  exact ⟨_, hx, rfl, rfl, rfl⟩

theorem queueObject (h : Tracked A c) (hm : (c.queueObject t q n).get? s = some m) :
    ∃ x ∈ c.queued, x.destPkHex = m.destPkHex ∧ x.out = m.out := by
  obtain hm | ⟨d, hd, hm⟩ := queueObject_cases hm
  · obtain ⟨x, hx, h₁, h₂, -⟩ := h.backed hm
    exact ⟨x, hx, h₁, h₂⟩
  · exact h.unlinked hd hm

theorem eq_of_appAck (h : Tracked A c) {x y : Queued} (hx : x ∈ c.queued) (hy : y ∈ c.queued)
    (he : x.appAck = y.appAck) : x = y :=
  List.inj_on_of_nodup_map h.nodup hx hy he

theorem quiet (h : Tracked A c) (hs : SameBook c d) : Tracked A d where
  entry hm := by rw [hs.entry] at hm; rw [hs.queued]; exact h.entry hm
  oneShot hm := by rw [hs.entry] at hm; exact h.oneShot hm
  unlinked hd hm := by rw [hs.unlinked] at hd; rw [hs.queued]; exact h.unlinked hd hm
  sent := by rw [hs.sent, hs.queued]; exact h.sent
  packed := by rw [hs.queued, hs.kp]; exact h.packed
  appAck_lt := by
    rw [hs.queued]
    exact fun x hx => (h.appAck_lt x hx).trans_le hs.nextObj_le
  nodup := by rw [hs.queued]; exact h.nodup
  resolved := by rw [hs.resolved, hs.queued]; exact h.resolved
  acked := by rw [hs.acked, hs.resolved]; exact h.acked

theorem register (h : Tracked A c) {d : Queue} {msg : PyMsg} (hd : c.queue t q = some d)
    (hm : m.appAck = c.nextObj) (ho : t = .msg → m.probeOneShot = false)
    (hp : Packed A c.kp (Queued.of t q m.seqNo m msg)) : Tracked A (c.register t q d m msg) where
  entry {t' q' s m'} hm' := by
    rw [entry_register c t q d m msg hd] at hm'
    split_ifs at hm' with he
    · obtain ⟨rfl, rfl, rfl⟩ := he
      cases hm'
      exact ⟨msg, List.mem_append_right _ (List.mem_singleton_self _)⟩
    · obtain ⟨msg', hx⟩ := h.entry hm'
      exact ⟨msg', List.mem_append_left _ hx⟩
  oneShot {q' s m'} hm' := by
    rw [entry_register c t q d m msg hd] at hm'
    split_ifs at hm' with he
    · cases hm'
      exact ho he.1.symm
    · exact h.oneShot hm'
  unlinked hd hm := by
    obtain ⟨x, hx, hx'⟩ := h.unlinked hd hm
    exact ⟨x, List.mem_append_left _ hx, hx'⟩
  sent p hp := by
    obtain ⟨x, hx, hx'⟩ := h.sent p hp
    exact ⟨x, List.mem_append_left _ hx, hx'⟩
  packed x hx := by
    rcases List.mem_append.mp hx with hx | hx
    · exact h.packed x hx
    · rw [List.mem_singleton.mp hx]; exact hp
  appAck_lt x hx := by
    rcases List.mem_append.mp hx with hx | hx
    · exact Nat.lt_succ_of_lt (h.appAck_lt x hx)
    · rw [List.mem_singleton.mp hx]; exact hm ▸ Nat.lt_succ_self _
  nodup := by
    change (((c.queued ++ [_]).map Queued.appAck)).Nodup
    rw [List.map_append, List.map_singleton, List.nodup_append]
    refine ⟨h.nodup, List.nodup_singleton _, ?_⟩
    intro a ha b hb hab
    obtain ⟨x, hx, rfl⟩ := List.mem_map.mp ha
    have hlt := h.appAck_lt x hx
    rw [hab, List.mem_singleton.mp hb] at hlt
    exact absurd hm hlt.ne
  resolved a ha := by
    obtain ⟨x, hx, hx'⟩ := h.resolved a ha
    exact ⟨x, List.mem_append_left _ hx, hx'⟩
  acked := h.acked

theorem shrink (h : Tracked A c) {d d' : Queue} (hd : c.queue t q = some d)
    (hs : Shrinks P t q d d') : Tracked A (c.putQueue t q d') :=
  { h with
    entry := by
      intro t' q' s m hm
      rw [entry_putQueue] at hm
      split_ifs at hm with he
      · obtain ⟨rfl, rfl⟩ := he
        exact h.entry ((entry_of_queue hd s).trans (hs.kept s m hm))
      · exact h.entry hm
    oneShot := by
      intro q' s m hm
      rw [entry_putQueue] at hm
      split_ifs at hm with he
      · obtain ⟨rfl, rfl⟩ := he
        exact h.oneShot ((entry_of_queue hd s).trans (hs.kept s m hm))
      · exact h.oneShot hm }

theorem unlink (h : Tracked A c) {d d' : Queue} (hd : c.queue t q = some d)
    (hs : Shrinks P t q d d') : Tracked A (c.unlinkQueue t q d') :=
  { h with
    entry := by
      intro t' q' s m hm
      rw [entry_unlinkQueue] at hm
      split_ifs at hm
      exact h.entry hm
    oneShot := by
      intro q' s m hm
      rw [entry_unlinkQueue] at hm
      split_ifs at hm
      exact h.oneShot hm
    unlinked := by
      intro n e s m he hm
      change (c.unlinked.set d'.ident d'.metas).get? n = some e at he
      rw [PyDict.get?_set] at he
      split_ifs at he
      · cases he
        obtain ⟨x, hx, h₁, h₂, -⟩ := h.backed ((entry_of_queue hd s).trans (hs.kept s m hm))
        exact ⟨x, hx, h₁, h₂⟩
      · exact h.unlinked he hm }

theorem bump (h : Tracked A c) (hm : (c.queueObject t q n).get? s = some m)
    (hc : m'.core = m.core) : Tracked A (c.putMeta t q n s m') := by
  have hentry : ∀ {t₁ q₁ s₁ m₁}, (c.putMeta t q n s m').entry t₁ q₁ s₁ = some m₁ →
      ∃ msg, Queued.of t₁ q₁ s₁ m₁ msg ∈ c.queued := by
    intro t₁ q₁ s₁ m₁ hm₁
    obtain ⟨m₂, hm₂, hc₂⟩ := (entry_putMeta hm hc).1 hm₁
    obtain ⟨msg, hx⟩ := h.entry hm₂
    exact ⟨msg, Queued.of_core hc₂ ▸ hx⟩
  have honeShot : ∀ {q₁ s₁ m₁}, (c.putMeta t q n s m').entry .msg q₁ s₁ = some m₁ →
      m₁.probeOneShot = false := by
    intro q₁ s₁ m₁ hm₁
    obtain ⟨m₂, hm₂, hc₂⟩ := (entry_putMeta hm hc).1 hm₁
    exact (Meta.probeOneShot_eq_of_core hc₂).trans (h.oneShot hm₂)
  obtain ⟨d, hd, hs, he⟩ | ⟨d, hd, hs, he⟩ := putMeta_cases m' hm
  · rw [he] at hentry honeShot ⊢
    exact { h with entry := hentry, oneShot := honeShot }
  · rw [he] at hentry honeShot ⊢
    refine { h with entry := hentry, oneShot := honeShot, unlinked := ?_ }
    intro n' e s' m₁ he hm₁
    rw [PyDict.get?_set] at he
    split_ifs at he
    · cases he
      rw [PyDict.get?_set] at hm₁
      split_ifs at hm₁
      · cases hm₁
        rw [Meta.destPkHex_eq_of_core hc, Meta.out_eq_of_core hc]
        exact h.unlinked hd hs
      · exact h.unlinked hd hm₁
    · exact h.unlinked he hm₁

theorem setResult (h : Tracked A c) (hm : c.entry t q s = some m) : Tracked A (c.setResult m) :=
  { h with
    resolved := by
      intro a ha
      rcases List.mem_cons.mp ha with rfl | ha
      · obtain ⟨x, hx, -, -, hx'⟩ := h.backed hm
        exact ⟨x, hx, hx'⟩
      · exact h.resolved a ha
    acked := fun a ha => List.mem_cons_of_mem _ (h.acked ha) }

theorem ack (h : Tracked A c) (hm : c.entry t q s = some m) :
    Tracked A { c.setResult m with acked := m.appAck :: c.acked } :=
  { h.setResult hm with
    acked := List.cons_subset_cons _ h.acked }

theorem send (h : Tracked A c) {p : Publish} (hm : (c.queueObject t q n).get? s = some m)
    (ht : p.topic = m.destPkHex) (hp : p.payload = m.out) :
    Tracked A { c with sent := c.sent ++ [p] } :=
  { h with
    sent := by
      intro p' hp'
      rcases List.mem_append.mp hp' with hp' | hp'
      · exact h.sent p' hp'
      · rw [List.mem_singleton.mp hp', ht, hp]
        exact h.queueObject hm }

theorem ensureQueue (h : Tracked A c) (t : MsgEnum) (q : String) :
    Tracked A (c.ensureQueue t q) := by
  have hentry : ∀ {t₁ q₁ s₁ m₁}, (c.ensureQueue t q).entry t₁ q₁ s₁ = some m₁ →
      ∃ msg, Queued.of t₁ q₁ s₁ m₁ msg ∈ c.queued := by
    intro t₁ q₁ s₁ m₁ hm₁
    rw [entry_ensureQueue] at hm₁
    exact h.entry hm₁
  have honeShot : ∀ {q₁ s₁ m₁}, (c.ensureQueue t q).entry .msg q₁ s₁ = some m₁ →
      m₁.probeOneShot = false := by
    intro q₁ s₁ m₁ hm₁
    rw [entry_ensureQueue] at hm₁
    exact h.oneShot hm₁
  unfold MQTTClient.ensureQueue at hentry honeShot ⊢
  split_ifs at hentry honeShot ⊢
  · exact h
  · exact { h with
      entry := hentry
      oneShot := honeShot
      appAck_lt := fun x hx => Nat.lt_succ_of_lt (h.appAck_lt x hx) }

end Tracked

theorem Writes.tracked (h : Writes A P c d) (hc : Tracked A c) : Tracked A d := by
  induction h with
  | quiet h => exact hc.quiet h
  | trans _ _ ih ih' => exact ih' (ih hc)
  | ensureQueue c t q => exact hc.ensureQueue t q
  | register hd hm ho hp h => exact hc.register hd hm ho hp
  | shrink hd h => exact hc.shrink hd h
  | unlink hd h hp => exact hc.unlink hd h
  | resolve hm h => exact hc.setResult hm
  | ack hm h => exact hc.ack hm
  | bump hm h => exact hc.bump hm h
  | send hm ht hp => exact hc.send hm ht hp
  | addHandler hp => exact { hc with }

theorem Writes.queued_append (h : Writes A P c d) :
    ∃ l, d.queued = c.queued ++ l ∧ ∀ x ∈ l, P (.register x) := by
  have same : ∀ {c d : MQTTClient KP}, d.queued = c.queued →
      ∃ l, d.queued = c.queued ++ l ∧ ∀ x ∈ l, P (.register x) :=
    fun he => ⟨[], by rw [he, List.append_nil], nofun⟩
  induction h with
  | quiet h => exact same h.queued
  | trans _ _ ih ih' =>
    obtain ⟨l, hl, hP⟩ := ih
    obtain ⟨l', hl', hP'⟩ := ih'
    refine ⟨l ++ l', by rw [hl', hl, List.append_assoc], fun x hx => ?_⟩
    exact (List.mem_append.mp hx).elim (hP x) (hP' x)
  | ensureQueue c t q => exact same (by unfold MQTTClient.ensureQueue; split_ifs <;> rfl)
  | register hd hm ho hp h =>
    exact ⟨[_], rfl, fun x hx => by rw [List.mem_singleton.mp hx]; exact h⟩
  | shrink | unlink | resolve | ack | send | addHandler => exact same rfl
  | @bump c t q n s m m' hm h =>
    obtain ⟨d, -, -, he⟩ | ⟨d, -, -, he⟩ := putMeta_cases m' hm <;>
    · rw [he]; exact same rfl

theorem Writes.queued_cases (h : Writes A P c d) {x : Queued} (hx : x ∈ d.queued) :
    x ∈ c.queued ∨ P (.register x) := by
  obtain ⟨l, hl, hP⟩ := h.queued_append
  rw [hl] at hx
  exact (List.mem_append.mp hx).imp id (hP x)

theorem putMeta_marks (c : MQTTClient KP) (t : MsgEnum) (q : String) (n : ℕ) (s : ℤ) (m : Meta) :
    (c.putMeta t q n s m).acked = c.acked ∧ (c.putMeta t q n s m).resolved = c.resolved ∧
      (c.putMeta t q n s m).msgHandlers = c.msgHandlers := by
  unfold putMeta
  split
  · split_ifs <;> exact ⟨rfl, rfl, rfl⟩
  · exact ⟨rfl, rfl, rfl⟩

theorem ensureQueue_marks (c : MQTTClient KP) (t : MsgEnum) (q : String) :
    (c.ensureQueue t q).acked = c.acked ∧ (c.ensureQueue t q).resolved = c.resolved ∧
      (c.ensureQueue t q).msgHandlers = c.msgHandlers := by
  unfold ensureQueue
  split_ifs <;> exact ⟨rfl, rfl, rfl⟩

theorem Writes.acked_cases (h : Writes A P c d) (hc : Tracked A c) {a : ℕ} (ha : a ∈ d.acked) :
    a ∈ c.acked ∨ ∃ t q s m, P (.ack t q s m) ∧ m.appAck = a ∧
      ∃ msg, Queued.of t q s m msg ∈ d.queued := by
  induction h with
  | quiet h => exact .inl (by rwa [h.acked] at ha)
  | trans h₁ h₂ ih ih' =>
    obtain ha | ha := ih' (h₁.tracked hc) ha
    · obtain ha | ⟨t, q, s, m, h₃, h₄, msg, h₅⟩ := ih hc ha
      · exact .inl ha
      · exact .inr ⟨t, q, s, m, h₃, h₄, msg, h₂.grows.queued.subset h₅⟩
    · exact .inr ha
  | ensureQueue c t q => rw [(ensureQueue_marks c t q).1] at ha; exact .inl ha
  | @ack c t q s m hm h =>
    rcases List.mem_cons.mp ha with rfl | ha
    · exact .inr ⟨t, q, s, m, h, rfl, hc.entry hm⟩
    · exact .inl ha
  | bump => rw [(putMeta_marks ..).1] at ha; exact .inl ha
  | register | shrink | unlink | resolve | send | addHandler => exact .inl ha

theorem Writes.resolved_cases (h : Writes A P c d) {a : ℕ} (ha : a ∈ d.resolved) :
    a ∈ c.resolved ∨ a ∈ d.acked ∨ ∃ m, P (.resolve m) ∧ m.appAck = a := by
  induction h with
  | quiet h => exact .inl (by rwa [h.resolved] at ha)
  | trans h₁ h₂ ih ih' =>
    obtain ha | ha := ih' ha
    · obtain ha | ha | ha := ih ha
      · exact .inl ha
      · exact .inr (.inl (h₂.grows.acked ha))
      · exact .inr (.inr ha)
    · exact .inr ha
  | ensureQueue c t q => rw [(ensureQueue_marks c t q).2.1] at ha; exact .inl ha
  | @resolve c t q s m hm h =>
    rcases List.mem_cons.mp ha with rfl | ha
    · exact .inr (.inr ⟨m, h, rfl⟩)
    · exact .inl ha
  | @ack c t q s m hm h =>
    rcases List.mem_cons.mp ha with rfl | ha
    · exact .inr (.inl (List.mem_cons_self ..))
    · exact .inl ha
  | bump => rw [(putMeta_marks ..).2.1] at ha; exact .inl ha
  | register | shrink | unlink | send | addHandler => exact .inl ha

theorem Writes.msgHandlers (h : Writes A P c d) (hP : ∀ h, ¬ P (.addHandler h)) :
    d.msgHandlers = c.msgHandlers := by
  induction h with
  | quiet h => exact h.msgHandlers
  | trans _ _ ih ih' => exact ih'.trans ih
  | ensureQueue c t q => exact (ensureQueue_marks c t q).2.2
  | bump => exact (putMeta_marks ..).2.2
  | addHandler h => exact absurd h (hP _)
  | register | shrink | unlink | resolve | ack | send => rfl

theorem Writes.handlers_kept (h : Writes A P c d) : c.msgHandlers.toList <+: d.msgHandlers.toList := by
  induction h with
  | quiet h => rw [h.msgHandlers]
  | trans _ _ ih ih' => exact ih.trans ih'
  | ensureQueue c t q => rw [(ensureQueue_marks c t q).2.2]
  | bump => rw [(putMeta_marks ..).2.2]
  | @addHandler c x hp =>
    change c.msgHandlers.toList <+: (c.msgHandlers.add x).toList
    unfold HandlerSet.add
    split_ifs
    · exact List.prefix_rfl
    · exact List.prefix_append _ _
  | register | shrink | unlink | resolve | ack | send => exact List.prefix_rfl

end MQTTClient

end Sidewire
