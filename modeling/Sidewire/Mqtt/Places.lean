import Sidewire.Mqtt.Effects

/-! # Where a message is held

A message is in the table or, once its queue has been dropped, in a queue object
that only a suspended pass may still see. It never comes back from there, and
the parts of it that never change are the same wherever it is.
-/

namespace Sidewire

namespace MQTTClient

variable {KP : Type} {A : Aio KP} {P : Write → Prop} {c d : MQTTClient KP} {t : MsgEnum}
  {q : String} {n : ℕ} {s : ℤ} {m m' : Meta}

def Orphaned (c : MQTTClient KP) (n : ℕ) (s : ℤ) (m : Meta) : Prop :=
  ∃ d, c.unlinked.get? n = some d ∧ d.get? s = some m

def Held (c : MQTTClient KP) (m : Meta) : Prop :=
  (∃ t q s, c.entry t q s = some m) ∨ ∃ n s, c.Orphaned n s m

theorem held_of_queueObject (h : (c.queueObject t q n).get? s = some m) : c.Held m := by
  obtain h | ⟨d, hd, hs⟩ := queueObject_cases h
  · exact .inl ⟨t, q, s, h⟩
  · exact .inr ⟨n, s, d, hd, hs⟩

theorem orphaned_putMeta {t' : MsgEnum} {q' : String} {n' : ℕ} {s' : ℤ} {m₁ m₂ : Meta}
    (hm : (c.queueObject t' q' n').get? s' = some m₁) (hc : m₂.core = m₁.core)
    (h : (c.putMeta t' q' n' s' m₂).Orphaned n s m') :
    ∃ m, c.Orphaned n s m ∧ m'.core = m.core := by
  obtain ⟨d, -, -, he⟩ | ⟨d, hd, hs, he⟩ := putMeta_cases m₂ hm
  · rw [he] at h
    exact ⟨m', h, rfl⟩
  · rw [he] at h
    obtain ⟨e, hget, hmem⟩ := h
    simp only [PyDict.get?_set] at hget
    split_ifs at hget with hn
    · cases hget
      rw [PyDict.get?_set] at hmem
      split_ifs at hmem with hss
      · cases hmem
        exact ⟨m₁, ⟨d, hn ▸ hd, hss ▸ hs⟩, hc⟩
      · exact ⟨m', ⟨d, hn ▸ hd, hmem⟩, rfl⟩
    · exact ⟨m', ⟨e, hget, hmem⟩, rfl⟩

theorem Writes.orphaned_cases (h : Writes A P c d) (hm : d.Orphaned n s m') :
    (∃ m, c.Orphaned n s m ∧ m'.core = m.core) ∨
      (∃ t q s m, c.entry t q s = some m ∧ m'.core = m.core) ∨ c.nextObj ≤ m'.appAck := by
  induction h generalizing m' with
  | quiet h => exact .inl ⟨m', by rwa [Orphaned, ← h.unlinked], rfl⟩
  | trans h₁ _ ih ih' =>
    rcases ih' hm with ⟨m₁, h₃, h₄⟩ | ⟨t, q, s, m₁, h₃, h₄⟩ | h₃
    · rcases ih h₃ with ⟨m₂, h₅, h₆⟩ | ⟨t, q, s, m₂, h₅, h₆⟩ | h₅
      · exact .inl ⟨m₂, h₅, h₄.trans h₆⟩
      · exact .inr (.inl ⟨t, q, s, m₂, h₅, h₄.trans h₆⟩)
      · exact .inr (.inr (Meta.appAck_eq_of_core h₄ ▸ h₅))
    · rcases h₁.entry_cases h₃ with ⟨m₂, h₅, h₆⟩ | ⟨msg, -, -, h₅⟩
      · exact .inr (.inl ⟨t, q, s, m₂, h₅, h₄.trans h₆⟩)
      · exact .inr (.inr (Meta.appAck_eq_of_core h₄ ▸ h₅))
    · exact .inr (.inr (h₁.grows.nextObj_le.trans h₃))
  | ensureQueue c t q =>
    unfold MQTTClient.ensureQueue at hm
    split_ifs at hm <;> exact .inl ⟨m', hm, rfl⟩
  | @unlink c t q d d' hd h hp =>
    obtain ⟨e, he, hs⟩ := hm
    change (c.unlinked.set d'.ident d'.metas).get? n = some e at he
    rw [PyDict.get?_set] at he
    split_ifs at he
    · cases he
      exact .inr (.inl ⟨t, q, s, m', (entry_of_queue hd s).trans (h.kept s m' hs), rfl⟩)
    · exact .inl ⟨m', ⟨e, he, hs⟩, rfl⟩
  | bump hm' h => exact .inl (orphaned_putMeta hm' h hm)
  | register | shrink | resolve | ack | send | addHandler => exact .inl ⟨m', hm, rfl⟩

theorem Writes.held_cases (h : Writes A P c d) (hm : d.Held m') :
    (∃ m, c.Held m ∧ m'.core = m.core) ∨ c.nextObj ≤ m'.appAck := by
  obtain ⟨t, q, s, hm⟩ | ⟨n, s, hm⟩ := hm
  · rcases h.entry_cases hm with ⟨m, hm, hc⟩ | ⟨msg, -, -, hn⟩
    · exact .inl ⟨m, .inl ⟨t, q, s, hm⟩, hc⟩
    · exact .inr hn
  · rcases h.orphaned_cases hm with ⟨m, hm, hc⟩ | ⟨t, q, s, m, hm, hc⟩ | hn
    · exact .inl ⟨m, .inr ⟨n, s, hm⟩, hc⟩
    · exact .inl ⟨m, .inl ⟨t, q, s, hm⟩, hc⟩
    · exact .inr hn

structure Placed (c : MQTTClient KP) : Prop where
  lt : ∀ {m}, c.Held m → m.appAck < c.nextObj
  core : ∀ {m m'}, c.Held m → c.Held m' → m.appAck = m'.appAck → m.core = m'.core
  apart : ∀ {t q s m n s' m'}, c.entry t q s = some m → c.Orphaned n s' m' → m.appAck ≠ m'.appAck

theorem Placed.of_cores (h : Placed c) (hn : c.nextObj ≤ d.nextObj)
    (he : ∀ {t q s m'}, d.entry t q s = some m' → ∃ m, c.entry t q s = some m ∧ m'.core = m.core)
    (hu : ∀ {n s m'}, d.Orphaned n s m' → ∃ m, c.Orphaned n s m ∧ m'.core = m.core) : Placed d := by
  have held : ∀ {m'}, d.Held m' → ∃ m, c.Held m ∧ m'.core = m.core := by
    rintro m' (⟨t, q, s, hm⟩ | ⟨n, s, hm⟩)
    · obtain ⟨m, hm, hc⟩ := he hm
      exact ⟨m, .inl ⟨t, q, s, hm⟩, hc⟩
    · obtain ⟨m, hm, hc⟩ := hu hm
      exact ⟨m, .inr ⟨n, s, hm⟩, hc⟩
  constructor
  · intro m hm
    obtain ⟨m₀, hm₀, hc⟩ := held hm
    rw [Meta.appAck_eq_of_core hc]
    exact (h.lt hm₀).trans_le hn
  · intro m m' hm hm' ha
    obtain ⟨m₀, hm₀, hc⟩ := held hm
    obtain ⟨m₀', hm₀', hc'⟩ := held hm'
    rw [hc, hc']
    apply h.core hm₀ hm₀'
    rw [← Meta.appAck_eq_of_core hc, ← Meta.appAck_eq_of_core hc', ha]
  · intro t q s m n s' m' hm hm'
    obtain ⟨m₀, hm₀, hc⟩ := he hm
    obtain ⟨m₀', hm₀', hc'⟩ := hu hm'
    rw [Meta.appAck_eq_of_core hc, Meta.appAck_eq_of_core hc']
    exact h.apart hm₀ hm₀'

theorem Tracked.place_unique (h : Tracked A c) {t' : MsgEnum} {q' : String} {s' : ℤ}
    (hm : c.entry t q s = some m) (hm' : c.entry t' q' s' = some m') (ha : m.appAck = m'.appAck) :
    t = t' ∧ q = q' ∧ s = s' := by
  obtain ⟨msg, hx⟩ := h.entry hm
  obtain ⟨msg', hx'⟩ := h.entry hm'
  have he := h.eq_of_appAck hx hx' ha
  exact ⟨congrArg Queued.msgType he, congrArg Queued.queueIdHex he, congrArg Queued.seqNo he⟩

theorem Writes.placed (h : Writes A P c d) (ht : Tracked A c) (hp : Placed c) : Placed d := by
  induction h with
  | quiet h =>
    exact hp.of_cores h.nextObj_le (fun hm => ⟨_, by rwa [← h.entry], rfl⟩)
      fun hm => ⟨_, by rwa [Orphaned, ← h.unlinked], rfl⟩
  | trans h₁ _ ih ih' => exact ih' (h₁.tracked ht) (ih ht hp)
  | ensureQueue c t q =>
    refine hp.of_cores (Writes.ensureQueue (A := A) (P := fun _ => True) c t q).grows.nextObj_le
      (fun hm => ?_) fun hm => ?_
    · rw [entry_ensureQueue] at hm
      exact ⟨_, hm, rfl⟩
    · unfold MQTTClient.ensureQueue at hm
      split_ifs at hm <;> exact ⟨_, hm, rfl⟩
  | @register c t q d m msg hd ha ho hpk h =>
    have old : ∀ {t' q' s' m'}, (c.register t q d m msg).entry t' q' s' = some m' →
        m' = m ∨ c.entry t' q' s' = some m' := by
      intro t' q' s' m' hm
      rw [entry_register c t q d m msg hd] at hm
      split_ifs at hm
      · exact .inl (Option.some.inj hm).symm
      · exact .inr hm
    have held : ∀ {m'}, (c.register t q d m msg).Held m' → m' = m ∨ c.Held m' := by
      rintro m' (⟨t', q', s', hm⟩ | hm)
      · exact (old hm).imp id fun hm => .inl ⟨t', q', s', hm⟩
      · exact .inr (.inr hm)
    constructor
    · intro m' hm
      obtain rfl | hm := held hm
      · exact ha ▸ Nat.lt_succ_self _
      · exact (hp.lt hm).trans (Nat.lt_succ_self _)
    · intro m₁ m₂ hm₁ hm₂ he
      rcases held hm₁ with rfl | hm₁'
      · rcases held hm₂ with rfl | hm₂'
        · rfl
        · have := hp.lt hm₂'
          omega
      · rcases held hm₂ with rfl | hm₂'
        · have := hp.lt hm₁'
          omega
        · exact hp.core hm₁' hm₂' he
    · intro t' q' s' m₁ n s₂ m₂ hm₁ hm₂
      obtain rfl | hm₁ := old hm₁
      · have := hp.lt (.inr ⟨n, s₂, hm₂⟩)
        omega
      · exact hp.apart hm₁ hm₂
  | @shrink c t q d d' hd h =>
    refine hp.of_cores le_rfl (fun {t' q' s' m'} hm => ⟨m', ?_, rfl⟩) fun hm => ⟨_, hm, rfl⟩
    rw [entry_putQueue] at hm
    split_ifs at hm with he
    · rw [he.1, he.2, entry_of_queue hd]
      exact h.kept _ _ hm
    · exact hm
  | @unlink c t q d d' hd h hpu =>
    have old : ∀ {t' q' s' m'}, (c.unlinkQueue t q d').entry t' q' s' = some m' →
        c.entry t' q' s' = some m' ∧ ¬ (t' = t ∧ q' = q) := by
      intro t' q' s' m' hm
      rw [entry_unlinkQueue] at hm
      split_ifs at hm with he
      exact ⟨hm, he⟩
    have orphan : ∀ {n s' m'}, (c.unlinkQueue t q d').Orphaned n s' m' →
        c.entry t q s' = some m' ∨ c.Orphaned n s' m' := by
      rintro n s' m' ⟨e, he, hs⟩
      change (c.unlinked.set d'.ident d'.metas).get? n = some e at he
      rw [PyDict.get?_set] at he
      split_ifs at he
      · cases he
        exact .inl ((entry_of_queue hd s').trans (h.kept s' m' hs))
      · exact .inr ⟨e, he, hs⟩
    have held : ∀ {m'}, (c.unlinkQueue t q d').Held m' → c.Held m' := by
      rintro m' (⟨t', q', s', hm⟩ | ⟨n, s', hm⟩)
      · exact .inl ⟨t', q', s', (old hm).1⟩
      · exact (orphan hm).elim (fun hm => .inl ⟨t, q, s', hm⟩) fun hm => .inr ⟨n, s', hm⟩
    refine ⟨fun hm => hp.lt (held hm), fun hm hm' => hp.core (held hm) (held hm'), ?_⟩
    intro t' q' s' m₁ n s₂ m₂ hm₁ hm₂ ha
    obtain ⟨hm₁, hne⟩ := old hm₁
    rcases orphan hm₂ with hm₂ | hm₂
    · obtain ⟨ht', hq', -⟩ := ht.place_unique hm₁ hm₂ ha
      exact hne ⟨ht', hq'⟩
    · exact hp.apart hm₁ hm₂ ha
  | bump hm h =>
    exact hp.of_cores (grows_putMeta ..).nextObj_le (fun hm' => (entry_putMeta hm h).1 hm')
      fun hm' => orphaned_putMeta hm h hm'
  | resolve | ack | send | addHandler =>
    exact hp.of_cores le_rfl (fun hm => ⟨_, hm, rfl⟩) fun hm => ⟨_, hm, rfl⟩

theorem queueObject_get?_iff : (c.queueObject t q n).get? s = some m ↔
    (∃ d, c.queue t q = some d ∧ d.ident = n ∧ d.metas.get? s = some m) ∨
      (∀ d, c.queue t q = some d → d.ident ≠ n) ∧ c.Orphaned n s m := by
  have hu : ((c.unlinked.get? n).getD ∅).get? s = some m ↔ c.Orphaned n s m := by
    unfold Orphaned
    cases c.unlinked.get? n <;> simp
  unfold queueObject
  cases hd : c.queue t q with
  | none => simp [hu]
  | some d =>
    by_cases hn : d.ident = n
    · simp [hn]
    · simp [hn, hu]

theorem object_of_cores (he : ∀ {m'}, d.entry t q s = some m' →
      (∃ t q s m, c.entry t q s = some m ∧ m'.core = m.core) ∨ c.nextObj ≤ m'.appAck)
    (hid : ∀ e, c.queue t q = some e → ∃ e', d.queue t q = some e' ∧ e'.ident = e.ident)
    (hu : ∀ {m'}, d.Orphaned n s m' → ∃ m, c.Orphaned n s m ∧ m'.core = m.core)
    (hm : (d.queueObject t q n).get? s = some m') :
    (∃ m, (c.queueObject t q n).get? s = some m ∧ m'.core = m.core) ∨
      (∃ t q s m, c.entry t q s = some m ∧ m'.core = m.core) ∨ c.nextObj ≤ m'.appAck := by
  rcases queueObject_get?_iff.mp hm with ⟨e, hq, -, hs⟩ | ⟨hne, ho⟩
  · exact .inr (he ((entry_of_queue hq s).trans hs))
  · obtain ⟨m, hm, hc⟩ := hu ho
    refine .inl ⟨m, queueObject_get?_iff.mpr (.inr ⟨fun e hq => ?_, hm⟩), hc⟩
    obtain ⟨e', hq', hi⟩ := hid e hq
    exact hi ▸ hne e' hq'

theorem Writes.object_cases (h : Writes A P c d) (hm : (d.queueObject t q n).get? s = some m') :
    (∃ m, (c.queueObject t q n).get? s = some m ∧ m'.core = m.core) ∨
      (∃ t q s m, c.entry t q s = some m ∧ m'.core = m.core) ∨ c.nextObj ≤ m'.appAck := by
  have entry : ∀ {c d : MQTTClient KP}, Writes A P c d → ∀ {m'}, d.entry t q s = some m' →
      (∃ t q s m, c.entry t q s = some m ∧ m'.core = m.core) ∨ c.nextObj ≤ m'.appAck := by
    intro c d h m' hm
    rcases h.entry_cases hm with ⟨m, hm, hc⟩ | ⟨msg, -, -, hn⟩
    · exact .inl ⟨t, q, s, m, hm, hc⟩
    · exact .inr hn
  have put : ∀ {c : MQTTClient KP} {t' : MsgEnum} {q' : String} {d x : Queue},
      c.queue t' q' = some d → x.ident = d.ident → ∀ e, c.queue t q = some e →
        ∃ e', (c.putQueue t' q' x).queue t q = some e' ∧ e'.ident = e.ident := by
    intro c t' q' d x hd hi e he
    rw [queue_putQueue]
    split_ifs with hq
    · rw [hq.1, hq.2, hd] at he
      cases he
      exact ⟨x, rfl, hi⟩
    · exact ⟨e, he, rfl⟩
  induction h generalizing m' with
  | quiet h => exact .inl ⟨m', by rwa [← h.queueObject], rfl⟩
  | trans h₁ _ ih ih' =>
    rcases ih' hm with ⟨m₁, h₃, h₄⟩ | ⟨t, q, s, m₁, h₃, h₄⟩ | h₃
    · rcases ih h₃ with ⟨m₂, h₅, h₆⟩ | ⟨t, q, s, m₂, h₅, h₆⟩ | h₅
      · exact .inl ⟨m₂, h₅, h₄.trans h₆⟩
      · exact .inr (.inl ⟨t, q, s, m₂, h₅, h₄.trans h₆⟩)
      · exact .inr (.inr (Meta.appAck_eq_of_core h₄ ▸ h₅))
    · rcases h₁.entry_cases h₃ with ⟨m₂, h₅, h₆⟩ | ⟨msg, -, -, h₅⟩
      · exact .inr (.inl ⟨t, q, s, m₂, h₅, h₄.trans h₆⟩)
      · exact .inr (.inr (Meta.appAck_eq_of_core h₄ ▸ h₅))
    · exact .inr (.inr (h₁.grows.nextObj_le.trans h₃))
  | ensureQueue c t' q' =>
    refine object_of_cores (entry (.ensureQueue c t' q')) (fun e he => ?_) (fun ho => ?_) hm
    · rw [queue_ensureQueue]
      split_ifs with hq
      · rw [← hq.1, ← hq.2, he]
        exact ⟨e, rfl, rfl⟩
      · exact ⟨e, he, rfl⟩
    · unfold MQTTClient.ensureQueue at ho
      split_ifs at ho <;> exact ⟨_, ho, rfl⟩
  | register hd ha ho hpk h =>
    exact object_of_cores (entry (.register hd ha ho hpk h)) (put hd rfl) (fun ho => ⟨_, ho, rfl⟩) hm
  | shrink hd h =>
    exact object_of_cores (entry (.shrink hd h)) (put hd h.ident) (fun ho => ⟨_, ho, rfl⟩) hm
  | @unlink c t' q' d d' hd h hp =>
    rcases queueObject_get?_iff.mp hm with ⟨e, hq, -, hs⟩ | ⟨hne, e, he, hs⟩
    · exact .inr (entry (.unlink hd h hp) ((entry_of_queue hq s).trans hs))
    · change (c.unlinked.set d'.ident d'.metas).get? n = some e at he
      rw [PyDict.get?_set] at he
      split_ifs at he with hn
      · cases he
        exact .inr (.inl ⟨t', q', s, m', (entry_of_queue hd s).trans (h.kept s m' hs), rfl⟩)
      · refine .inl ⟨m', queueObject_get?_iff.mpr (.inr ⟨fun e' hq => ?_, e, he, hs⟩), rfl⟩
        by_cases hk : t = t' ∧ q = q'
        · rw [hk.1, hk.2, hd] at hq
          cases hq
          exact fun hi => hn (hi.symm.trans h.ident.symm)
        · apply hne e'
          rw [queue_unlinkQueue, if_neg hk]
          exact hq
  | @bump c t' q' n' s' m₁ m₂ hm₁ h =>
    refine object_of_cores (entry (.bump hm₁ h)) (fun e he => ?_) (orphaned_putMeta hm₁ h) hm
    obtain ⟨d, hd, -, hput⟩ | ⟨d, -, -, hput⟩ := putMeta_cases m₂ hm₁
    · rw [hput]
      exact put (x := { d with metas := d.metas.set s' m₂ }) hd rfl e he
    · rw [hput]
      exact ⟨e, he, rfl⟩
  | resolve | ack | send | addHandler => exact .inl ⟨m', hm, rfl⟩

end MQTTClient

end Sidewire
