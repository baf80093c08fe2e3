import Sidewire.Mqtt.Operations

/-! # The messages of one queue id

Messages queued with the default sequence number are numbered consecutively from
zero, as long as the queue is not dequeued: the table under the queue id holds
exactly the numbers given out so far.
-/

namespace Sidewire

namespace MQTTClient

open Exec

variable {KP : Type} {A : Aio KP} {P : Write → Prop} {c c' : MQTTClient KP} {q : String}

def stream (c : MQTTClient KP) (q : String) : List Queued :=
  c.queued.filter fun x => x.msgType = .msg ∧ x.queueIdHex = q

structure Numbered (q : String) (c : MQTTClient KP) : Prop where
  seqNo : ∀ (k : ℕ) (x : Queued), (c.stream q)[k]? = some x → x.seqNo = k
  entries : ∀ s, (c.entry .msg q s).isSome ↔ 0 ≤ s ∧ s < (c.stream q).length

theorem mem_stream {x : Queued} :
    x ∈ c.stream q ↔ x ∈ c.queued ∧ x.msgType = .msg ∧ x.queueIdHex = q := by
  simp [stream, List.mem_filter]

theorem stream_of_queued (h : c'.queued = c.queued) : c'.stream q = c.stream q := by
  rw [stream, h]
  rfl

theorem Numbered.nextSeqNo (h : Numbered q c) : c.nextSeqNo .msg q = (c.stream q).length := by
  obtain ⟨hn, hz⟩ | ⟨n, hn, hle, hz⟩ := nextSeqNo_cases c .msg q
  · have h₀ := h.entries 0
    rw [hn 0] at h₀
    simp only [Option.isSome_none, Bool.false_eq_true, le_refl, true_and, false_iff] at h₀
    omega
  · have hlast := hle ((c.stream q).length - 1)
    rw [h.entries] at hn hlast
    omega

theorem Numbered.of_writes (h : Numbered q c) (hw : Writes A P c c')
    (hreg : ∀ x, P (.register x) → ¬ (x.msgType = .msg ∧ x.queueIdHex = q))
    (hforget : ∀ s, ¬ P (.forget .msg q s)) (hunlink : ¬ P (.unlink .msg q)) :
    Numbered q c' ∧ c'.stream q = c.stream q := by
  have hstream : c'.stream q = c.stream q := by
    obtain ⟨l, hl, hP⟩ := hw.queued_append
    have hnil : l.filter (fun x => x.msgType = .msg ∧ x.queueIdHex = q) = [] :=
      List.filter_eq_nil_iff.mpr fun x hx hq => hreg x (hP x hx) (of_decide_eq_true hq)
    rw [stream, hl, List.filter_append, hnil, List.append_nil]
    rfl
  refine ⟨⟨by rw [hstream]; exact h.seqNo, fun s => ?_⟩, hstream⟩
  rw [hstream, ← h.entries, Option.isSome_iff_exists, Option.isSome_iff_exists]
  constructor
  · rintro ⟨m, hm⟩
    obtain ⟨m', hm', -⟩ | ⟨msg, hr, -⟩ := hw.entry_cases hm
    · exact ⟨m', hm'⟩
    · exact absurd ⟨rfl, rfl⟩ (hreg _ hr)
  · rintro ⟨m, hm⟩
    obtain ⟨m', hm', -⟩ | hf | hu | ⟨x, hr, hx₁, hx₂, -⟩ := hw.entry_kept hm
    · exact ⟨m', hm'⟩
    · exact absurd hf (hforget s)
    · exact absurd hu hunlink
    · exact absurd ⟨hx₁, hx₂⟩ (hreg x hr)

theorem Numbered.of_eq (h : Numbered q c) (hq : c'.queued = c.queued)
    (he : ∀ s, c'.entry .msg q s = c.entry .msg q s) : Numbered q c' := by
  refine ⟨by rw [stream_of_queued hq]; exact h.seqNo, fun s => ?_⟩
  rw [he, stream_of_queued hq]
  exact h.entries s

theorem Numbered.queueMsg (h : Numbered q c) (A : Aio KP) (rnd : ℕ) (now : ℚ) (msg : PyMsg)
    (dest : String) (hc' : c' = final (queueMsg A rnd now msg dest q .msg none c)) :
    Numbered q c' ∧ (c'.queued = c.queued ∨ ∃ x, c'.queued = c.queued ++ [x] ∧ x.msgType = .msg ∧
      x.queueIdHex = q ∧ x.msg = msg ∧ x.destPkHex = dest) := by
  subst hc'
  have hens : (c.ensureQueue .msg q).queued = c.queued := by
    unfold MQTTClient.ensureQueue; split_ifs <;> rfl
  obtain hs | ⟨c₁, hs, he | ⟨d, out, hd, he⟩⟩ := queueMsg_spec A rnd now msg dest q .msg none c
  · exact ⟨h.of_eq hs.queued fun s => hs.entry .msg q s, .inl hs.queued⟩
  · rw [he]
    exact ⟨h.of_eq (hs.queued.trans hens) fun s => (hs.entry .msg q s).trans (entry_ensureQueue ..),
      .inl (hs.queued.trans hens)⟩
  · let m := c₁.newMeta now dest (c.nextSeqNo .msg q) out false
    have hn : m.seqNo = (c.stream q).length := h.nextSeqNo
    have hq : (c₁.register .msg q d m msg).queued = c.queued ++ [Queued.of .msg q m.seqNo m msg] := by
      change c₁.queued ++ _ = _
      rw [hs.queued, hens]
      rfl
    have hstream : (c₁.register .msg q d m msg).stream q =
        c.stream q ++ [Queued.of .msg q m.seqNo m msg] := by
      rw [stream, hq, List.filter_append]
      simp [stream, Queued.of]
    rw [he, Option.getD_none]
    refine ⟨⟨fun k x hx => ?_, fun s => ?_⟩, .inr ⟨_, hq, rfl, rfl, rfl, rfl⟩⟩
    · rw [hstream, List.getElem?_append] at hx
      split_ifs at hx with hk
      · exact h.seqNo k x hx
      · obtain ⟨hk', rfl⟩ : k - (c.stream q).length = 0 ∧ _ = x := by
          rw [List.getElem?_singleton] at hx
          split_ifs at hx with hk'
          exact ⟨hk', Option.some.inj hx⟩
        change m.seqNo = k
        omega
    · rw [hstream, entry_register c₁ .msg q d m msg hd, hs.entry, entry_ensureQueue]
      have hs' := h.entries s
      simp only [List.length_append, List.length_singleton, Nat.cast_add, Nat.cast_one, true_and]
      split_ifs with hsm
      · simp only [Option.isSome_some, true_iff]
        omega
      · rw [hs']
        omega

end MQTTClient

end Sidewire
