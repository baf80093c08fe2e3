import Sidewire.Mqtt.Concrete
import Sidewire.Mqtt.Operations

/-! # Sequence numbers over a history

The number a message gets by default is one more than the largest number left
in its queue. It is new as long as the largest number ever used is still there,
and the only operation that takes numbers out of a queue drops all of them.
-/

namespace Sidewire

inductive QueueOp
  | queueMsg (rnd : ℕ) (now : ℚ) (msg : PyMsg) (dest q : String) (t : MsgEnum) (seqNo : Option ℤ)
  | dequeueMsg (q : String) (seqNo : Option ℤ) (t : MsgEnum)
  | processAppAck (pkt : AppPacket)

namespace MQTTClient

open Exec

variable {KP : Type} {A : Aio KP} {kp : KP} {handlers : HandlerSet} {c c' : MQTTClient KP}
  {t : MsgEnum} {q : String} {l : List ℤ} {op : QueueOp} {ops : List QueueOp}

def perform (A : Aio KP) (c : MQTTClient KP) : QueueOp → MQTTClient KP
  | .queueMsg rnd now msg dest q t seqNo => final (queueMsg A rnd now msg dest q t seqNo c)
  | .dequeueMsg q seqNo t => c.dequeueMsg q seqNo t
  | .processAppAck pkt => c.processAppAck pkt

def history (A : Aio KP) (kp : KP) (handlers : HandlerSet) (ops : List QueueOp) : MQTTClient KP :=
  ops.foldl (perform A) (init kp handlers)

/-- The sequence numbers used for a message type and a queue id, in order. -/
def used (c : MQTTClient KP) (t : MsgEnum) (q : String) : List ℤ :=
  (c.queued.filter fun x => x.msgType = t ∧ x.queueIdHex = q).map Queued.seqNo

theorem history_concat (ops : List QueueOp) (op : QueueOp) :
    history A kp handlers (ops ++ [op]) = perform A (history A kp handlers ops) op := by
  simp only [history, List.foldl_append, List.foldl_cons, List.foldl_nil]

theorem used_of_queued (h : c'.queued = c.queued) : c'.used t q = c.used t q := by
  simp only [used, h]

theorem used_append {x : Queued} (h : c'.queued = c.queued ++ [x]) :
    c'.used t q = c.used t q ++ if x.msgType = t ∧ x.queueIdHex = q then [x.seqNo] else [] := by
  simp only [used, h, List.filter_append, List.map_append]
  split_ifs with hx <;> simp [hx]

structure Holding (c : MQTTClient KP) (t : MsgEnum) (q : String) (l : List ℤ) : Prop where
  entries : ∀ s, (c.entry t q s).isSome ↔ s ∈ l
  oneShot : ∀ {t q s m}, c.entry t q s = some m → m.probeOneShot = false

theorem Holding.of_entry (h : Holding c t q l)
    (he : ∀ t q s, c'.entry t q s = c.entry t q s) : Holding c' t q l := by
  constructor
  · intro s
    rw [he]
    exact h.entries s
  · intro t q s m hm
    rw [he] at hm
    exact h.oneShot hm

theorem Holding.ensureQueue (h : Holding c t q l) (t' : MsgEnum) (q' : String) :
    Holding (c.ensureQueue t' q') t q l := h.of_entry (entry_ensureQueue c t' q')

theorem Holding.sameBook (h : Holding c t q l) (hs : SameBook c c') : Holding c' t q l :=
  h.of_entry hs.entry

theorem queued_ensureQueue (c : MQTTClient KP) (t : MsgEnum) (q : String) :
    (c.ensureQueue t q).queued = c.queued := by
  unfold MQTTClient.ensureQueue
  split_ifs <;> rfl

theorem Holding.register (h : Holding c t q l) {t' : MsgEnum} {q' : String} {d : Queue} {m : Meta}
    {msg : PyMsg} (hd : c.queue t' q' = some d) (hm : m.probeOneShot = false) :
    Holding (c.register t' q' d m msg) t q (l ++ if t' = t ∧ q' = q then [m.seqNo] else []) := by
  constructor
  · intro s
    rw [entry_register c t' q' d m msg hd]
    split_ifs with hs hq hq
    · simp [hs.2.2]
    · exact absurd ⟨hs.1.symm, hs.2.1.symm⟩ hq
    · have hne : s ≠ m.seqNo := fun he => hs ⟨hq.1.symm, hq.2.symm, he⟩
      simp [h.entries, hne]
    · simp [h.entries]
  · intro t₁ q₁ s m₁ hm₁
    rw [entry_register c t' q' d m msg hd] at hm₁
    split_ifs at hm₁ with hs
    · cases hm₁
      exact hm
    · exact h.oneShot hm₁

theorem Holding.queueMsg (h : Holding c t q l) (rnd : ℕ) (now : ℚ) (msg : PyMsg) (dest q' : String)
    (t' : MsgEnum) (seqNo : Option ℤ)
    (hc : c' = final (queueMsg A rnd now msg dest q' t' seqNo c)) :
    ∃ l', c'.used t q = c.used t q ++ l' ∧ Holding c' t q (l ++ l') := by
  subst hc
  obtain hs | ⟨c₁, hs, he | ⟨d, out, hd, he⟩⟩ := queueMsg_spec A rnd now msg dest q' t' seqNo c
  · refine ⟨[], ?_, ?_⟩
    · rw [List.append_nil, used_of_queued hs.queued]
    · rw [List.append_nil]
      exact h.sameBook hs
  · refine ⟨[], ?_, ?_⟩
    · rw [he, List.append_nil, used_of_queued (hs.queued.trans (queued_ensureQueue ..))]
    · rw [he, List.append_nil]
      exact (h.ensureQueue t' q').sameBook hs
  · rw [he]
    refine ⟨_, ?_, ((h.ensureQueue t' q').sameBook hs).register hd rfl⟩
    rw [used_append rfl, used_of_queued (hs.queued.trans (queued_ensureQueue ..))]

theorem Holding.dequeueMsg (h : Holding c t q l) (q' : String) (seqNo : Option ℤ) (t' : MsgEnum) :
    (c.dequeueMsg q' seqNo t').used t q = c.used t q ∧
      Holding (c.dequeueMsg q' seqNo t') t q
        (if seqNo = none ∧ t' = t ∧ q' = q then [] else l) := by
  unfold MQTTClient.dequeueMsg
  cases hd : c.queue t' q' with
  | none =>
    refine ⟨rfl, ?_, h.oneShot⟩
    intro s
    split_ifs with hq
    · obtain ⟨-, rfl, rfl⟩ := hq
      simp [entry, hd]
    · exact h.entries s
  | some d =>
    cases seqNo with
    | none =>
      refine ⟨rfl, ?_, ?_⟩
      · intro s
        simp only
        rw [entry_unlinkQueue]
        by_cases hq : t' = t ∧ q' = q
        · simp [hq.1, hq.2]
        · have hq' : ¬ (t = t' ∧ q = q') := fun he => hq ⟨he.1.symm, he.2.symm⟩
          simp only [if_neg hq', true_and, if_neg hq]
          exact h.entries s
      · intro t₁ q₁ s m hm
        simp only at hm
        rw [entry_unlinkQueue] at hm
        split_ifs at hm
        exact h.oneShot hm
    | some s =>
      have hne : ¬ ((some s : Option ℤ) = none ∧ t' = t ∧ q' = q) := fun hq => by cases hq.1
      rw [if_neg hne]
      simp only
      split
      · exact ⟨rfl, h⟩
      · split_ifs
        · exact ⟨rfl, h⟩
        · exact ⟨rfl, h.of_entry fun _ _ _ => rfl⟩

theorem ackIn_eq_of_not_oneShot {pkt : AppPacket} (hc : c.ackIn pkt t = some c')
    (h : ∀ {m}, c.entry t pkt.queueIdHex pkt.seqNo = some m → m.probeOneShot = false) :
    c'.queued = c.queued ∧ c'.msgQueues = c.msgQueues := by
  unfold ackIn at hc
  split at hc
  · cases hc
  · rename_i m hm
    split_ifs at hc with hd hdone ho
    · cases hc
      exact ⟨rfl, rfl⟩
    · rw [h hm] at ho
      cases ho
    · cases hc
      exact ⟨rfl, rfl⟩

theorem Holding.processAppAck (h : Holding c t q l) (pkt : AppPacket) :
    (c.processAppAck pkt).used t q = c.used t q ∧ Holding (c.processAppAck pkt) t q l := by
  have same : ∀ {c' : MQTTClient KP}, c'.queued = c.queued ∧ c'.msgQueues = c.msgQueues →
      c'.used t q = c.used t q ∧ Holding c' t q l := by
    rintro c' ⟨hq, hm⟩
    exact ⟨used_of_queued hq, h.of_entry fun t q s => by simp only [entry, queue, hm]⟩
  unfold MQTTClient.processAppAck
  cases hmsg : c.ackIn pkt .msg with
  | some c' => exact same (ackIn_eq_of_not_oneShot hmsg h.oneShot)
  | none =>
    cases hprobe : c.ackIn pkt .probe with
    | some c' => exact same (ackIn_eq_of_not_oneShot hprobe h.oneShot)
    | none => exact ⟨rfl, h⟩

theorem Holding.perform (h : Holding c t q l) (op : QueueOp) :
    ∃ l', (perform A c op).used t q = c.used t q ++ l' ∧
      (op = .dequeueMsg q none t ∧ l' = [] ∧ Holding (perform A c op) t q [] ∨
        op ≠ .dequeueMsg q none t ∧ Holding (perform A c op) t q (l ++ l')) := by
  cases op with
  | queueMsg rnd now msg dest q' t' seqNo =>
    obtain ⟨l', hu, hh⟩ := h.queueMsg rnd now msg dest q' t' seqNo rfl
    exact ⟨l', hu, .inr ⟨by simp, hh⟩⟩
  | processAppAck pkt =>
    obtain ⟨hu, hh⟩ := h.processAppAck pkt
    refine ⟨[], ?_, .inr ⟨by simp, ?_⟩⟩
    · rw [List.append_nil]
      exact hu
    · rw [List.append_nil]
      exact hh
  | dequeueMsg q' seqNo t' =>
    obtain ⟨hu, hh⟩ := h.dequeueMsg q' seqNo t'
    refine ⟨[], ?_, ?_⟩
    · rw [List.append_nil]
      exact hu
    · split_ifs at hh with hq
      · obtain ⟨rfl, rfl, rfl⟩ := hq
        exact .inl ⟨rfl, rfl, hh⟩
      · right
        rw [List.append_nil]
        refine ⟨?_, hh⟩
        rintro ⟨⟩
        exact hq ⟨rfl, rfl, rfl⟩

theorem holding_init : Holding (init kp handlers) t q [] := by
  constructor
  · intro s
    simp [entry, queue, init]
  · intro t q s m hm
    simp [entry, queue, init] at hm

theorem tracked_init : Tracked A (init kp handlers) where
  entry hm := by simp [entry, queue, init] at hm
  oneShot hm := by simp [entry, queue, init] at hm
  unlinked hd _ := by simp [init] at hd
  sent := by simp [init]
  packed := by simp [init]
  appAck_lt := by simp [init]
  nodup := by simp [init]
  resolved := by simp [init]
  acked := by simp [init]

theorem tracked_history (hA : A.Lawful) (kp : KP) (handlers : HandlerSet) (ops : List QueueOp) :
    Tracked A (history A kp handlers ops) := by
  induction ops using List.reverseRecOn with
  | nil => exact tracked_init
  | append_singleton ops op ih =>
    rw [history_concat]
    cases op with
    | queueMsg =>
      exact (writes_queueMsg (P := fun _ => True) hA fun _ _ _ => trivial).tracked ih
    | dequeueMsg =>
      exact (writes_dequeueMsg (A := A) (P := fun _ => True) (fun _ => trivial)
        fun _ _ _ _ => trivial).tracked ih
    | processAppAck =>
      exact (writes_processAppAck (P := fun _ => True) ih (fun _ _ _ _ _ => trivial) trivial
        trivial).tracked ih

theorem nonneg_of_used (hc : Tracked A c) {n : ℤ} (hn : n ∈ c.used t q) : 0 ≤ n := by
  obtain ⟨x, hx, rfl⟩ := List.mem_map.mp hn
  obtain ⟨now, signed, rnd, hs, -⟩ := hc.packed x (List.mem_filter.mp hx).1
  exact hs.seqNo_nonneg

theorem holding_history (A : Aio KP) (kp : KP) (handlers : HandlerSet) (t : MsgEnum) (q : String)
    (ops : List QueueOp) :
    ∃ dropped l, (history A kp handlers ops).used t q = dropped ++ l ∧
      Holding (history A kp handlers ops) t q l ∧
      (∀ ops₁ ops₂, ops = ops₁ ++ .dequeueMsg q none t :: ops₂ →
        (history A kp handlers ops₁).used t q <+: dropped) ∧
      (dropped = [] ∨ ∃ ops₁ ops₂, ops = ops₁ ++ .dequeueMsg q none t :: ops₂ ∧
        (history A kp handlers ops₁).used t q = dropped) := by
  induction ops using List.reverseRecOn with
  | nil => exact ⟨[], [], rfl, holding_init, by simp, .inl rfl⟩
  | append_singleton ops op ih =>
    obtain ⟨dropped, l, hu, hh, hbefore, hlast⟩ := ih
    rw [history_concat]
    -- a drop in the longer history is its last operation or one of the shorter history
    have split : ∀ {ops₁ ops₂ : List QueueOp},
        ops ++ [op] = ops₁ ++ .dequeueMsg q none t :: ops₂ →
        ops = ops₁ ∧ op = .dequeueMsg q none t ∨
          ∃ ops₂, ops = ops₁ ++ .dequeueMsg q none t :: ops₂ := by
      intro ops₁ ops₂ h
      induction ops₂ using List.reverseRecOn with
      | nil =>
        obtain ⟨rfl, he⟩ := List.append_inj' h rfl
        exact .inl ⟨rfl, List.singleton_inj.mp he⟩
      | append_singleton ops₂ op' =>
        rw [← List.cons_append, ← List.append_assoc] at h
        exact .inr ⟨ops₂, (List.append_inj' h rfl).1⟩
    obtain ⟨l', hu', ⟨rfl, rfl, hh'⟩ | ⟨hne, hh'⟩⟩ := hh.perform (A := A) op
    · refine ⟨dropped ++ l, [], ?_, hh', ?_, ?_⟩
      · rw [hu', hu, List.append_nil]
      · intro ops₁ ops₂ h
        obtain ⟨rfl, -⟩ | ⟨ops₂, h⟩ := split h
        · rw [hu]
        · exact (hbefore ops₁ ops₂ h).trans (List.prefix_append _ _)
      · exact .inr ⟨ops, [], rfl, hu⟩
    · refine ⟨dropped, l ++ l', ?_, hh', ?_, ?_⟩
      · rw [hu', hu, List.append_assoc]
      · intro ops₁ ops₂ h
        obtain ⟨-, rfl⟩ | ⟨ops₂, h⟩ := split h
        · exact absurd rfl hne
        · exact hbefore ops₁ ops₂ h
      · apply hlast.imp id
        rintro ⟨ops₁, ops₂, rfl, he⟩
        exact ⟨ops₁, ops₂ ++ [op], by simp, he⟩

theorem Holding.nextSeqNo (h : Holding c t q l) :
    l = [] ∧ c.nextSeqNo t q = 0 ∨ ∃ n ∈ l, (∀ n' ∈ l, n' ≤ n) ∧ c.nextSeqNo t q = n + 1 := by
  obtain ⟨hn, hz⟩ | ⟨n, hn, hle, hz⟩ := nextSeqNo_cases c t q
  · left
    refine ⟨List.eq_nil_iff_forall_not_mem.mpr fun s hs => ?_, hz⟩
    rw [← h.entries, hn s] at hs
    cases hs
  · exact .inr ⟨n, (h.entries n).mp hn, fun n' hn' => hle n' ((h.entries n').mpr hn'), hz⟩

/-- The number chosen by default is larger than every number used before exactly if after each
drop of the queue a number as large as those used before it was used again. -/
theorem default_seqNo_fresh_iff (hA : A.Lawful) {now : ℚ} {msg : PyMsg} {dest : String} {s : ℤ}
    (h : orderedAckSendBegin A now msg dest q t none (history A kp handlers ops) = .ok s c') :
    (∀ n ∈ (history A kp handlers ops).used t q, n < s) ↔
      ∀ ops₁ ops₂, ops = ops₁ ++ .dequeueMsg q none t :: ops₂ →
        ∀ n ∈ (history A kp handlers ops₁).used t q,
          ∃ n' ∈ ((history A kp handlers ops).used t q).drop
            ((history A kp handlers ops₁).used t q).length, n ≤ n' := by
  have hs : s = (history A kp handlers ops).nextSeqNo t q := by
    obtain ⟨e, he, -⟩ | ⟨d, he, -⟩ := orderedAckSendBegin_spec (A := A) now msg dest q t none
      (history A kp handlers ops)
    · rw [he] at h
      cases h
    · rw [he] at h
      cases h
      rfl
  have htr := tracked_history hA kp handlers ops
  obtain ⟨dropped, l, hu, hh, hbefore, hlast⟩ := holding_history A kp handlers t q ops
  have hnonneg : ∀ n ∈ dropped ++ l, 0 ≤ n := fun n hn => nonneg_of_used htr (hu ▸ hn)
  rw [hu, hs]
  constructor
  · intro hlt ops₁ ops₂ hops n hn
    have hpre := hbefore ops₁ ops₂ hops
    have hlt := hlt n (List.mem_append_left _ (hpre.subset hn))
    obtain ⟨rfl, hz⟩ | ⟨m, hm, hle, hz⟩ := hh.nextSeqNo
    · have hn := hnonneg n (List.mem_append_left _ (hpre.subset hn))
      omega
    · refine ⟨m, ?_, by omega⟩
      rw [List.drop_append_of_le_length hpre.length_le]
      exact List.mem_append_right _ hm
  · intro hcond n hn
    have hl : ∃ n' ∈ l, n ≤ n' := by
      rcases List.mem_append.mp hn with hn | hn
      · obtain rfl | ⟨ops₁, ops₂, hops, he⟩ := hlast
        · cases hn
        · have h' := hcond ops₁ ops₂ hops n (he ▸ hn)
          rwa [he, List.drop_left] at h'
      · exact ⟨n, hn, le_rfl⟩
    obtain ⟨n', hn', hle'⟩ := hl
    obtain ⟨rfl, -⟩ | ⟨m, hm, hle, hz⟩ := hh.nextSeqNo
    · cases hn'
    · have := hle n' hn'
      omega

open Concrete

def dequeuedAfterOne (seqNo : Option ℤ) : List QueueOp :=
  [.queueMsg 0 100 (.str "hello") (concrete.pkHex 3) (queueId 'a') .msg none,
    .dequeueMsg (queueId 'a') seqNo .msg]

theorem default_seqNo_fresh_after_dequeued_seqNo :
    ∃ s c', orderedAckSendBegin concrete 101 (.str "again") (concrete.pkHex 3) (queueId 'a') .msg
        none (history concrete 1 .empty (dequeuedAfterOne (some 0))) = .ok s c' ∧
      ∀ n ∈ (history concrete 1 .empty (dequeuedAfterOne (some 0))).used .msg (queueId 'a'),
        n < s := by
  obtain ⟨e, -, -, hne⟩ | ⟨c', h, -⟩ := orderedAckSendBegin_spec (A := concrete) 101 (.str "again")
    (concrete.pkHex 3) (queueId 'a') .msg none
    (history concrete 1 .empty (dequeuedAfterOne (some 0)))
  · exact absurd ⟨by decide +kernel, by decide +kernel⟩ hne
  · refine ⟨_, c', h, (default_seqNo_fresh_iff concrete_lawful h).mpr fun ops₁ ops₂ hops => ?_⟩
    have hmem : QueueOp.dequeueMsg (queueId 'a') none .msg ∈ dequeuedAfterOne (some 0) :=
      hops ▸ List.mem_append_right _ (List.mem_cons_self ..)
    simp [dequeuedAfterOne] at hmem

theorem default_seqNo_reused_after_dequeued_queue :
    ∃ s c', orderedAckSendBegin concrete 101 (.str "again") (concrete.pkHex 3) (queueId 'a') .msg
        none (history concrete 1 .empty (dequeuedAfterOne none)) = .ok s c' ∧
      s ∈ (history concrete 1 .empty (dequeuedAfterOne none)).used .msg (queueId 'a') := by
  obtain ⟨e, -, -, hne⟩ | ⟨c', h, -⟩ := orderedAckSendBegin_spec (A := concrete) 101 (.str "again")
    (concrete.pkHex 3) (queueId 'a') .msg none (history concrete 1 .empty (dequeuedAfterOne none))
  · exact absurd ⟨by decide +kernel, by decide +kernel⟩ hne
  · exact ⟨_, c', h, by decide +kernel⟩

end MQTTClient

end Sidewire
