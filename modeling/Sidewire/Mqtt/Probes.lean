import Sidewire.Lib.Machine
import Sidewire.Mqtt.Addresses

/-! # Outstanding probes

A probe waits in the table for the ack that resolves it. Its number is the number
of probes its queue still holds, and acks take probes out in any order, so a new
probe may get the number of one that is still waiting and replace it. A message
queued under the number of a probe, for the same destination, takes the probe's
ack. A probe is safe as long as neither happens.
-/

namespace Sidewire

structure Probe where
  queueIdHex : String
  seqNo : ℤ
  destPkHex : String
  appAck : ℕ
  deriving DecidableEq

structure Prober (KP : Type) where
  client : MQTTClient KP
  probes : List Probe

inductive ProbeAction
  | sendProbe (rnd : ℕ) (now : ℚ) (dest q : String) (res : Except PyExc Unit)
  | queueMsg (rnd : ℕ) (now : ℚ) (msg : PyMsg) (dest q : String) (t : MsgEnum) (seqNo : Option ℤ)
  | processAppAck (pkt : AppPacket)

namespace Prober

open Exec MQTTClient

variable {KP : Type} {A : Aio KP} {r r' : Prober KP} {a : ProbeAction} {p : Probe}
  {c c' d : MQTTClient KP} {pkt : AppPacket} {t t' : MsgEnum} {q q' dest : String} {s s' : ℤ}
  {m : Meta} {n : ℕ}

/-- Calls and acks, one after the other. A call that raises gives its caller no probe. -/
def step (A : Aio KP) (r : Prober KP) : ProbeAction → Option (Prober KP)
  | .sendProbe rnd now dest q res =>
    match sendProbe A rnd now dest q res r.client with
    | .ok ((q, s), a) c => some ⟨c, r.probes ++ [⟨q, s, dest, a⟩]⟩
    | .error _ c => some { r with client := c }
  | .queueMsg rnd now msg dest q t seqNo =>
    some { r with client := final (queueMsg A rnd now msg dest q t seqNo r.client) }
  | .processAppAck pkt => some { r with client := r.client.processAppAck pkt }

def start (kp : KP) (handlers : HandlerSet) : Prober KP := ⟨init kp handlers, []⟩

def Registered (c : MQTTClient KP) (p : Probe) : Prop :=
  ∃ m, c.entry .probe p.queueIdHex p.seqNo = some m ∧ m.appAck = p.appAck

def Ackable (c : MQTTClient KP) (p : Probe) : Prop :=
  ∀ pkt : AppPacket, pkt.queueIdHex = p.queueIdHex → pkt.seqNo = p.seqNo →
    pkt.srcPkHex = p.destPkHex → p.appAck ∈ (c.processAppAck pkt).resolved

def NoneLost (r : Prober KP) : Prop :=
  ∀ p ∈ r.probes, p.appAck ∉ r.client.resolved → Registered r.client p ∧ Ackable r.client p

/-- The action takes no waiting probe's number for a new probe, gives no probe the number of a
message to its destination, and no message the number of a waiting probe to its destination. -/
def Apart (r : Prober KP) : ProbeAction → Prop
  | .sendProbe _ _ dest q _ =>
    (∀ p ∈ r.probes, p.queueIdHex = q → p.seqNo = r.client.probeNumber q →
      p.appAck ∈ r.client.resolved) ∧
    ∀ m ∈ r.client.entry .msg q (r.client.probeNumber q), m.destPkHex ≠ dest
  | .queueMsg _ _ _ dest q t seqNo =>
    t = .msg → r.client.entry .msg q (seqNo.getD (r.client.nextSeqNo .msg q)) = none →
      ∀ p ∈ r.probes, p.queueIdHex = q → p.seqNo = seqNo.getD (r.client.nextSeqNo .msg q) →
        p.destPkHex = dest → p.appAck ∈ r.client.resolved
  | .processAppAck _ => True

structure Kept (c : MQTTClient KP) (p : Probe) : Prop where
  registered : ∃ m, c.entry .probe p.queueIdHex p.seqNo = some m ∧ m.appAck = p.appAck ∧
    m.destPkHex = p.destPkHex
  apart : ∀ m, c.entry .msg p.queueIdHex p.seqNo = some m → m.destPkHex ≠ p.destPkHex

structure Inv (A : Aio KP) (r : Prober KP) : Prop where
  tracked : Tracked A r.client
  kept : ∀ p ∈ r.probes, p.appAck ∉ r.client.resolved → Kept r.client p

theorem Inv.noneLost (h : Inv A r) : NoneLost r := by
  intro p hp hopen
  obtain ⟨⟨m, hm, hack, hdest⟩, hapart⟩ := h.kept p hp hopen
  refine ⟨⟨m, hm, hack⟩, ?_⟩
  rintro pkt hq hs hsrc
  apply mem_resolved_processAppAck.mpr
  left
  have hmsg : r.client.acks pkt .msg = none := by
    rw [Option.eq_none_iff_forall_ne_some]
    intro m' hm'
    obtain ⟨hentry, hdest'⟩ := acks_eq_some_iff.mp hm'
    rw [hq, hs] at hentry
    exact hapart m' hentry (hdest'.trans hsrc)
  have hprobe : r.client.acks pkt .probe = some m := by
    rw [acks_eq_some_iff, hq, hs, hsrc]
    exact ⟨hm, hdest⟩
  exact ⟨m, by rw [hmsg, hprobe]; rfl, hack.symm⟩

theorem entry_deleteEntry (c : MQTTClient KP) (t : MsgEnum) (q : String) (s : ℤ) (t' : MsgEnum)
    (q' : String) (s' : ℤ) : (c.deleteEntry t q s).entry t' q' s' =
      if t' = t ∧ q' = q ∧ s' = s then none else c.entry t' q' s' := by
  unfold deleteEntry
  split
  next hd =>
    split_ifs with heq
    · obtain ⟨rfl, rfl, rfl⟩ := heq
      rw [entry, hd]
      rfl
    · rfl
  next dq hd =>
    have herase : ∀ s', (dq.metas.erase s).get? s' = if s' = s then none else dq.metas.get? s' :=
      fun s' => PyDict.get?_erase ..
    simp only
    split_ifs with hempty heq heq
    · obtain ⟨rfl, rfl, rfl⟩ := heq
      rw [entry_unlinkQueue, if_pos ⟨rfl, rfl⟩]
    · rw [entry_unlinkQueue]
      split_ifs with hq
      · obtain ⟨rfl, rfl⟩ := hq
        have hs : s' ≠ s := fun hs => heq ⟨rfl, rfl, hs⟩
        have hnone : (dq.metas.erase s).get? s' = none := by
          rw [PyDict.get?_eq_none_iff, hempty]
          exact List.not_mem_nil
        rw [herase, if_neg hs] at hnone
        rw [entry_of_queue hd, hnone]
      · rfl
    · obtain ⟨rfl, rfl, rfl⟩ := heq
      rw [entry_putQueue, if_pos ⟨rfl, rfl⟩, herase, if_pos rfl]
    · rw [entry_putQueue]
      split_ifs with hq
      · obtain ⟨rfl, rfl⟩ := hq
        have hs : s' ≠ s := fun hs => heq ⟨rfl, rfl, hs⟩
        rw [herase, if_neg hs, entry_of_queue hd]
      · rfl

theorem entry_ackIn (h : c.ackIn pkt t = some c') :
    (∀ m, c'.entry t' q s = some m → c.entry t' q s = some m) ∧
      ∀ m, c.entry t' q s = some m → m.appAck ∉ c'.resolved → c'.entry t' q s = some m := by
  unfold ackIn at h
  split at h
  · cases h
  next m₀ hm₀ =>
    split_ifs at h with hdest hdone hshot
    · cases h
      exact ⟨fun _ hm => hm, fun _ hm _ => hm⟩
    · cases h
      have hentry : ∀ t' q s, (MQTTClient.deleteEntry { c.setResult m₀ with
          acked := m₀.appAck :: c.acked } t pkt.queueIdHex pkt.seqNo).entry t' q s =
          if t' = t ∧ q = pkt.queueIdHex ∧ s = pkt.seqNo then none else c.entry t' q s :=
        fun t' q s => entry_deleteEntry ..
      rw [hentry]
      constructor
      · intro m hm
        split_ifs at hm
        exact hm
      · intro m hm hopen
        rw [if_neg]
        · exact hm
        · rintro ⟨rfl, rfl, rfl⟩
          rw [hm₀] at hm
          cases hm
          apply hopen
          rw [resolved_deleteEntry]
          exact List.mem_cons_self ..
    · cases h
      exact ⟨fun _ hm => hm, fun _ hm _ => hm⟩

theorem entry_processAppAck (c : MQTTClient KP) (pkt : AppPacket) (t : MsgEnum) (q : String)
    (s : ℤ) :
    (∀ m, (c.processAppAck pkt).entry t q s = some m → c.entry t q s = some m) ∧
      ∀ m, c.entry t q s = some m → m.appAck ∉ (c.processAppAck pkt).resolved →
        (c.processAppAck pkt).entry t q s = some m := by
  unfold processAppAck
  cases hmsg : c.ackIn pkt .msg with
  | some c' => exact entry_ackIn hmsg
  | none =>
    cases hprobe : c.ackIn pkt .probe with
    | some c' => exact entry_ackIn hprobe
    | none => exact ⟨fun _ hm => hm, fun _ hm _ => hm⟩

theorem Kept.processAppAck (h : Kept c p) (pkt : AppPacket)
    (hopen : p.appAck ∉ (c.processAppAck pkt).resolved) : Kept (c.processAppAck pkt) p := by
  obtain ⟨m, hm, hack, hdest⟩ := h.registered
  constructor
  · refine ⟨m, ?_, hack, hdest⟩
    apply (entry_processAppAck c pkt .probe p.queueIdHex p.seqNo).2 m hm
    rwa [hack]
  · intro m' hm'
    exact h.apart m' ((entry_processAppAck c pkt .msg p.queueIdHex p.seqNo).1 m' hm')

theorem Kept.writes {P : Write → Prop} (h : Kept c p) (hw : Writes A P c d)
    (hforget : ∀ t q s, ¬ P (.forget t q s)) (hunlink : ∀ t q, ¬ P (.unlink t q))
    (hprobe : ∀ x, P (.register x) → x.msgType = .probe → x.queueIdHex = p.queueIdHex →
      x.seqNo ≠ p.seqNo)
    (hmsg : ∀ x, P (.register x) → x.msgType = .msg → x.queueIdHex = p.queueIdHex →
      x.seqNo = p.seqNo → x.destPkHex ≠ p.destPkHex) : Kept d p := by
  obtain ⟨m, hm, hack, hdest⟩ := h.registered
  constructor
  · obtain ⟨m', hm', hcore⟩ | hlost | hlost | ⟨x, hx, htype, hqueue, hseq⟩ := hw.entry_kept hm
    · exact ⟨m', hm', (Meta.appAck_eq_of_core hcore).trans hack,
        (Meta.destPkHex_eq_of_core hcore).trans hdest⟩
    · exact absurd hlost (hforget _ _ _)
    · exact absurd hlost (hunlink _ _)
    · exact absurd hseq (hprobe x hx htype hqueue)
  · intro m' hm'
    obtain ⟨m₀, hm₀, hcore⟩ | ⟨msg, hx, -⟩ := hw.entry_cases hm'
    · rw [Meta.destPkHex_eq_of_core hcore]
      exact h.apart m₀ hm₀
    · exact hmsg _ hx rfl rfl rfl

theorem sendProbe_eq_ok {rnd : ℕ} {now : ℚ} {res : Except PyExc Unit} {x : String × ℤ}
    (h : sendProbe A rnd now dest q res c = .ok (x, n) d) : x = (q, c.probeNumber q) ∧
      ∃ m, d.entry .probe q (c.probeNumber q) = some m ∧ m.appAck = n ∧ m.destPkHex = dest := by
  obtain ⟨_, c₁, h₁, hrest₁⟩ := bind_eq_ok.mp h
  obtain ⟨_, c₂, h₂, hrest₂⟩ := bind_eq_ok.mp hrest₁
  obtain ⟨_, c₃, h₃, hrest₃⟩ := bind_eq_ok.mp hrest₂
  obtain ⟨_, c₄, h₄, hrest₄⟩ := bind_eq_ok.mp hrest₃
  obtain ⟨out, c₅, h₅, hrest₅⟩ := bind_eq_ok.mp hrest₄
  obtain ⟨a, c₆, h₆, hrest₆⟩ := bind_eq_ok.mp hrest₅
  obtain ⟨buf, c₇, h₇, hrest₇⟩ := bind_eq_ok.mp hrest₆
  obtain ⟨_, c₈, h₈, hlast⟩ := bind_eq_ok.mp hrest₇
  clear h hrest₁ hrest₂ hrest₃ hrest₄ hrest₅ hrest₆ hrest₇
  have hstart : c₁ = c := by
    rw [ofExcept_apply] at h₁
    split at h₁ <;> cases h₁
    rfl
  subst hstart
  cases h₂
  cases h₃
  cases h₄
  have hpacked : c₅ = MQTTClient.ensureQueue { c₁ with lastSend := some now } .probe q := by
    rw [ofExcept_apply] at h₅
    split at h₅ <;> cases h₅
    rfl
  subst hpacked
  have hnumber := probeNumber_ensureQueue { c₁ with lastSend := some now } q
  change _ = c₁.probeNumber q at hnumber
  rw [probeNumber] at hnumber
  rw [hnumber] at hlast h₆
  simp only [registerOneShot, bind_apply, get_apply] at h₆
  cases hdq : (MQTTClient.ensureQueue { c₁ with lastSend := some now } .probe q).queue .probe q with
  | none =>
    rw [hdq] at h₆
    cases h₆
  | some dq =>
    rw [hdq] at h₆
    cases h₆
    have hbook := (publish_eq_ok h₇).2.2
    have hsent : ∀ t q s, c₈.entry t q s = c₇.entry t q s := by
      have hfinal := final_pipeSend res buf c₇
      rw [h₈] at hfinal
      simp only [safePipeSend, bind_apply, get_apply, final_ok] at hfinal
      split_ifs at hfinal <;> subst hfinal <;> exact fun _ _ _ => rfl
    cases hlast
    refine ⟨rfl, _, ?_, rfl, rfl⟩
    rw [hsent, hbook.entry, entry_register _ _ _ _ _ _ hdq, if_pos ⟨rfl, rfl, rfl⟩]

theorem Inv.sendProbe (hA : A.Lawful) (h : Inv A r) {rnd : ℕ} {now : ℚ} {res : Except PyExc Unit}
    (hapart : Apart r (.sendProbe rnd now dest q res))
    (hr : step A r (.sendProbe rnd now dest q res) = some r') : Inv A r' := by
  obtain ⟨hfree, hclear⟩ := hapart
  have hw : Writes A (fun w => ∃ out ack, w = .register
      ⟨.probe, q, r.client.probeNumber q, dest, .str "", out, ack⟩) r.client
      (final (MQTTClient.sendProbe A rnd now dest q res r.client)) :=
    writes_sendProbe hA fun out ack => ⟨out, ack, rfl⟩
  have hold : ∀ p ∈ r.probes,
      p.appAck ∉ (final (MQTTClient.sendProbe A rnd now dest q res r.client)).resolved →
      Kept (final (MQTTClient.sendProbe A rnd now dest q res r.client)) p := by
    intro p hp hopen
    have hopen' : p.appAck ∉ r.client.resolved := fun ha => hopen (hw.grows.resolved ha)
    apply (h.kept p hp hopen').writes hw
    · rintro t q s ⟨out, ack, hx⟩
      cases hx
    · rintro t q ⟨out, ack, hx⟩
      cases hx
    · rintro x ⟨out, ack, hx⟩ - hqueue hseq
      cases hx
      exact hopen' (hfree p hp hqueue.symm hseq.symm)
    · rintro x ⟨out, ack, hx⟩ htype
      cases hx
      cases htype
  have htracked := hw.tracked h.tracked
  simp only [step] at hr
  cases hcall : MQTTClient.sendProbe A rnd now dest q res r.client with
  | error e c =>
    rw [hcall] at hr hold htracked
    cases hr
    exact ⟨htracked, hold⟩
  | ok x c =>
    obtain ⟨⟨q', s⟩, a⟩ := x
    obtain ⟨hx, m, hm, hack, hdest⟩ := sendProbe_eq_ok hcall
    obtain ⟨rfl, rfl⟩ := Prod.mk.inj hx
    rw [hcall] at hr hold htracked hw
    cases hr
    refine ⟨htracked, ?_⟩
    intro p hp hopen
    rcases List.mem_append.mp hp with hp | hp
    · exact hold p hp hopen
    · obtain rfl := List.mem_singleton.mp hp
      refine ⟨⟨m, hm, hack, hdest⟩, ?_⟩
      intro m' hm'
      obtain ⟨m₀, hm₀, hcore⟩ | ⟨msg, ⟨out, ack, hreg⟩, -⟩ := hw.entry_cases hm'
      · rw [Meta.destPkHex_eq_of_core hcore]
        exact hclear m₀ hm₀
      · cases hreg

theorem Inv.queueMsg (hA : A.Lawful) (h : Inv A r) {rnd : ℕ} {now : ℚ} {msg : PyMsg}
    {seqNo : Option ℤ} (hapart : Apart r (.queueMsg rnd now msg dest q t seqNo)) :
    Inv A { r with client := final (queueMsg A rnd now msg dest q t seqNo r.client) } := by
  have hw : Writes A (fun w => ∃ out ack, w = .register
      ⟨t, q, seqNo.getD (r.client.nextSeqNo t q), dest, msg, out, ack⟩ ∧
      r.client.entry t q (seqNo.getD (r.client.nextSeqNo t q)) = none) r.client
      (final (MQTTClient.queueMsg A rnd now msg dest q t seqNo r.client)) :=
    writes_queueMsg hA fun hnone out ack => ⟨out, ack, rfl, hnone⟩
  refine ⟨hw.tracked h.tracked, ?_⟩
  intro p hp hopen
  have hopen' : p.appAck ∉ r.client.resolved := fun ha => hopen (hw.grows.resolved ha)
  have hkept := h.kept p hp hopen'
  apply hkept.writes hw
  · rintro t q s ⟨out, ack, hx, -⟩
    cases hx
  · rintro t q ⟨out, ack, hx, -⟩
    cases hx
  · rintro x ⟨out, ack, hx, hnone⟩ htype hqueue hseq
    cases hx
    obtain ⟨m, hm, -⟩ := hkept.registered
    simp only at htype hqueue hseq
    rw [← htype, ← hqueue, ← hseq, hnone] at hm
    cases hm
  · rintro x ⟨out, ack, hx, hnone⟩ htype hqueue hseq hdest
    cases hx
    simp only at htype hqueue hseq hdest
    subst htype
    exact hopen' (hapart rfl hnone p hp hqueue.symm hseq.symm hdest.symm)

theorem Inv.step (hA : A.Lawful) (h : Inv A r) (hapart : Apart r a)
    (hr : step A r a = some r') : Inv A r' := by
  cases a with
  | sendProbe => exact h.sendProbe hA hapart hr
  | queueMsg =>
    cases hr
    exact h.queueMsg hA hapart
  | processAppAck pkt =>
    cases hr
    constructor
    · have hw : Writes A (fun _ => True) r.client (r.client.processAppAck pkt) :=
        writes_processAppAck h.tracked (fun _ _ _ _ _ => trivial) trivial trivial
      exact hw.tracked h.tracked
    · intro p hp hopen
      have hopen' : p.appAck ∉ r.client.resolved :=
        fun ha => hopen (mem_resolved_processAppAck.mpr (Or.inr ha))
      exact (h.kept p hp hopen').processAppAck pkt hopen

theorem inv_start (kp : KP) (handlers : HandlerSet) : Inv A (start kp handlers) :=
  ⟨tracked_init, fun p hp => (by cases hp)⟩

/-- In a run in which no call gives a number twice in the two ways, no waiting probe is lost, however
calls and acks follow each other. -/
theorem none_lost_of_apart (hA : A.Lawful) (kp : KP) (handlers : HandlerSet)
    {as : List ProbeAction} (hrun : Machine.run (step A) (start kp handlers) as = some r)
    (hapart : Machine.Meets (step A) Apart (start kp handlers) as) : NoneLost r :=
  (Machine.run_invariant (I := Inv A) (fun _ _ _ hI hP hs => hI.step hA hP hs)
    (inv_start kp handlers) hapart hrun).noneLost

instance (r : Prober KP) : ∀ a, Decidable (Apart r a)
  | .sendProbe _ _ _ _ _ => inferInstanceAs (Decidable (_ ∧ _))
  | .queueMsg _ _ _ _ _ t _ => inferInstanceAs (Decidable (t = .msg → _))
  | .processAppAck _ => inferInstanceAs (Decidable True)

open Concrete

def probeAction : ProbeAction := .sendProbe 0 1 (concrete.pkHex 2) (queueId 'a') (.ok ())

def firstAck : ProbeAction := .processAppAck (packet 2 1 (queueId 'a') 0 .msgack "ack")

def messageAction : ProbeAction :=
  .queueMsg 0 1 (.str "hi") (concrete.pkHex 2) (queueId 'a') .msg (some 0)

def oneAfterAnother : List ProbeAction :=
  [probeAction, firstAck, probeAction, firstAck, messageAction,
    .sendProbe 0 1 (concrete.pkHex 2) (queueId 'b') (.ok ())]

def overtaking : List ProbeAction := [probeAction, probeAction, firstAck, probeAction]

def sharing : List ProbeAction := [probeAction, messageAction]

/-- Probes that wait for each other keep their places. -/
theorem none_lost_one_after_another : ∃ r,
    Machine.run (step concrete) (start 1 .empty) oneAfterAnother = some r ∧ NoneLost r ∧
      r.probes.any (fun p => decide (p.appAck ∉ r.client.resolved)) = true := by
  obtain ⟨r, hr, hm, hp⟩ := Machine.exists_runMeeting_of_any (step concrete) Apart
    (start 1 .empty) oneAfterAnother
    (fun r => r.probes.any fun p => decide (p.appAck ∉ r.client.resolved)) (by decide +kernel)
  exact ⟨r, hr, none_lost_of_apart concrete_lawful 1 .empty hr hm, hp⟩

/-- Of two probes the first is acked; the next one takes the second one's number. And the ack of a
probe goes to a message under its number. -/
theorem probes_lost :
    (∃ r, Machine.run (step concrete) (start 1 .empty) overtaking = some r ∧ ¬ NoneLost r) ∧
      ∃ r, Machine.run (step concrete) (start 1 .empty) sharing = some r ∧ ¬ NoneLost r := by
  constructor
  · obtain ⟨r, hr, hp⟩ := Machine.exists_run_of_any (step concrete) (start 1 .empty) overtaking
      (fun r => decide (∃ p ∈ r.probes, p.appAck ∉ r.client.resolved ∧
        (r.client.entry .probe p.queueIdHex p.seqNo).map Meta.appAck ≠ some p.appAck))
      (by decide +kernel)
    obtain ⟨p, hmem, hopen, hother⟩ := of_decide_eq_true hp
    refine ⟨r, hr, ?_⟩
    intro hnone
    obtain ⟨⟨m, hm, hack⟩, -⟩ := hnone p hmem hopen
    rw [hm] at hother
    exact hother (congrArg some hack)
  · obtain ⟨r, hr, hp⟩ := Machine.exists_run_of_any (step concrete) (start 1 .empty) sharing
      (fun r => decide (∃ p ∈ r.probes, p.appAck ∉ r.client.resolved ∧
        queueId 'a' = p.queueIdHex ∧ 0 = p.seqNo ∧ concrete.pkHex 2 = p.destPkHex ∧
        p.appAck ∉ (r.client.processAppAck (packet 2 1 (queueId 'a') 0 .msgack "ack")).resolved))
      (by decide +kernel)
    obtain ⟨p, hmem, hopen, hq, hs, hdest, hlost⟩ := of_decide_eq_true hp
    refine ⟨r, hr, ?_⟩
    intro hnone
    exact hlost ((hnone p hmem hopen).2 _ hq hs hdest)

end Prober

end Sidewire
