import Sidewire.Mqtt.Concrete
import Sidewire.Router.Steps

/-! # Suspended calls of the application

A router together with the calls of `queue_msg_async` that its application has
made and that wait for their signatures. A future is resolved by a dequeue of
its own message or by an ack signed with the key the message went to.
-/

namespace Sidewire

structure AsyncCall (ι : Type) where
  client : ι
  msg : PyMsg
  dest : String
  queueIdHex : String
  msgType : MsgEnum
  seqNo : ℤ
  signed : Bytes

structure Host (KP ι : Type) where
  router : Router KP ι
  calls : List (AsyncCall ι)

inductive HostAction (ι : Type)
  | act (a : Action ι)
  | queueMsgAsync (i : ι) (msg : PyMsg) (dest q : String) (t : MsgEnum) (seqNo : Option ℤ)
  | signed (k rnd : ℕ)

namespace Host

open Exec MQTTClient

variable {KP ι : Type} [DecidableEq ι] {A : Aio KP} {h h' : Host KP ι} {a : HostAction ι} {i : ι}

def step (A : Aio KP) (h : Host KP ι) : HostAction ι → Option (Host KP ι)
  | .act a => (h.router.step A a).map fun r => { h with router := r }
  | .queueMsgAsync i msg dest q t seqNo =>
    match h.router.running with
    | some _ => none
    | none =>
      match queueMsgAsyncBegin A h.router.clock msg dest q t seqNo (h.router.clients i) with
      | .ok (s, signed) c =>
        some ⟨h.router.setClient i c, h.calls ++ [⟨i, msg, dest, q, t, s, signed⟩]⟩
      | .error _ c => some { h with router := h.router.setClient i c }
  | .signed k rnd =>
    match h.router.running, h.calls[k]? with
    | none, some x =>
      some
        { router := h.router.call x.client (queueMsgAsyncEnd A rnd h.router.clock x.msg x.dest
            x.queueIdHex x.msgType x.seqNo x.signed)
          calls := h.calls.eraseIdx k }
    | _, _ => none

inductive Cause (A : Aio KP) (h : Host KP ι) (i : ι) : HostAction ι → Write → Prop
  | routed {a : Action ι} {w : Write} (hw : Router.Cause A h.router i a w) :
      Cause A h i (.act a) w
  | queued {k rnd : ℕ} {x : AsyncCall ι} {out : Bytes} {ack : ℕ} (hk : h.calls[k]? = some x)
      (hi : x.client = i)
      (hn : (h.router.clients i).entry x.msgType x.queueIdHex x.seqNo = none) :
      Cause A h i (.signed k rnd)
        (.register ⟨x.msgType, x.queueIdHex, x.seqNo, x.dest, x.msg, out, ack⟩)

structure Sound (A : Aio KP) (h : Host KP ι) : Prop where
  router : Router.Sound A h.router
  calls : ∀ x ∈ h.calls, ∃ now,
    AppPacket.Signed A now ⟨x.queueIdHex, x.seqNo, x.msgType, x.msg⟩ (A.toB x.msg) x.signed

omit [DecidableEq ι] in
theorem Sound.of_fresh (hf : Router.Fresh h.router) (hc : h.calls = []) : Sound A h :=
  ⟨hf.sound, by simp [hc]⟩

theorem sound_setClient {r : Router KP ι} {c : MQTTClient KP} {P : Write → Prop}
    (hr : Router.Sound A r) (hw : Writes A P (r.clients i) c) :
    Router.Sound A (r.setClient i c) := by
  have hcases : ∀ j, Writes A P (r.clients j) ((r.setClient i c).clients j) :=
    fun _ => Router.writes_update (P := fun _ => P) hw
  exact
    { kp := fun j => (hcases j).grows.kp.trans (hr.kp j)
      tracked := fun j => (hcases j).tracked (hr.tracked j)
      holds := hr.holds
      addressed := hr.addressed }

theorem queueMsgAsyncBegin_writes (A : Aio KP) (now : ℚ) (msg : PyMsg) (dest q : String)
    (t : MsgEnum) (seqNo : Option ℤ) (c : MQTTClient KP) (P : Write → Prop) :
    Writes A P c (final (queueMsgAsyncBegin A now msg dest q t seqNo c)) ∧
      ∀ {s signed d}, queueMsgAsyncBegin A now msg dest q t seqNo c = .ok (s, signed) d →
        AppPacket.Signed A now ⟨q, s, t, msg⟩ (A.toB msg) signed := by
  have hl : Writes A P c { c with lastSend := some now } := .quiet (sameBook_lastSend c _)
  simp only [queueMsgAsyncBegin, bind_apply, modify_apply]
  obtain ⟨e, hx, -⟩ | ⟨d, hx, -, -, -, hw⟩ :=
    orderedAckSendBegin_spec (A := A) now msg dest q t seqNo { c with lastSend := some now }
  · rw [hx]
    exact ⟨hl, fun h => by cases h⟩
  · rw [hx]
    simp only [ofExcept_apply]
    cases hk : AppPacket.packAsyncBegin A now
        ⟨q, seqNo.getD (MQTTClient.nextSeqNo { c with lastSend := some now } t q), t, msg⟩ with
    | error e => exact ⟨hl.trans (hw P), fun h => by cases h⟩
    | ok signed =>
      refine ⟨hl.trans (hw P), ?_⟩
      rintro s signed' d' ⟨⟩
      exact AppPacket.packAsyncBegin_eq_ok hk

theorem step_sound_writes (hA : A.Lawful) (hs : Sound A h) (hstep : step A h a = some h') :
    Sound A h' ∧ ∀ j, Writes A (Cause A h j a) (h.router.clients j) (h'.router.clients j) := by
  cases a with
  | act a =>
    obtain ⟨r, hr, rfl⟩ := Option.map_eq_some_iff.mp hstep
    refine ⟨⟨Router.step_sound hA hs.router hr, hs.calls⟩, fun j => ?_⟩
    exact (Router.step_writes hA hs.router hr j).mono fun w hw => .routed hw
  | queueMsgAsync i msg dest q t seqNo =>
    simp only [step] at hstep
    split at hstep
    · cases hstep
    obtain ⟨-, hsigned⟩ := queueMsgAsyncBegin_writes A h.router.clock msg dest q t seqNo
      (h.router.clients i) fun _ => True
    have hw := fun P => (queueMsgAsyncBegin_writes A h.router.clock msg dest q t seqNo
      (h.router.clients i) P).1
    split at hstep
    · rename_i s signed c hc
      cases hstep
      simp only [hc, final_ok] at hw
      refine ⟨⟨sound_setClient hs.router (hw fun _ => True), ?_⟩, fun j => ?_⟩
      · intro x hx
        rcases List.mem_append.mp hx with hx | hx
        · exact hs.calls x hx
        · rw [List.mem_singleton.mp hx]
          exact ⟨_, hsigned hc⟩
      · exact Router.writes_update (P := fun j => Cause A h j _) (hw _)
    · rename_i e c hc
      cases hstep
      simp only [hc, final_error] at hw
      refine ⟨⟨sound_setClient hs.router (hw fun _ => True), hs.calls⟩, fun j => ?_⟩
      exact Router.writes_update (P := fun j => Cause A h j _) (hw _)
  | signed k rnd =>
    simp only [step] at hstep
    split at hstep
    · rename_i x _ hx
      cases hstep
      have hw : Writes A (Cause A h x.client (.signed k rnd)) (h.router.clients x.client)
          (final (queueMsgAsyncEnd A rnd h.router.clock x.msg x.dest x.queueIdHex x.msgType x.seqNo
            x.signed (h.router.clients x.client))) :=
        writes_queueMsgAsyncEnd (hs.calls x (List.mem_of_getElem? hx)) fun hn ack => .queued hx rfl hn
      rw [Router.call_eq]
      refine ⟨⟨sound_setClient hs.router hw, ?_⟩, fun j => ?_⟩
      · exact fun y hy => hs.calls y (List.mem_of_mem_eraseIdx hy)
      · exact Router.writes_update (P := fun j => Cause A h j _) hw
    · cases hstep

theorem run_sound (hA : A.Lawful) {h₀ : Host KP ι} {as : List (HostAction ι)} (hs : Sound A h₀)
    (hrun : Machine.run (step A) h₀ as = some h) : Sound A h :=
  Machine.run_preserves (fun _ _ _ hs hstep => (step_sound_writes hA hs hstep).1) hs hrun

structure AckFor (A : Aio KP) (h : Host KP ι) (i : ι) (k : ℕ) (x : Queued) (payload : Bytes)
    (pkt : AppPacket) : Prop where
  task : ∃ t, h.router.tasks[k]? = some t ∧ t.client = i ∧ t.payload = payload
  unpacked : AppPacket.unpack A payload = .ok (some pkt)
  verified : A.verify (payload.take srcPkLen) (slice sigOffset sigLen payload)
    (payload.drop signedMsgOffset) = true
  signer : A.toH (payload.take srcPkLen) = x.destPkHex
  msgType : pkt.msgType = MsgEnum.msgack.value
  queueIdHex : pkt.queueIdHex = x.queueIdHex
  seqNo : pkt.seqNo = x.seqNo

def ResolvedFor (A : Aio KP) (h : Host KP ι) (i : ι) (a : HostAction ι) (x : Queued) : Prop :=
  a = .act (.dequeueMsg i x.queueIdHex (some x.seqNo) x.msgType) ∨
    (x.msgType = .msg ∨ x.msgType = .probe) ∧
      ∃ k rnd payload pkt, a = .act (.resume k (.ok rnd)) ∧ AckFor A h i k x payload pkt

/-- A future that a step resolves is that of one message, and there is a reason to resolve it. -/
theorem resolved_only_for (hA : A.Lawful) {h₀ : Host KP ι} {as : List (HostAction ι)}
    (hf : Router.Fresh h₀.router) (hc : h₀.calls = [])
    (hrun : Machine.run (step A) h₀ as = some h) (hstep : step A h a = some h') (i : ι) :
    (h.router.clients i).resolved ⊆ (h'.router.clients i).resolved ∧
    ∀ f ∈ (h'.router.clients i).resolved, f ∉ (h.router.clients i).resolved →
      ∃ x ∈ (h.router.clients i).queued, x.appAck = f ∧
        (∀ y ∈ (h'.router.clients i).queued, y.appAck = f → y = x) ∧ ResolvedFor A h i a x := by
  have hs := run_sound hA (.of_fresh hf hc) hrun
  obtain ⟨hs', hw⟩ := step_sound_writes hA hs hstep
  have htr := hs.router.tracked i
  refine ⟨(hw i).grows.resolved, fun f hf hnew => ?_⟩
  -- the message is one the client held when the step was taken
  have found : ∀ {x : Queued}, x ∈ (h.router.clients i).queued → x.appAck = f →
      ResolvedFor A h i a x → ∃ x ∈ (h.router.clients i).queued, x.appAck = f ∧
        (∀ y ∈ (h'.router.clients i).queued, y.appAck = f → y = x) ∧ ResolvedFor A h i a x := by
    intro x hx hxf hr
    refine ⟨x, hx, hxf, fun y hy hyf => ?_, hr⟩
    exact (hs'.router.tracked i).eq_of_appAck hy ((hw i).grows.queued.subset hx) (hyf.trans hxf.symm)
  rcases (hw i).resolved_cases hf with hf | hf | ⟨m, hcause, rfl⟩
  · exact absurd hf hnew
  · rcases (hw i).acked_cases htr hf with hf | ⟨t, q, s, m, hcause, rfl, -⟩
    · exact absurd (htr.acked hf) hnew
    · obtain ⟨hcause⟩ := hcause
      cases hcause with
      | marked hk hi hpc hp hm hty he hd =>
        obtain ⟨msg, hx⟩ := htr.entry he
        have hacc := AppPacket.unpack_spec hp
        refine found hx rfl (.inr ⟨hty, _, _, _, _, rfl, ⟨⟨_, hk, hi, rfl⟩, hp, hacc.verified, ?_, hm,
          rfl, rfl⟩⟩)
        exact hacc.srcPkHex.symm.trans hd.symm
  · obtain ⟨hcause⟩ := hcause
    cases hcause with
    | disabled he =>
      obtain ⟨msg, hx⟩ := htr.entry he
      exact found hx rfl (.inl rfl)

open Concrete Router in
def acknowledged : List (HostAction Unit) :=
  [.queueMsgAsync () (.str "hello") (concrete.pkHex 3) (queueId 'a') .msg none, .signed 0 0,
    .act (.recv () (concrete.pkHex 1) (signedBy 3 100 (queueId 'a') 0 .msgack "ack") false)]

open Concrete Router in
theorem resolved_only_for_ack :
    ∃ h h', Machine.run (step concrete) ⟨connected 1 .empty 100, []⟩ acknowledged = some h ∧
      step concrete h (.act (.resume 0 (.ok 0))) = some h' ∧
      ∃ x, (h'.router.clients ()).resolved = [x.appAck] ∧
        ResolvedFor concrete h () (.act (.resume 0 (.ok 0))) x := by
  obtain ⟨h, hrun, hd⟩ := Machine.exists_run_of_any (step concrete) ⟨connected 1 .empty 100, []⟩
    acknowledged (fun h => decide ((h.router.clients ()).resolved = []) &&
      (step concrete h (.act (.resume 0 (.ok 0)))).any fun h' : Host ℕ Unit =>
        decide ((h'.router.clients ()).resolved = [1])) (by decide +kernel)
  rw [Bool.and_eq_true, decide_eq_true_eq, Option.any_eq_true] at hd
  obtain ⟨hnone, h', hstep, hone⟩ := hd
  rw [decide_eq_true_eq] at hone
  obtain ⟨x, -, hxf, -, hr⟩ := (resolved_only_for concrete_lawful
    (fresh_connected 1 .empty (by norm_num) (by decide +kernel)) rfl hrun hstep ()).2 1
      (by rw [hone]; exact List.mem_singleton_self _) (by rw [hnone]; exact List.not_mem_nil)
  exact ⟨h, h', hrun, hstep, x, by rw [hone, hxf], hr⟩

end Host

end Sidewire
