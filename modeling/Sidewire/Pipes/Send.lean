import Sidewire.Lib.Machine
import Sidewire.Mqtt.Concrete
import Sidewire.Mqtt.Operations

/-! # Sending on a pipe

`SmartPipe.send` queues a message on every client of the pipe, starts a task for
each acknowledgement and goes on with whichever tasks have ended. The tasks end
in any order and at any time, one cancellation may come at any await, and other
code uses the clients in the meantime.
-/

namespace Sidewire

variable {KP : Type}

/-- `len(msg)`. -/
def PyMsg.len : PyMsg → ℕ
  | .str s => s.length
  | .bytes b => b.length

inductive WaitEnd
  | acked
  | timeoutError
  | osError
  | cancelled
  deriving DecidableEq, Repr

structure WaitTask where
  client : ℕ
  appAck : ℕ
  cancelRequested : Bool := false
  ended : Option WaitEnd := none
  deriving DecidableEq, Repr

inductive SendExit
  | returned (n : ℕ)
  | cancelledError
  deriving DecidableEq, Repr

/-- The await at which `send` stands, or its end. An interrupted `gather` ends with the
cancellation. -/
inductive SendStage
  | waiting (tasks : List ℕ)
  | gathering (tasks pending : List ℕ) (interrupted : Bool)
  | cleaning (tasks : List ℕ) (exit : SendExit) (interrupted : Bool)
  | ended (exit : SendExit)
  deriving DecidableEq, Repr

structure SmartPipe where
  clients : List ℕ
  destPubHex : String

structure Send (KP : Type) where
  clients : ℕ → MQTTClient KP
  waits : List WaitTask
  stage : SendStage
  cancelled : Bool

namespace Send

/-- `task.cancel()` for the tasks that are not done. -/
def cancelTasks (s : Send KP) (tasks : List ℕ) : Send KP :=
  { s with
    waits := s.waits.mapIdx fun k w =>
      if k ∈ tasks ∧ w.ended = none then { w with cancelRequested := true } else w }

def endOf (s : Send KP) (k : ℕ) : Option WaitEnd := s.waits[k]?.bind WaitTask.ended

def loop (msg : PyMsg) (s : Send KP) : List ℕ → Option SendExit
  | [] => none
  | k :: ks =>
    match s.endOf k with
    | some .acked => some (.returned msg.len)
    | some .cancelled => some .cancelledError
    | _ => loop msg s ks

variable (pipe : SmartPipe) (msg : PyMsg) (msgIdHex : String)

/-- The end of the `finally` block. -/
def finish (s : Send KP) (exit : SendExit) : Send KP :=
  { s with
    clients := pipe.clients.foldl
      (fun cs i => Function.update cs i ((cs i).dequeueMsg msgIdHex none .msg)) s.clients
    stage := .ended exit }

/-- The beginning of the `finally` block; `gather()` of nothing does not suspend. -/
def leave (s : Send KP) (tasks : List ℕ) (exit : SendExit) : Send KP :=
  if tasks = [] then s.finish pipe msgIdHex exit
  else { s.cancelTasks tasks with stage := .cleaning tasks exit false }

def await (s : Send KP) (tasks : List ℕ) : Send KP :=
  if tasks = [] then s.leave pipe msgIdHex [] (.returned 0) else { s with stage := .waiting tasks }

def queueAll (A : Aio KP) (rnd : ℕ → ℕ) (now : ℕ → ℚ) :
    List ℕ → (ℕ → MQTTClient KP) → (ℕ → MQTTClient KP) × List WaitTask
  | [], clients => (clients, [])
  | i :: is, clients =>
    match (clients i).queueMsg A (rnd is.length) (now is.length) msg pipe.destPubHex msgIdHex .msg
        none with
    | .ok (_, appAck) c =>
      let (clients, waits) := queueAll A rnd now is (Function.update clients i c)
      (clients, { client := i, appAck } :: waits)
    | .error _ c => queueAll A rnd now is (Function.update clients i c)

/-- `send` up to its first await. The clock and the signatures may differ from call to call. -/
def start (A : Aio KP) (rnd : ℕ → ℕ) (now : ℕ → ℚ) (clients : ℕ → MQTTClient KP) : Send KP :=
  let (clients, waits) := queueAll pipe msg msgIdHex A rnd now pipe.clients clients
  await pipe msgIdHex ⟨clients, waits, .waiting [], false⟩ (List.range waits.length)

/-- A task ends, `asyncio.wait` hands out the tasks that are done in some order, a `gather` ends,
`send` is cancelled, or other code changes a client. -/
inductive Event (KP : Type)
  | taskEnds (k : ℕ) (o : WaitEnd)
  | wake (done : List ℕ)
  | gathered
  | cancel
  | other (i : ℕ) (c : MQTTClient KP)

def Holds (s : Send KP) (i : ℕ) : Prop := ((s.clients i).queue .msg msgIdHex).isSome = true

instance (s : Send KP) (i : ℕ) : Decidable (s.Holds msgIdHex i) :=
  inferInstanceAs (Decidable (_ = true))

def step (s : Send KP) : Event KP → Option (Send KP)
  | .taskEnds k o =>
    match s.waits[k]? with
    | some w =>
      if w.ended = none ∧ (o = .cancelled → w.cancelRequested = true) then
        some { s with waits := s.waits.set k { w with ended := some o } }
      else none
    | none => none
  | .wake done =>
    match s.stage with
    | .waiting tasks =>
      if done ≠ [] ∧ done.Perm (tasks.filter fun k => (s.endOf k).isSome) then
        let pending := tasks.filter fun k => (s.endOf k).isNone
        match s.loop msg done with
        | some (.returned n) =>
          if pending = [] then some (s.leave pipe msgIdHex tasks (.returned n))
          else some { s.cancelTasks pending with stage := .gathering tasks pending false }
        | some .cancelledError => some (s.leave pipe msgIdHex tasks .cancelledError)
        | none => some (s.await pipe msgIdHex pending)
      else none
    | _ => none
  | .gathered =>
    match s.stage with
    | .gathering tasks pending interrupted =>
      if pending.all fun k => (s.endOf k).isSome then
        some (s.leave pipe msgIdHex tasks
          (if interrupted then .cancelledError else .returned msg.len))
      else none
    | .cleaning tasks exit interrupted =>
      if tasks.all fun k => (s.endOf k).isSome then
        -- an interrupted `gather` raises before the loop over the clients
        if interrupted then some { s with stage := .ended .cancelledError }
        else some (s.finish pipe msgIdHex exit)
      else none
    | _ => none
  | .cancel =>
    if s.cancelled then none
    else
      match s.stage with
      | .waiting tasks => some ({ s with cancelled := true }.leave pipe msgIdHex tasks .cancelledError)
      | .gathering tasks pending _ =>
        some { s.cancelTasks pending with
          stage := .gathering tasks pending true
          cancelled := true }
      | .cleaning tasks exit _ =>
        some { s.cancelTasks tasks with stage := .cleaning tasks exit true, cancelled := true }
      | .ended _ => none
  | .other i c =>
    if (c.queue .msg msgIdHex).isSome = ((s.clients i).queue .msg msgIdHex).isSome then
      some { s with clients := Function.update s.clients i c }
    else none

/-- The cancellation does not come while `send` cleans up. -/
def Undisturbed (s : Send KP) (e : Event KP) : Prop :=
  match e, s.stage with
  | .cancel, .cleaning _ _ _ => False
  | _, _ => True

end Send

namespace MQTTClient

open Exec

variable {A : Aio KP} {c : MQTTClient KP} {t : MsgEnum} {q : String}

theorem queue_queueMsg (A : Aio KP) (rnd : ℕ) (now : ℚ) (msg : PyMsg) (dest : String)
    (seqNo : Option ℤ) (c : MQTTClient KP) :
    ((final (queueMsg A rnd now msg dest q t seqNo c)).queue t q).isSome = true ∨
      ∃ e d, queueMsg A rnd now msg dest q t seqNo c = .error e d ∧ d.queue t q = c.queue t q := by
  simp only [queueMsg, orderedAckSend, bind_apply, modify_apply]
  obtain ⟨e, h, -⟩ | ⟨d, h, -, -, hs, -⟩ :=
    orderedAckSendBegin_spec (A := A) now msg dest q t seqNo { c with lastSend := some now }
  · rw [h]
    exact Or.inr ⟨_, _, rfl, rfl⟩
  · left
    have hd : (d.queue t q).isSome = true := by
      rw [hs.queue, queue_ensureQueue, if_pos ⟨rfl, rfl⟩]
      rfl
    rw [h]
    simp only [get_apply, ofExcept_apply]
    cases AppPacket.pack A d.kp rnd now ⟨q, seqNo.getD
        (({ c with lastSend := some now } : MQTTClient KP).nextSeqNo t q), t, msg⟩ with
    | error e => exact hd
    | ok out =>
      simp only
      obtain ⟨-, h'⟩ | ⟨m, -, h'⟩ | ⟨dq, -, -, h'⟩ := orderedAckSendEnd_spec now msg dest q t
        (seqNo.getD (({ c with lastSend := some now } : MQTTClient KP).nextSeqNo t q)) out d
      · rw [h']
        exact hd
      · rw [h']
        exact hd
      · rw [h', final_ok, register]
        change ((d.putQueue t q _).queue t q).isSome = true
        rw [queue_putQueue, if_pos ⟨rfl, rfl⟩]
        rfl

theorem queue_dequeueMsg_none (c : MQTTClient KP) (t : MsgEnum) (q : String) :
    (c.dequeueMsg q none t).queue t q = none := by
  rw [dequeueMsg]
  cases h : c.queue t q with
  | none => exact h
  | some d => rw [queue_unlinkQueue, if_pos ⟨rfl, rfl⟩]

end MQTTClient

namespace Send

variable {A : Aio KP} {pipe : SmartPipe} {msg : PyMsg} {msgIdHex : String} {s t : Send KP}
  {tasks pending done : List ℕ} {exit : SendExit}

@[simp] theorem endOf_cancelTasks (s : Send KP) (tasks : List ℕ) (k : ℕ) :
    (s.cancelTasks tasks).endOf k = s.endOf k := by
  simp only [endOf, cancelTasks, List.getElem?_mapIdx]
  cases s.waits[k]? with
  | none => rfl
  | some w =>
    simp only [Option.map_some, Option.bind_some]
    split_ifs <;> rfl

@[simp] theorem length_cancelTasks (s : Send KP) (tasks : List ℕ) :
    (s.cancelTasks tasks).waits.length = s.waits.length := by
  simp [cancelTasks]

theorem endOf_taskEnds {k : ℕ} {w : WaitTask} {o : WaitEnd} (h : s.waits[k]? = some w) (j : ℕ) :
    endOf { s with waits := s.waits.set k { w with ended := some o } } j =
      if j = k then some o else s.endOf j := by
  obtain ⟨hk, -⟩ := List.getElem?_eq_some_iff.mp h
  simp only [endOf, List.getElem?_set]
  by_cases hj : k = j
  · subst hj
    simp [hk]
  · simp [hj, Ne.symm hj]

def Acked (s : Send KP) : Prop := ∃ k, s.endOf k = some .acked

/-- How a `return` or an exception leaves the loop. -/
def Leaves (msg : PyMsg) (s : Send KP) : SendExit → Prop
  | .returned n => n = msg.len ∧ s.Acked
  | .cancelledError => s.cancelled = true

def Exits (msg : PyMsg) (s : Send KP) : SendExit → Prop
  | .returned n => n = msg.len ∧ s.Acked ∨ n = 0 ∧ ¬ s.Acked
  | .cancelledError => s.cancelled = true

def EndedBut (s : Send KP) (tasks : List ℕ) : Prop :=
  ∀ k < s.waits.length, k ∉ tasks → (s.endOf k).isSome = true

def FailedBut (s : Send KP) (tasks : List ℕ) : Prop :=
  ∀ k < s.waits.length, k ∉ tasks → s.endOf k = some .timeoutError ∨ s.endOf k = some .osError

def Unrequested (s : Send KP) : Prop := ∀ w ∈ s.waits, w.cancelRequested = false

/-- What is known at each await. -/
def Sound (msg : PyMsg) (s : Send KP) : Prop :=
  match s.stage with
  | .waiting tasks => tasks ≠ [] ∧ (∀ k ∈ tasks, k < s.waits.length) ∧ s.FailedBut tasks ∧
      s.Unrequested ∧ ∀ k, s.endOf k ≠ some .cancelled
  | .gathering tasks pending interrupted => tasks ≠ [] ∧ (∀ k ∈ tasks, k < s.waits.length) ∧
      (∀ k ∈ pending, k ∈ tasks) ∧ s.EndedBut pending ∧ s.Acked ∧
        (interrupted = true → s.cancelled = true)
  | .cleaning tasks exit interrupted => tasks ≠ [] ∧ (∀ k ∈ tasks, k < s.waits.length) ∧
      s.EndedBut tasks ∧ s.Leaves msg exit ∧ (interrupted = true → s.cancelled = true)
  | .ended exit => s.EndedBut [] ∧ s.Exits msg exit

theorem Leaves.exits (h : s.Leaves msg exit) : s.Exits msg exit := by
  cases exit with
  | returned n => exact Or.inl h
  | cancelledError => exact h

theorem EndedBut.of_all (h : s.EndedBut tasks)
    (hall : tasks.all (fun k => (s.endOf k).isSome) = true) : s.EndedBut [] := by
  intro k hk _
  by_cases hmem : k ∈ tasks
  · exact List.all_eq_true.mp hall k hmem
  · exact h k hk hmem

theorem FailedBut.endedBut (h : s.FailedBut tasks) : s.EndedBut tasks := by
  intro k hk hmem
  rcases h k hk hmem with h | h <;> rw [h] <;> rfl

theorem not_acked_of_failedBut (h : s.FailedBut []) : ¬ s.Acked := by
  rintro ⟨k, hk⟩
  have hlt : k < s.waits.length := by
    by_contra hle
    rw [endOf, List.getElem?_eq_none (not_lt.mp hle)] at hk
    cases hk
  rcases h k hlt (List.not_mem_nil) with h | h <;> cases h.symm.trans hk

theorem sound_finish (hended : s.EndedBut []) (h : s.Exits msg exit) :
    (s.finish pipe msgIdHex exit).Sound msg := by
  refine ⟨hended, ?_⟩
  cases exit with
  | returned n => exact h
  | cancelledError => exact h

theorem sound_leave (hbound : ∀ k ∈ tasks, k < s.waits.length) (hended : s.EndedBut tasks)
    (h : s.Leaves msg exit) : (s.leave pipe msgIdHex tasks exit).Sound msg := by
  rw [leave]
  split_ifs with hnil
  · subst hnil
    exact sound_finish hended h.exits
  · refine ⟨hnil, ?_, ?_, ?_, by simp⟩
    · intro k hk
      exact (length_cancelTasks s tasks).symm ▸ hbound k hk
    · intro k hk hmem
      rw [length_cancelTasks] at hk
      exact (congrArg Option.isSome (endOf_cancelTasks s tasks k)).trans (hended k hk hmem)
    · cases exit with
      | returned n =>
        obtain ⟨hn, k, hk⟩ := h
        exact ⟨hn, k, (endOf_cancelTasks s tasks k).trans hk⟩
      | cancelledError => exact h

theorem sound_await (hbound : ∀ k ∈ tasks, k < s.waits.length) (hfailed : s.FailedBut tasks)
    (hreq : s.Unrequested) (hcan : ∀ k, s.endOf k ≠ some .cancelled) :
    (s.await pipe msgIdHex tasks).Sound msg := by
  rw [await]
  split_ifs with hnil
  · subst hnil
    rw [leave, if_pos rfl]
    exact sound_finish hfailed.endedBut (Or.inr ⟨rfl, not_acked_of_failedBut hfailed⟩)
  · exact ⟨hnil, hbound, hfailed, hreq, hcan⟩

theorem loop_cases (msg : PyMsg) (s : Send KP) (done : List ℕ) :
    (∃ k ∈ done, s.endOf k = some .acked ∧ s.loop msg done = some (.returned msg.len)) ∨
      (∃ k ∈ done, s.endOf k = some .cancelled) ∨
      s.loop msg done = none ∧ ∀ k ∈ done, s.endOf k ≠ some .acked := by
  induction done with
  | nil => exact Or.inr (Or.inr ⟨rfl, by simp⟩)
  | cons k ks ih =>
    have hskip : s.endOf k ≠ some .acked → s.loop msg (k :: ks) = s.loop msg ks →
        (∃ j ∈ k :: ks, s.endOf j = some .acked ∧
          s.loop msg (k :: ks) = some (.returned msg.len)) ∨
        (∃ j ∈ k :: ks, s.endOf j = some .cancelled) ∨
        s.loop msg (k :: ks) = none ∧ ∀ j ∈ k :: ks, s.endOf j ≠ some .acked := by
      intro hne hloop
      rw [hloop]
      rcases ih with ⟨j, hj, h⟩ | ⟨j, hj, h⟩ | ⟨h, hall⟩
      · exact Or.inl ⟨j, List.mem_cons_of_mem k hj, h⟩
      · exact Or.inr (Or.inl ⟨j, List.mem_cons_of_mem k hj, h⟩)
      · exact Or.inr (Or.inr ⟨h, List.forall_mem_cons.mpr ⟨hne, hall⟩⟩)
    cases hk : s.endOf k with
    | none => exact hskip (by simp [hk]) (by simp only [loop, hk])
    | some o =>
      cases o with
      | acked => exact Or.inl ⟨k, List.mem_cons_self, hk, by simp only [loop, hk]⟩
      | timeoutError => exact hskip (by simp [hk]) (by simp only [loop, hk])
      | osError => exact hskip (by simp [hk]) (by simp only [loop, hk])
      | cancelled => exact Or.inr (Or.inl ⟨k, List.mem_cons_self, hk⟩)

theorem sound_taskEnds {k : ℕ} {w : WaitTask} {o : WaitEnd} (hs : s.Sound msg)
    (hw : s.waits[k]? = some w) (hnone : w.ended = none)
    (ho : o = .cancelled → w.cancelRequested = true) :
    Sound msg { s with waits := s.waits.set k { w with ended := some o } } := by
  have hendOf : s.endOf k = none := by rw [endOf, hw]; exact hnone
  have hsome : ∀ j, (s.endOf j).isSome = true →
      (endOf { s with waits := s.waits.set k { w with ended := some o } } j).isSome = true := by
    intro j hj
    rw [endOf_taskEnds hw]
    split_ifs
    · rfl
    · exact hj
  have hkeep : ∀ j o', s.endOf j = some o' →
      endOf { s with waits := s.waits.set k { w with ended := some o } } j = some o' := by
    intro j o' hj
    rw [endOf_taskEnds hw, if_neg ?_]
    · exact hj
    · rintro rfl
      cases hendOf.symm.trans hj
  have hacked : s.Acked → Acked { s with waits := s.waits.set k { w with ended := some o } } := by
    rintro ⟨j, hj⟩
    exact ⟨j, hkeep j _ hj⟩
  have hlen : (s.waits.set k { w with ended := some o }).length = s.waits.length :=
    List.length_set
  cases hstage : s.stage with
  | waiting tasks =>
    rw [Sound, hstage] at hs
    obtain ⟨hne, hbound, hfailed, hreq, hcan⟩ := hs
    simp only [Sound, hlen]
    refine ⟨hne, hbound, ?_, ?_, ?_⟩
    · intro j hj hmem
      rw [hlen] at hj
      rcases hfailed j hj hmem with h | h
      · exact Or.inl (hkeep j _ h)
      · exact Or.inr (hkeep j _ h)
    · intro w' hw'
      rcases List.mem_or_eq_of_mem_set hw' with hw' | rfl
      · exact hreq w' hw'
      · exact hreq w (List.mem_of_getElem? hw)
    · intro j hj
      have hj' := (endOf_taskEnds hw j).symm.trans hj
      split_ifs at hj'
      · have hfalse := hreq w (List.mem_of_getElem? hw)
        rw [ho (Option.some.inj hj')] at hfalse
        cases hfalse
      · exact hcan j hj'
  | gathering tasks pending interrupted =>
    rw [Sound, hstage] at hs
    obtain ⟨hne, hbound, hsub, hended, hack, hint⟩ := hs
    simp only [Sound, hlen]
    refine ⟨hne, hbound, hsub, ?_, hacked hack, hint⟩
    intro j hj hmem
    rw [hlen] at hj
    exact hsome j (hended j hj hmem)
  | cleaning tasks exit interrupted =>
    rw [Sound, hstage] at hs
    obtain ⟨hne, hbound, hended, hleaves, hint⟩ := hs
    simp only [Sound, hlen]
    refine ⟨hne, hbound, ?_, ?_, hint⟩
    · intro j hj hmem
      rw [hlen] at hj
      exact hsome j (hended j hj hmem)
    · cases exit with
      | returned n => exact ⟨hleaves.1, hacked hleaves.2⟩
      | cancelledError => exact hleaves
  | ended exit =>
    rw [Sound, hstage] at hs
    obtain ⟨hk, -⟩ := List.getElem?_eq_some_iff.mp hw
    have := hs.1 k hk List.not_mem_nil
    rw [hendOf] at this
    cases this

theorem sound_wake (hs : s.Sound msg) (h : step pipe msg msgIdHex s (.wake done) = some t) :
    t.Sound msg := by
  cases hstage : s.stage with
  | waiting tasks =>
    rw [Sound, hstage] at hs
    obtain ⟨hne, hbound, hfailed, hreq, hcan⟩ := hs
    simp only [step, hstage] at h
    by_cases hdone : done ≠ [] ∧ done.Perm (tasks.filter fun k => (s.endOf k).isSome)
    swap
    · rw [if_neg hdone] at h
      cases h
    rw [if_pos hdone] at h
    have hmem : ∀ k, k ∈ done ↔ k ∈ tasks ∧ (s.endOf k).isSome = true := by
      intro k
      rw [hdone.2.mem_iff, List.mem_filter]
    have hpending : s.EndedBut (tasks.filter fun k => (s.endOf k).isNone) := by
      intro k hk hnot
      by_cases hk' : k ∈ tasks
      · by_contra hnone
        exact hnot (List.mem_filter.mpr ⟨hk', by simpa using hnone⟩)
      · exact hfailed.endedBut k hk hk'
    rcases loop_cases msg s done with ⟨k, hk, hack, hloop⟩ | ⟨k, hk, hcancelled⟩ | ⟨hloop, hnot⟩
    · rw [hloop] at h
      simp only at h
      split_ifs at h with hnil
      · cases h
        apply sound_leave hbound
        · exact hfailed.endedBut
        · exact ⟨rfl, k, hack⟩
      · cases h
        refine ⟨hne, ?_, fun j hj => List.mem_of_mem_filter hj, ?_, ?_, by simp⟩
        · intro j hj
          rw [length_cancelTasks]
          exact hbound j hj
        · intro j hj hj'
          rw [length_cancelTasks] at hj
          exact (congrArg Option.isSome (endOf_cancelTasks s _ j)).trans (hpending j hj hj')
        · exact ⟨k, (endOf_cancelTasks s _ k).trans hack⟩
    · exact absurd hcancelled (hcan k)
    · rw [hloop] at h
      cases h
      apply sound_await
      · intro k hk
        exact hbound k (List.mem_of_mem_filter hk)
      · intro k hk hk'
        by_cases hmem' : k ∈ tasks
        · have hsome : (s.endOf k).isSome = true := by
            by_contra hnone
            exact hk' (List.mem_filter.mpr ⟨hmem', by simpa using hnone⟩)
          obtain ⟨o, ho⟩ := Option.isSome_iff_exists.mp hsome
          have hnack := hnot k ((hmem k).mpr ⟨hmem', hsome⟩)
          have hncan := hcan k
          rw [ho] at hnack hncan ⊢
          cases o <;> simp_all
        · exact hfailed k hk hmem'
      · exact hreq
      · exact hcan
  | gathering => simp [step, hstage] at h
  | cleaning => simp [step, hstage] at h
  | ended => simp [step, hstage] at h

theorem sound_gathered (hs : s.Sound msg) (h : step pipe msg msgIdHex s .gathered = some t) :
    t.Sound msg := by
  cases hstage : s.stage with
  | waiting => simp [step, hstage] at h
  | gathering tasks pending interrupted =>
    rw [Sound, hstage] at hs
    obtain ⟨hne, hbound, -, hended, hack, hint⟩ := hs
    simp only [step, hstage] at h
    split_ifs at h with hall hi
    · cases h
      exact sound_leave hbound (fun k hk _ => hended.of_all hall k hk List.not_mem_nil) (hint hi)
    · cases h
      exact sound_leave hbound (fun k hk _ => hended.of_all hall k hk List.not_mem_nil)
        ⟨rfl, hack⟩
  | cleaning tasks exit interrupted =>
    rw [Sound, hstage] at hs
    obtain ⟨hne, hbound, hended, hleaves, hint⟩ := hs
    simp only [step, hstage] at h
    split_ifs at h with hall hi
    · cases h
      exact ⟨hended.of_all hall, hint hi⟩
    · cases h
      exact sound_finish (hended.of_all hall) hleaves.exits
  | ended => simp [step, hstage] at h

theorem sound_cancel (hs : s.Sound msg) (h : step pipe msg msgIdHex s .cancel = some t) :
    t.Sound msg := by
  rw [step] at h
  split_ifs at h with hc
  cases hstage : s.stage with
  | waiting tasks =>
    rw [Sound, hstage] at hs
    obtain ⟨hne, hbound, hfailed, hreq, hcan⟩ := hs
    simp only [hstage, Option.some.injEq] at h
    rw [← h]
    exact sound_leave hbound hfailed.endedBut rfl
  | gathering tasks pending interrupted =>
    rw [Sound, hstage] at hs
    obtain ⟨hne, hbound, hsub, hended, ⟨k, hk⟩, hint⟩ := hs
    simp only [hstage, Option.some.injEq] at h
    rw [← h]
    refine ⟨hne, ?_, hsub, ?_, ⟨k, (endOf_cancelTasks s pending k).trans hk⟩, fun _ => rfl⟩
    · intro j hj
      rw [length_cancelTasks]
      exact hbound j hj
    · intro j hj hj'
      rw [length_cancelTasks] at hj
      exact (congrArg Option.isSome (endOf_cancelTasks s _ j)).trans (hended j hj hj')
  | cleaning tasks exit interrupted =>
    rw [Sound, hstage] at hs
    obtain ⟨hne, hbound, hended, hleaves, hint⟩ := hs
    simp only [hstage, Option.some.injEq] at h
    rw [← h]
    refine ⟨hne, ?_, ?_, ?_, fun _ => rfl⟩
    · intro j hj
      rw [length_cancelTasks]
      exact hbound j hj
    · intro j hj hj'
      rw [length_cancelTasks] at hj
      exact (congrArg Option.isSome (endOf_cancelTasks s _ j)).trans (hended j hj hj')
    · cases exit with
      | returned n =>
        obtain ⟨hn, k, hk⟩ := hleaves
        exact ⟨hn, k, (endOf_cancelTasks s _ k).trans hk⟩
      | cancelledError => rfl
  | ended exit =>
    simp only [hstage] at h
    cases h

theorem step_sound (s : Send KP) (e : Event KP) (t : Send KP) (hs : s.Sound msg)
    (h : step pipe msg msgIdHex s e = some t) : t.Sound msg := by
  cases e with
  | taskEnds k o =>
    simp only [step] at h
    split at h
    · rename_i w hw
      split_ifs at h with hc
      cases h
      exact sound_taskEnds hs hw hc.1 hc.2
    · cases h
  | wake done => exact sound_wake hs h
  | gathered => exact sound_gathered hs h
  | cancel => exact sound_cancel hs h
  | other i c =>
    rw [step] at h
    split_ifs at h
    cases h
    exact hs

theorem queueAll_waits (A : Aio KP) (rnd : ℕ → ℕ) (now : ℕ → ℚ) (is : List ℕ)
    (clients : ℕ → MQTTClient KP) : ∀ w ∈ (queueAll pipe msg msgIdHex A rnd now is clients).2,
      w.cancelRequested = false ∧ w.ended = none := by
  induction is generalizing clients with
  | nil => simp [queueAll]
  | cons i is ih =>
    rw [queueAll]
    split
    · rename_i c _
      intro w hw
      rcases List.mem_cons.mp hw with rfl | hw
      · exact ⟨rfl, rfl⟩
      · exact ih _ w hw
    · exact ih _

theorem sound_start (A : Aio KP) (rnd : ℕ → ℕ) (now : ℕ → ℚ) (clients : ℕ → MQTTClient KP) :
    (start pipe msg msgIdHex A rnd now clients).Sound msg := by
  have hwaits : ∀ w ∈ (queueAll pipe msg msgIdHex A rnd now pipe.clients clients).2,
      w.cancelRequested = false ∧ w.ended = none := queueAll_waits A rnd now pipe.clients clients
  rw [start]
  generalize queueAll pipe msg msgIdHex A rnd now pipe.clients clients = q at hwaits ⊢
  apply sound_await
  · intro k hk
    exact List.mem_range.mp hk
  · intro k hk hnot
    exact absurd (List.mem_range.mpr hk) hnot
  · intro w hw
    exact (hwaits w hw).1
  · intro k hk
    simp only [endOf, Option.bind_eq_some_iff] at hk
    obtain ⟨w, hw, hended⟩ := hk
    cases (hwaits w (List.mem_of_getElem? hw)).2.symm.trans hended

theorem foldl_dequeue (msgIdHex : String) (is : List ℕ) (clients : ℕ → MQTTClient KP) (i : ℕ) :
    i ∈ is ∨ (clients i).queue .msg msgIdHex = none →
      (is.foldl (fun cs i => Function.update cs i ((cs i).dequeueMsg msgIdHex none .msg)) clients
        i).queue .msg msgIdHex = none := by
  induction is generalizing clients with
  | nil => simp
  | cons j is ih =>
    intro h
    rw [List.foldl_cons]
    apply ih
    by_cases hj : i = j
    · subst hj
      right
      rw [Function.update_self]
      exact MQTTClient.queue_dequeueMsg_none _ _ _
    · rw [Function.update_of_ne hj]
      rcases h with h | h
      · rcases List.mem_cons.mp h with rfl | h
        · exact absurd rfl hj
        · exact Or.inl h
      · exact Or.inr h

theorem not_holds_finish (s : Send KP) (exit : SendExit) {i : ℕ} (hi : i ∈ pipe.clients) :
    ¬ (s.finish pipe msgIdHex exit).Holds msgIdHex i := by
  have h := foldl_dequeue msgIdHex pipe.clients s.clients i (Or.inl hi)
  simp only [Holds, finish, h]
  exact Bool.false_ne_true

theorem queue_queueAll (A : Aio KP) (rnd : ℕ → ℕ) (now : ℕ → ℚ) (is : List ℕ)
    (clients : ℕ → MQTTClient KP) :
    (∀ i, ((clients i).queue .msg msgIdHex).isSome = true →
      (((queueAll pipe msg msgIdHex A rnd now is clients).1 i).queue .msg msgIdHex).isSome =
        true) ∧
    ((queueAll pipe msg msgIdHex A rnd now is clients).2 ≠ [] → ∃ i ∈ is,
      (((queueAll pipe msg msgIdHex A rnd now is clients).1 i).queue .msg msgIdHex).isSome =
        true) := by
  induction is generalizing clients with
  | nil => simp [queueAll]
  | cons i is ih =>
    have hq := MQTTClient.queue_queueMsg A (rnd is.length) (now is.length) msg pipe.destPubHex none
      (clients i) (t := .msg) (q := msgIdHex)
    have hupdate : ∀ c : MQTTClient KP,
        (((clients i).queue .msg msgIdHex).isSome = true → (c.queue .msg msgIdHex).isSome = true) →
        ∀ j, ((clients j).queue .msg msgIdHex).isSome = true →
          ((Function.update clients i c j).queue .msg msgIdHex).isSome = true := by
      intro c hc j hj
      by_cases heq : j = i
      · subst heq
        rw [Function.update_self]
        exact hc hj
      · rwa [Function.update_of_ne heq]
    rw [queueAll]
    cases hr : (clients i).queueMsg A (rnd is.length) (now is.length) msg pipe.destPubHex msgIdHex
        .msg none with
    | ok a c =>
      have hc : (c.queue .msg msgIdHex).isSome = true := by
        rcases hq with hq | ⟨e, d, hd, -⟩
        · rwa [hr] at hq
        · cases hr.symm.trans hd
      obtain ⟨hkeep, -⟩ := ih (Function.update clients i c)
      constructor
      · intro j hj
        exact hkeep j (hupdate c (fun _ => hc) j hj)
      · intro _
        refine ⟨i, List.mem_cons_self, hkeep i ?_⟩
        rw [Function.update_self]
        exact hc
    | error e c =>
      have hc : ((clients i).queue .msg msgIdHex).isSome = true →
          (c.queue .msg msgIdHex).isSome = true := by
        intro h
        rcases hq with hq | ⟨e', d, hd, hqueue⟩
        · rwa [hr] at hq
        · cases hr.symm.trans hd
          rwa [hqueue]
      obtain ⟨hkeep, hex⟩ := ih (Function.update clients i c)
      constructor
      · intro j hj
        exact hkeep j (hupdate c hc j hj)
      · intro hne
        obtain ⟨j, hj, h⟩ := hex hne
        exact ⟨j, List.mem_cons_of_mem i hj, h⟩

def HasQueue (pipe : SmartPipe) (msgIdHex : String) (s : Send KP) : Prop :=
  ∃ i ∈ pipe.clients, s.Holds msgIdHex i

def Cleaned (pipe : SmartPipe) (msgIdHex : String) (s : Send KP) : Prop :=
  ∀ i ∈ pipe.clients, ¬ s.Holds msgIdHex i

def Queued (pipe : SmartPipe) (msgIdHex : String) (s : Send KP) : Prop :=
  (∀ exit, s.stage ≠ .ended exit) → s.HasQueue pipe msgIdHex

def Tidy (pipe : SmartPipe) (msgIdHex : String) (s : Send KP) : Prop :=
  (∀ exit, s.stage = .ended exit → s.Cleaned pipe msgIdHex) ∧
    ∀ tasks exit, s.stage ≠ .cleaning tasks exit true

theorem tidy_of_stage (h : ∀ exit, s.stage ≠ .ended exit)
    (hint : ∀ tasks exit, s.stage ≠ .cleaning tasks exit true) : s.Tidy pipe msgIdHex :=
  ⟨fun exit he => absurd he (h exit), hint⟩

theorem tidy_finish (s : Send KP) (exit : SendExit) :
    (s.finish pipe msgIdHex exit).Tidy pipe msgIdHex :=
  ⟨fun _ _ _ hi => not_holds_finish s exit hi, by simp [finish]⟩

theorem tidy_leave (s : Send KP) (tasks : List ℕ) (exit : SendExit) :
    (s.leave pipe msgIdHex tasks exit).Tidy pipe msgIdHex := by
  rw [leave]
  split_ifs
  · exact tidy_finish s exit
  · exact tidy_of_stage (by simp) (by simp)

theorem tidy_await (s : Send KP) (tasks : List ℕ) :
    (s.await pipe msgIdHex tasks).Tidy pipe msgIdHex := by
  rw [await]
  split_ifs
  · exact tidy_leave s [] _
  · exact tidy_of_stage (by simp) (by simp)

theorem queued_leave (h : s.HasQueue pipe msgIdHex) (tasks : List ℕ) (exit : SendExit) :
    (s.leave pipe msgIdHex tasks exit).Queued pipe msgIdHex := by
  rw [leave]
  split_ifs
  · exact fun hne => absurd rfl (hne exit)
  · exact fun _ => h

theorem queued_await (h : s.HasQueue pipe msgIdHex) (tasks : List ℕ) :
    (s.await pipe msgIdHex tasks).Queued pipe msgIdHex := by
  rw [await]
  split_ifs
  · exact queued_leave h [] _
  · exact fun _ => h

theorem holds_other {i : ℕ} {c : MQTTClient KP}
    (h : (c.queue .msg msgIdHex).isSome = ((s.clients i).queue .msg msgIdHex).isSome) (j : ℕ) :
    Holds msgIdHex { s with clients := Function.update s.clients i c } j ↔ s.Holds msgIdHex j := by
  simp only [Holds]
  by_cases hj : j = i
  · subst hj
    rw [Function.update_self, h]
  · rw [Function.update_of_ne hj]

inductive Moves (pipe : SmartPipe) (msgIdHex : String) (s : Send KP) : Event KP → Send KP → Prop

  | stays {e : Event KP} {t : Send KP} : t.stage = s.stage →
      (∀ i, t.Holds msgIdHex i ↔ s.Holds msgIdHex i) → Moves pipe msgIdHex s e t

  | leaves {e : Event KP} {u : Send KP} {tasks : List ℕ} {exit : SendExit} :
      u.clients = s.clients → (∀ exit, s.stage ≠ .ended exit) →
      (∀ tasks exit, s.stage ≠ .cleaning tasks exit true) →
      Moves pipe msgIdHex s e (u.leave pipe msgIdHex tasks exit)

  | awaits {e : Event KP} {tasks waiting : List ℕ} : s.stage = .waiting waiting →
      Moves pipe msgIdHex s e (s.await pipe msgIdHex tasks)

  | gathers {e : Event KP} {t : Send KP} {tasks pending : List ℕ} {interrupted : Bool} :
      t.clients = s.clients → (∀ exit, s.stage ≠ .ended exit) →
      (∀ tasks exit, s.stage ≠ .cleaning tasks exit true) →
      t.stage = .gathering tasks pending interrupted → Moves pipe msgIdHex s e t

  | finishes {e : Event KP} {tasks : List ℕ} {exit : SendExit} :
      s.stage = .cleaning tasks exit false →
      Moves pipe msgIdHex s e (s.finish pipe msgIdHex exit)

  | disturbed {t : Send KP} {tasks : List ℕ} {exit : SendExit} {interrupted : Bool} :
      t.clients = s.clients → s.stage = .cleaning tasks exit interrupted →
      t.stage = .cleaning tasks exit true → Moves pipe msgIdHex s .cancel t

  | abandons {e : Event KP} {tasks : List ℕ} {exit : SendExit} :
      s.stage = .cleaning tasks exit true →
      Moves pipe msgIdHex s e { s with stage := .ended .cancelledError }

theorem step_moves {e : Event KP} (h : step pipe msg msgIdHex s e = some t) :
    Moves pipe msgIdHex s e t := by
  cases e with
  | taskEnds k o =>
    simp only [step] at h
    split at h
    · split_ifs at h
      cases h
      exact .stays rfl fun _ => Iff.rfl
    · cases h
  | wake done =>
    cases hstage : s.stage with
    | waiting tasks =>
      simp only [step, hstage] at h
      by_cases hdone : done ≠ [] ∧ done.Perm (tasks.filter fun k => (s.endOf k).isSome)
      swap
      · rw [if_neg hdone] at h
        cases h
      rw [if_pos hdone] at h
      cases hloop : s.loop msg done with
      | none =>
        rw [hloop] at h
        cases h
        exact .awaits hstage
      | some exit =>
        rw [hloop] at h
        cases exit with
        | returned n =>
          simp only at h
          split_ifs at h
          · cases h
            exact .leaves rfl (by simp [hstage]) (by simp [hstage])
          · cases h
            exact .gathers rfl (by simp [hstage]) (by simp [hstage]) rfl
        | cancelledError =>
          cases h
          exact .leaves rfl (by simp [hstage]) (by simp [hstage])
    | gathering => simp [step, hstage] at h
    | cleaning => simp [step, hstage] at h
    | ended => simp [step, hstage] at h
  | gathered =>
    cases hstage : s.stage with
    | waiting => simp [step, hstage] at h
    | gathering tasks pending interrupted =>
      simp only [step, hstage] at h
      split_ifs at h <;> cases h <;> exact .leaves rfl (by simp [hstage]) (by simp [hstage])
    | cleaning tasks exit interrupted =>
      simp only [step, hstage] at h
      split_ifs at h with hall hi
      · cases h
        subst hi
        exact .abandons hstage
      · cases h
        rw [Bool.not_eq_true] at hi
        subst hi
        exact .finishes hstage
    | ended => simp [step, hstage] at h
  | cancel =>
    rw [step] at h
    split_ifs at h
    cases hstage : s.stage with
    | waiting tasks =>
      simp only [hstage, Option.some.injEq] at h
      rw [← h]
      exact .leaves rfl (by simp [hstage]) (by simp [hstage])
    | gathering tasks pending interrupted =>
      simp only [hstage, Option.some.injEq] at h
      rw [← h]
      exact .gathers rfl (by simp [hstage]) (by simp [hstage]) rfl
    | cleaning tasks exit interrupted =>
      simp only [hstage, Option.some.injEq] at h
      rw [← h]
      exact .disturbed rfl hstage rfl
    | ended exit =>
      simp only [hstage] at h
      cases h
  | other i c =>
    rw [step] at h
    split_ifs at h with hc
    cases h
    exact .stays rfl (holds_other hc)

theorem hasQueue_of_clients {u : Send KP} (h : u.clients = s.clients) :
    u.HasQueue pipe msgIdHex ↔ s.HasQueue pipe msgIdHex := by
  simp only [HasQueue, Holds, h]

theorem step_queued (s : Send KP) (e : Event KP) (t : Send KP) (hs : s.Queued pipe msgIdHex)
    (h : step pipe msg msgIdHex s e = some t) : t.Queued pipe msgIdHex := by
  cases step_moves h with
  | stays hstage hholds =>
    intro hne
    rw [hstage] at hne
    obtain ⟨i, hi, h⟩ := hs hne
    exact ⟨i, hi, (hholds i).mpr h⟩
  | leaves hc hne _ => exact queued_leave ((hasQueue_of_clients hc).mpr (hs hne)) _ _
  | awaits hstage => exact queued_await (hs (by simp [hstage])) _
  | gathers hc hne _ _ => exact fun _ => (hasQueue_of_clients hc).mpr (hs hne)
  | finishes hstage => exact fun hne => absurd rfl (hne _)
  | disturbed hc hstage _ => exact fun _ => (hasQueue_of_clients hc).mpr (hs (by simp [hstage]))
  | abandons hstage => exact fun hne => absurd rfl (hne _)

theorem step_tidy (s : Send KP) (e : Event KP) (t : Send KP) (hs : s.Tidy pipe msgIdHex)
    (he : s.Undisturbed e) (h : step pipe msg msgIdHex s e = some t) : t.Tidy pipe msgIdHex := by
  cases step_moves h with
  | stays hstage hholds =>
    refine ⟨?_, fun tasks exit => hstage ▸ hs.2 tasks exit⟩
    intro exit hexit i hi hh
    exact hs.1 exit (hstage ▸ hexit) i hi ((hholds i).mp hh)
  | leaves => exact tidy_leave _ _ _
  | awaits => exact tidy_await s _
  | gathers _ _ _ ht => exact tidy_of_stage (by simp [ht]) (by simp [ht])
  | finishes => exact tidy_finish s _
  | disturbed _ hstage _ => simp only [Undisturbed, hstage] at he
  | abandons hstage => exact absurd hstage (hs.2 _ _)

def Disturbed (pipe : SmartPipe) (msgIdHex : String) (s : Send KP) : Prop :=
  s.HasQueue pipe msgIdHex ∧
    ((∃ tasks exit, s.stage = .cleaning tasks exit true) ∨ ∃ exit, s.stage = .ended exit)

theorem step_disturbed (s : Send KP) (e : Event KP) (t : Send KP)
    (hs : s.Disturbed pipe msgIdHex) (h : step pipe msg msgIdHex s e = some t) :
    t.Disturbed pipe msgIdHex := by
  obtain ⟨⟨i, hi, hh⟩, hstage⟩ := hs
  cases step_moves h with
  | stays ht hholds => exact ⟨⟨i, hi, (hholds i).mpr hh⟩, ht ▸ hstage⟩
  | leaves _ hne hint =>
    rcases hstage with ⟨tasks, exit, h⟩ | ⟨exit, h⟩
    · exact absurd h (hint tasks exit)
    · exact absurd h (hne exit)
  | awaits hw =>
    rcases hstage with ⟨tasks, exit, h'⟩ | ⟨exit, h'⟩ <;> cases hw.symm.trans h'
  | gathers _ hne hint _ =>
    rcases hstage with ⟨tasks, exit, h⟩ | ⟨exit, h⟩
    · exact absurd h (hint tasks exit)
    · exact absurd h (hne exit)
  | finishes hw =>
    rcases hstage with ⟨tasks, exit, h'⟩ | ⟨exit, h'⟩ <;> cases hw.symm.trans h'
  | disturbed hc _ ht => exact ⟨(hasQueue_of_clients hc).mpr ⟨i, hi, hh⟩, Or.inl ⟨_, _, ht⟩⟩
  | abandons => exact ⟨⟨i, hi, hh⟩, Or.inr ⟨_, rfl⟩⟩

theorem queued_start (A : Aio KP) (rnd : ℕ → ℕ) (now : ℕ → ℚ) (clients : ℕ → MQTTClient KP) :
    (start pipe msg msgIdHex A rnd now clients).Queued pipe msgIdHex := by
  have hqueue : (queueAll pipe msg msgIdHex A rnd now pipe.clients clients).2 ≠ [] →
      ∃ i ∈ pipe.clients, (((queueAll pipe msg msgIdHex A rnd now pipe.clients clients).1 i).queue
        .msg msgIdHex).isSome = true := (queue_queueAll A rnd now pipe.clients clients).2
  rw [start]
  generalize queueAll pipe msg msgIdHex A rnd now pipe.clients clients = q at hqueue ⊢
  by_cases hnil : q.2 = []
  · simp only [hnil, List.length_nil, List.range_zero, await, if_true, leave]
    exact fun hne => absurd rfl (hne _)
  · apply queued_await
    exact hqueue hnil

/-- The events that are no more than `send` itself going on. -/
def Event.own : Event KP → Prop
  | .wake _ | .gathered => True
  | _ => False

theorem ends_leave (tasks : List ℕ) (hbound : ∀ k ∈ tasks, k < s.waits.length)
    (hended : s.EndedBut []) (exit : SendExit) : ∃ es t exit', (∀ e ∈ es, Event.own e) ∧
      Machine.run (step pipe msg msgIdHex) (s.leave pipe msgIdHex tasks exit) es = some t ∧
      t.stage = .ended exit' := by
  rw [leave]
  split_ifs
  · exact ⟨[], _, exit, by simp, rfl, rfl⟩
  · have hall : tasks.all (fun k => ((s.cancelTasks tasks).endOf k).isSome) = true := by
      rw [List.all_eq_true]
      intro k hk
      rw [endOf_cancelTasks]
      exact hended k (hbound k hk) List.not_mem_nil
    refine ⟨[.gathered], finish pipe msgIdHex { s.cancelTasks tasks with
      stage := .cleaning tasks exit false } exit, exit, by simp [Event.own], ?_, rfl⟩
    rw [Machine.run_cons_eq_some]
    refine ⟨_, ?_, rfl⟩
    exact if_pos hall

/-- Once every wait has ended, the call ends by itself. -/
theorem ends (hs : s.Sound msg) (hended : s.EndedBut []) : ∃ es t exit,
    (∀ e ∈ es, Event.own e) ∧ Machine.run (step pipe msg msgIdHex) s es = some t ∧
      t.stage = .ended exit := by
  have hcons : ∀ {e u}, Event.own e → step pipe msg msgIdHex s e = some u →
      (∃ es t exit, (∀ e ∈ es, Event.own e) ∧
        Machine.run (step pipe msg msgIdHex) u es = some t ∧ t.stage = .ended exit) →
      ∃ es t exit, (∀ e ∈ es, Event.own e) ∧ Machine.run (step pipe msg msgIdHex) s es = some t ∧
        t.stage = .ended exit := by
    rintro e u he hu ⟨es, t, exit, hes, hrun, ht⟩
    exact ⟨e :: es, t, exit, List.forall_mem_cons.mpr ⟨he, hes⟩,
      Machine.run_cons_eq_some.mpr ⟨u, hu, hrun⟩, ht⟩
  have hsome : ∀ {tasks : List ℕ}, (∀ k ∈ tasks, k < s.waits.length) →
      tasks.all (fun k => (s.endOf k).isSome) = true := by
    intro tasks hbound
    rw [List.all_eq_true]
    exact fun k hk => hended k (hbound k hk) List.not_mem_nil
  cases hstage : s.stage with
  | waiting tasks =>
    rw [Sound, hstage] at hs
    obtain ⟨hne, hbound, -, -, hcan⟩ := hs
    have hdone : tasks.filter (fun k => (s.endOf k).isSome) = tasks :=
      List.filter_eq_self.mpr (List.all_eq_true.mp (hsome hbound))
    have hnone : tasks.filter (fun k => (s.endOf k).isNone) = [] := by
      rw [List.filter_eq_nil_iff]
      intro k hk
      have hk' := List.all_eq_true.mp (hsome hbound) k hk
      rw [← Option.not_isSome, hk']
      simp
    rcases loop_cases msg s tasks with ⟨k, hk, hack, hloop⟩ | ⟨k, hk, hcancelled⟩ | ⟨hloop, hnot⟩
    · refine hcons (e := .wake tasks) trivial ?_ (ends_leave _ hbound hended (.returned msg.len))
      simp only [step, hstage, hdone, hnone, hloop, if_pos (⟨hne, List.Perm.refl tasks⟩ :
        tasks ≠ [] ∧ tasks.Perm tasks), if_true]
    · exact absurd hcancelled (hcan k)
    · refine hcons (e := .wake tasks) trivial ?_ (ends_leave [] (by simp) hended
        (.returned 0))
      simp only [step, hstage, hdone, hnone, hloop, if_pos (⟨hne, List.Perm.refl tasks⟩ :
        tasks ≠ [] ∧ tasks.Perm tasks), await, if_true]
  | gathering tasks pending interrupted =>
    rw [Sound, hstage] at hs
    obtain ⟨-, hbound, hsub, -⟩ := hs
    refine hcons (e := .gathered) trivial ?_ (ends_leave _ hbound hended
      (if interrupted then .cancelledError else .returned msg.len))
    simp only [step, hstage, if_pos (hsome fun k hk => hbound k (hsub k hk))]
  | cleaning tasks exit interrupted =>
    rw [Sound, hstage] at hs
    obtain ⟨-, hbound, -⟩ := hs
    cases interrupted with
    | true =>
      refine hcons (e := .gathered) (u := { s with stage := .ended .cancelledError }) trivial ?_
        ⟨[], _, _, by simp, rfl, rfl⟩
      simp only [step, hstage, if_pos (hsome hbound), if_true]
    | false =>
      refine hcons (e := .gathered) (u := s.finish pipe msgIdHex exit) trivial ?_
        ⟨[], _, _, by simp, rfl, rfl⟩
      simp only [step, hstage, if_pos (hsome hbound), Bool.false_eq_true, if_false]
  | ended exit => exact ⟨[], s, exit, by simp, rfl, hstage⟩

/-- A call that returns does so with the length of the message exactly if a wait ended with an
acknowledgement, and with 0 otherwise; however it ends, no wait is left, and no queue is left on the
clients of the pipe exactly if it was not cancelled while it cleaned up. It ends once its waits
have. -/
theorem send_outcome_iff (A : Aio KP) (pipe : SmartPipe) (msg : PyMsg) (msgIdHex : String)
    (rnd : ℕ → ℕ) (now : ℕ → ℚ) (clients : ℕ → MQTTClient KP) (hmsg : msg.len ≠ 0)
    {es : List (Event KP)}
    (h : Machine.run (step pipe msg msgIdHex) (start pipe msg msgIdHex A rnd now clients) es =
      some s) :
    (∀ n, s.stage = .ended (.returned n) → (n = msg.len ↔ s.Acked) ∧ (n = 0 ↔ ¬ s.Acked)) ∧
    (s.stage = .ended .cancelledError → s.cancelled = true) ∧
    (∀ exit, s.stage = .ended exit → (∀ w ∈ s.waits, w.ended ≠ none) ∧
      (s.Cleaned pipe msgIdHex ↔ Machine.Meets (step pipe msg msgIdHex) Undisturbed
        (start pipe msg msgIdHex A rnd now clients) es)) ∧
    ((∀ w ∈ s.waits, w.ended ≠ none) → ∃ es' t exit, (∀ e ∈ es', Event.own e) ∧
      Machine.run (step pipe msg msgIdHex) s es' = some t ∧ t.stage = .ended exit) := by
  have hs : s.Sound msg := Machine.run_preserves step_sound (sound_start A rnd now clients) h
  have hended : (∀ w ∈ s.waits, w.ended ≠ none) ↔ s.EndedBut [] := by
    constructor
    · intro hw k hk _
      rw [endOf, List.getElem?_eq_getElem hk, Option.bind_some, Option.isSome_iff_ne_none]
      exact hw _ (List.getElem_mem hk)
    · intro he w hw hnone
      obtain ⟨k, hk⟩ := List.mem_iff_getElem?.mp hw
      have hsome := he k (List.getElem?_eq_some_iff.mp hk).1 List.not_mem_nil
      rw [endOf, hk, Option.bind_some, hnone] at hsome
      cases hsome
  refine ⟨?_, ?_, ?_, fun hw => ends hs (hended.mp hw)⟩
  · intro n hn
    rw [Sound, hn] at hs
    rcases hs.2 with ⟨rfl, hack⟩ | ⟨rfl, hnack⟩
    · exact ⟨⟨fun _ => hack, fun _ => rfl⟩, fun h0 => absurd h0 hmsg, fun hn => absurd hack hn⟩
    · exact ⟨⟨fun h0 => absurd h0.symm hmsg, fun hack => absurd hack hnack⟩, fun _ => hnack,
        fun _ => rfl⟩
  · intro hn
    rw [Sound, hn] at hs
    exact hs.2
  · intro exit hexit
    rw [Sound, hexit] at hs
    refine ⟨hended.mpr hs.1, ?_, ?_⟩
    · intro hclean
      by_contra hnot
      obtain ⟨bs, e, cs, u, v, -, hu, he, hv, ht⟩ := Machine.exists_of_not_meets h hnot
      -- the step that breaks the condition is the cancellation of a call that cleans up
      have hdisturbed : v.Disturbed pipe msgIdHex := by
        have hqueued : u.Queued pipe msgIdHex :=
          Machine.run_preserves step_queued (queued_start A rnd now clients) hu
        cases e with
        | cancel =>
          cases hstage : u.stage with
          | cleaning tasks exit interrupted =>
            rw [step] at hv
            split_ifs at hv
            simp only [hstage, Option.some.injEq] at hv
            rw [← hv]
            exact ⟨hqueued (by simp [hstage]), Or.inl ⟨_, _, rfl⟩⟩
          | _ => simp [Undisturbed, hstage] at he
        | _ => simp [Undisturbed] at he
      obtain ⟨⟨i, hi, hh⟩, -⟩ := Machine.run_preserves step_disturbed hdisturbed ht
      exact hclean i hi hh
    · intro hm
      have htidy : (start pipe msg msgIdHex A rnd now clients).Tidy pipe msgIdHex := by
        rw [start]
        exact tidy_await _ _
      exact (Machine.run_invariant step_tidy htidy hm h).1 exit hexit

def sendHi : Send ℕ :=
  start ⟨[0], concrete.pkHex 1⟩ (.str "hi") (Concrete.queueId 'a') concrete (fun _ => 0)
    (fun _ => 0) fun _ => .init 0 HandlerSet.empty

theorem send_outcome_iff_acked : ∃ s, Machine.run (step ⟨[0], concrete.pkHex 1⟩ (.str "hi")
      (Concrete.queueId 'a')) sendHi [.taskEnds 0 .acked, .wake [0], .gathered] = some s ∧
    s.stage = .ended (.returned 2) ∧ s.Acked := by
  obtain ⟨s, hs, hp⟩ := Machine.exists_run_of_any (step ⟨[0], concrete.pkHex 1⟩ (.str "hi")
    (Concrete.queueId 'a')) sendHi [.taskEnds 0 .acked, .wake [0], .gathered]
    (fun s => s.stage = .ended (.returned 2)) (by decide +kernel)
  have hstage := of_decide_eq_true hp
  exact ⟨s, hs, hstage, ((send_outcome_iff concrete ⟨[0], concrete.pkHex 1⟩ (.str "hi")
    (Concrete.queueId 'a') (fun _ => 0) (fun _ => 0) (fun _ => .init 0 HandlerSet.empty)
    (by decide +kernel) hs).1 2 hstage).1.mp (by decide +kernel)⟩

/-- The call is cancelled while it waits for the tasks that its `finally` block gathers. -/
theorem queue_left_behind : ∃ s, Machine.run (step ⟨[0], concrete.pkHex 1⟩ (.str "hi")
      (Concrete.queueId 'a')) sendHi [.taskEnds 0 .acked, .wake [0], .cancel, .gathered] = some s ∧
    s.stage = .ended .cancelledError ∧ s.Holds (Concrete.queueId 'a') 0 := by
  obtain ⟨s, hs, hp⟩ := Machine.exists_run_of_any (step ⟨[0], concrete.pkHex 1⟩ (.str "hi")
    (Concrete.queueId 'a')) sendHi [.taskEnds 0 .acked, .wake [0], .cancel, .gathered]
    (fun s => s.stage = .ended .cancelledError ∧ s.Holds (Concrete.queueId 'a') 0)
    (by decide +kernel)
  exact ⟨s, hs, of_decide_eq_true hp⟩

end Send

end Sidewire
