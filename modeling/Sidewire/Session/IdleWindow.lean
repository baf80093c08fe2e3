import Sidewire.Session.Running

/-! # The idle window

A history of one client: connects through `try_client`, one after the other,
passes of the idle closer, and messages queued at any time. The closer reads
`last_send` and, where there is none, `last_connect`; what these fields stand for
is followed through the history.
-/

namespace Sidewire

/-- A client and the times of its history: when its connection was made, when a message was last
queued, ever and since the last idle close, and when the connect that failed last was called. -/
structure Timeline where
  session : Session := {}
  clock : ℚ
  connectedAt : Option ℚ := none
  queuedAt : Option ℚ := none
  noted : Option ℚ := none
  failedAt : Option ℚ := none
  deriving DecidableEq, Repr

namespace Timeline

open Session

inductive Event
  | tick (t : ℚ)
  | tryClient
  | queueMsg
  | idlePass
  | goesOn (a : Act)
  deriving DecidableEq, Repr

def isOver : ClientCall → Bool
  | .over _ => true
  | _ => false

def isTrying : ClientCall → Bool
  | .entering _ | .connect (some _) _ _ => true
  | _ => false

def resumed : Act → Option ℕ
  | .reply k _ _ | .timeout k _ _ => some k
  | _ => none

def isAwait : Act → Bool
  | .reply .. | .timeout .. | .dispatch .. | .lost _ | .chunk .. | .resume => true
  | .connect | .tryClient _ | .close | .routerClose | .idleClose _ | .queueMsg _ => false

/-- The `close` of a pass comes to its end with an exception that the pass does not catch. -/
def escapes (c c' : ClientCall) : Bool :=
  match c' with
  | .over (.failed exc) => idleClosing c && exc ≠ .osError && exc ≠ .connectionError
  | _ => false

def note (x : Timeline) (c c' : ClientCall) : Timeline :=
  match c, c' with
  | .connect _ _ _, .over .client => { x with connectedAt := some x.clock }
  | .connect (some now) _ _, .over .noClient => { x with failedAt := some now }
  | c, .over _ => if idleClosing c then { x with noted := none } else x
  | _, _ => x

/-- The client has gone on to `t` after an await. -/
def goOn (x : Timeline) (t : Session) (k : Option ℕ) : Option Timeline :=
  match k.bind fun k => x.session.calls[k]?, k.bind fun k => t.calls[k]? with
  | some c, some c' => if escapes c c' then none else some ({ x with session := t }.note c c')
  | _, _ => some { x with session := t }

/-- No connect begins before the calls begun before it are over, and no pass during another's
close. -/
def step (pipelined : Bool) (x : Timeline) : Event → Option Timeline
  | .tick t => if x.clock ≤ t then some { x with clock := t } else none
  | .tryClient =>
    if x.session.dispatcherTask ≠ none ∨ x.session.calls.all isOver then
      some { x with session := x.session.start (x.session.tryClient x.clock) }
    else none
  | .queueMsg =>
    some { x with
      session := { x.session with lastSend := some x.clock }
      queuedAt := some x.clock
      noted := some x.clock }
  | .idlePass =>
    if x.session.calls.any idleClosing then none
    else some { x with session := x.session.idleClose x.clock }
  | .goesOn a =>
    if isAwait a then (x.session.step pipelined a).bind fun t => x.goOn t (resumed a) else none

/-- `last_connect`, where the closer goes by it. -/
def failure (x : Timeline) : Option ℚ := x.failedAt.filter (· ≠ 0)

structure Consistent (x : Timeline) : Prop where
  single : ∀ (i j : ℕ) (c c' : ClientCall), x.session.calls[i]? = some c →
    x.session.calls[j]? = some c' → isOver c = false → isOver c' = false → i = j
  calls : ∀ c ∈ x.session.calls, isOver c = false → isTrying c = true ∨ idleClosing c = true
  isClosed : x.session.isClosed = true → ∃ c ∈ x.session.calls, idleClosing c = true
  trying : ∀ c ∈ x.session.calls, isTrying c = true → x.session.dispatcherTask = none
  past : ∀ c ∈ x.session.calls, pastCancel c = true → x.session.dispatcherTask = none
  failed : x.session.lastConnect = x.failedAt
  noted : x.noted = none ∨ x.noted = x.queuedAt
  queued : ∀ q ∈ x.queuedAt, q ≤ x.clock
  unconnected : x.session.dispatcherTask = none → (∀ c ∈ x.session.calls, idleClosing c = false) →
    x.session.lastSend = x.noted
  connected : x.session.dispatcherTask ≠ none → ∃ c, x.connectedAt = some c ∧ c ≤ x.clock ∧
    (x.noted = none → ∀ q ∈ x.queuedAt, q ≤ c) ∧
    (x.session.lastSend = x.noted ∨ x.noted = none ∧ ∃ b, x.session.lastSend = some b ∧
      (x.failure = some b ∨ x.failure = none ∧ c ≤ b))

variable {pipelined : Bool} {x y : Timeline} {e : Event} {t : Session} {k : ℕ} {c c' : ClientCall}

theorem consistent_init (clock : ℚ) : Consistent { clock } where
  single := by simp
  calls := by simp
  isClosed := by simp
  trying := by simp
  past := by simp
  failed := rfl
  noted := Or.inl rfl
  queued := by simp
  unconnected _ _ := rfl
  connected h := absurd rfl h

theorem isOver_of_all (h : x.session.calls.all isOver = true) :
    ∀ c ∈ x.session.calls, isOver c = true :=
  List.all_eq_true.mp h

theorem idleClosing_of_isOver (h : isOver c = true) : idleClosing c = false := by
  cases c <;> first | rfl | cases h

theorem isOver_of_idleClosing (h : idleClosing c = true) : isOver c = false := by
  cases c <;> first | rfl | cases h

theorem isOver_of_isTrying (h : isTrying c = true) : isOver c = false := by
  cases c <;> first | rfl | cases h

theorem not_idleClosing_of_isTrying (h : isTrying c = true) : idleClosing c = false := by
  cases c <;> first | rfl | cases h

theorem Consistent.frame (h : Consistent x) (hclosed : t.isClosed = x.session.isClosed)
    (htask : t.dispatcherTask = x.session.dispatcherTask) (hcalls : t.calls = x.session.calls)
    (hconnect : t.lastConnect = x.session.lastConnect) (hsend : t.lastSend = x.session.lastSend) :
    Consistent { x with session := t } := by
  obtain ⟨h₁, h₂, h₃, h₄, h₅, h₆, h₇, h₈, h₉, h₁₀⟩ := h
  rw [← hcalls] at h₁ h₂ h₃ h₄ h₅ h₉
  rw [← hclosed] at h₃
  rw [← htask] at h₄ h₅ h₉ h₁₀
  rw [← hconnect] at h₆
  rw [← hsend] at h₉ h₁₀
  exact ⟨h₁, h₂, h₃, h₄, h₅, h₆, h₇, h₈, h₉, h₁₀⟩

theorem Consistent.setCall {u : Session} (h : Consistent x) (hk : x.session.calls[k]? = some c)
    (hc : isOver c = false) (hu : u.calls = x.session.calls) (hy : y.session = u.setCall k c')
    (hcall : isOver c' = false → isTrying c' = true ∨ idleClosing c' = true)
    (hclosed : u.isClosed = true → idleClosing c' = true)
    (htask : isTrying c' = true ∨ pastCancel c' = true → u.dispatcherTask = none)
    (hfailed : u.lastConnect = y.failedAt) (hnoted : y.noted = none ∨ y.noted = y.queuedAt)
    (hqueued : ∀ q ∈ y.queuedAt, q ≤ y.clock)
    (hun : u.dispatcherTask = none → idleClosing c' = false → u.lastSend = y.noted)
    (hcon : u.dispatcherTask ≠ none → ∃ c, y.connectedAt = some c ∧ c ≤ y.clock ∧
      (y.noted = none → ∀ q ∈ y.queuedAt, q ≤ c) ∧
      (u.lastSend = y.noted ∨ y.noted = none ∧ ∃ b, u.lastSend = some b ∧
        (y.failure = some b ∨ y.failure = none ∧ c ≤ b))) : Consistent y := by
  have hlt : k < x.session.calls.length := (List.getElem?_eq_some_iff.mp hk).1
  have hcalls : y.session.calls = x.session.calls.set k c' := by rw [hy, Session.setCall, hu]
  have hidx : ∀ {i : ℕ} {d : ClientCall}, y.session.calls[i]? = some d → isOver d = false →
      i = k ∧ d = c' := by
    intro i d hd hover
    rw [hcalls, List.getElem?_set] at hd
    split_ifs at hd with hik
    · exact ⟨hik.symm, (Option.some.inj hd).symm⟩
    · exact absurd (h.single k i c d hk hd hc hover) hik
  have hmem : ∀ d ∈ y.session.calls, isOver d = false → d = c' := by
    intro d hd hover
    obtain ⟨i, hi⟩ := List.getElem?_of_mem hd
    exact (hidx hi hover).2
  have hin : c' ∈ y.session.calls := by
    rw [hcalls]
    exact List.mem_set hlt c'
  constructor
  · intro i j d d' hd hd' hover hover'
    rw [(hidx hd hover).1, (hidx hd' hover').1]
  · intro d hd hover
    obtain rfl := hmem d hd hover
    exact hcall hover
  · intro hy'
    exact ⟨c', hin, hclosed (by rw [hy] at hy'; exact hy')⟩
  · intro d hd hconn
    obtain rfl := hmem d hd (isOver_of_isTrying hconn)
    rw [hy]
    exact htask (Or.inl hconn)
  · intro d hd hpast
    obtain rfl := hmem d hd (isOver_of_idleClosing (idleClosing_of_pastCancel hpast))
    rw [hy]
    exact htask (Or.inr hpast)
  · rw [hy]
    exact hfailed
  · exact hnoted
  · exact hqueued
  · intro hnone hidle
    rw [hy] at hnone ⊢
    exact hun hnone (hidle c' hin)
  · intro hsome
    rw [hy] at hsome ⊢
    exact hcon hsome

theorem goOn_setCall {u : Session} (h : x.goOn (u.setCall k c') (some k) = some y)
    (hk : x.session.calls[k]? = some c) (hu : u.calls = x.session.calls) :
    escapes c c' = false ∧ y = { x with session := u.setCall k c' }.note c c' := by
  have hlt : k < x.session.calls.length := (List.getElem?_eq_some_iff.mp hk).1
  have hk' : (u.setCall k c').calls[k]? = some c' := by
    rw [Session.setCall, hu, List.getElem?_set_self hlt]
  simp only [goOn, Option.bind_some, hk, hk'] at h
  split_ifs at h with hescapes
  exact ⟨by simpa using hescapes, (Option.some.inj h).symm⟩

theorem Consistent.not_idleClosing (h : Consistent x) (hk : x.session.calls[k]? = some c)
    (hc : isTrying c = true) : ∀ d ∈ x.session.calls, idleClosing d = false := by
  intro d hd
  by_contra hidle
  rw [Bool.not_eq_false] at hidle
  obtain ⟨i, hi⟩ := List.getElem?_of_mem hd
  obtain rfl := h.single k i c d hk hi (isOver_of_isTrying hc) (isOver_of_idleClosing hidle)
  cases hk.symm.trans hi
  cases hidle.symm.trans (not_idleClosing_of_isTrying hc)

theorem Consistent.isTrying_of_connect (h : Consistent x) {tried : Option ℚ} {m : MqttConnect}
    {timedOut : Bool} (hk : x.session.calls[k]? = some (.connect tried m timedOut)) :
    ∃ now, tried = some now := by
  rcases h.calls _ (List.mem_of_getElem? hk) rfl with htry | hidle
  · cases tried with
    | none => cases htry
    | some now => exact ⟨now, rfl⟩
  · cases hidle

theorem Consistent.closer_eq_idle (h : Consistent x) (hk : x.session.calls[k]? = some c)
    {closer : Closer} (hc : (∃ d, c = .cancelling closer d) ∨ c = .disconnecting closer ∨
      ∃ p, c = .closingPipe closer p) : closer = .idle := by
  have hmem := h.calls c (List.mem_of_getElem? hk)
  cases closer with
  | idle => rfl
  | plain => rcases hc with ⟨d, rfl⟩ | rfl | ⟨p, rfl⟩ <;> rcases hmem rfl with hn | hn <;> cases hn

theorem Consistent.tries (h : Consistent x) (hk : x.session.calls[k]? = some c)
    (hc : isTrying c = true) (hc' : isTrying c' = true) (conn : Connection) :
    Consistent { x with session := { x.session with conn }.setCall k c' } := by
  have hnone := h.trying _ (List.mem_of_getElem? hk) hc
  have hidle := h.not_idleClosing hk hc
  refine h.setCall (u := { x.session with conn }) hk (isOver_of_isTrying hc) rfl rfl
    (fun _ => Or.inl hc') ?_ (fun _ => hnone) h.failed h.noted h.queued
    (fun hn _ => h.unconnected hn hidle) (fun hs => absurd hnone hs)
  intro hclosed
  obtain ⟨d, hd, hd'⟩ := h.isClosed hclosed
  cases hd'.symm.trans (hidle d hd)

theorem Consistent.tried (h : Consistent x) (hk : x.session.calls[k]? = some c)
    (hc : isTrying c = true) (hc' : isOver c' = true) {u : Session}
    (hu : u.calls = x.session.calls) (hclosed : u.isClosed = x.session.isClosed)
    (hsend : u.lastSend = x.session.lastSend) (hy : y.session = u.setCall k c')
    (hclock : y.clock = x.clock) (hqueued : y.queuedAt = x.queuedAt) (hnoted : y.noted = x.noted)
    (hfailed : u.lastConnect = y.failedAt)
    (hcon : u.dispatcherTask ≠ none → y.connectedAt = some x.clock) : Consistent y := by
  have hnone := h.trying _ (List.mem_of_getElem? hk) hc
  have hidle := h.not_idleClosing hk hc
  have hlast : u.lastSend = y.noted := by
    rw [hsend, hnoted]
    exact h.unconnected hnone hidle
  have hle : ∀ q ∈ y.queuedAt, q ≤ x.clock := by
    rw [hqueued]
    exact h.queued
  refine h.setCall hk (isOver_of_isTrying hc) hu hy (fun hn => ?_) ?_ ?_ hfailed ?_ ?_
    (fun _ _ => hlast) ?_
  · cases hc'.symm.trans hn
  · intro hclosed'
    obtain ⟨d, hd, hd'⟩ := h.isClosed (hclosed ▸ hclosed')
    cases hd'.symm.trans (hidle d hd)
  · rintro (htry | hpast)
    · cases hc'.symm.trans (isOver_of_isTrying htry)
    · cases hc'.symm.trans (isOver_of_idleClosing (idleClosing_of_pastCancel hpast))
  · rw [hnoted, hqueued]
    exact h.noted
  · rw [hclock]
    exact hle
  · intro hsome
    exact ⟨x.clock, hcon hsome, hclock.ge, fun _ => hle, Or.inl hlast⟩

theorem Consistent.closes (h : Consistent x) (hk : x.session.calls[k]? = some c)
    (hc : idleClosing c = true) (hc' : idleClosing c' = true) {u : Session}
    (hu : u.calls = x.session.calls) (hsend : u.lastSend = x.session.lastSend)
    (hconnect : u.lastConnect = x.session.lastConnect)
    (htask : pastCancel c' = true → u.dispatcherTask = none)
    (hcon : u.dispatcherTask ≠ none → x.session.dispatcherTask ≠ none) :
    Consistent { x with session := u.setCall k c' } := by
  refine h.setCall (u := u) hk (isOver_of_idleClosing hc) hu rfl (fun _ => Or.inr hc')
    (fun _ => hc') ?_ ?_ h.noted h.queued ?_ ?_
  · rintro (htry | hpast)
    · cases hc'.symm.trans (not_idleClosing_of_isTrying htry)
    · exact htask hpast
  · rw [hconnect]
    exact h.failed
  · intro _ hidle
    cases hc'.symm.trans hidle
  · intro hsome
    rw [hsend]
    exact h.connected (hcon hsome)

theorem Consistent.closed (h : Consistent x) (hk : x.session.calls[k]? = some c)
    (hc : idleClosing c = true) {u : Session} {r : CallResult} (hu : u.calls = x.session.calls)
    (hconnect : u.lastConnect = x.session.lastConnect) (htask : u.dispatcherTask = none) :
    Consistent { x with session := (u.released .idle).setCall k (.over r), noted := none } := by
  refine h.setCall (u := u.released .idle) hk (isOver_of_idleClosing hc) hu rfl (fun hn => ?_)
    (fun hn => ?_) (fun _ => htask) ?_ (Or.inl rfl) h.queued (fun _ _ => rfl)
    (fun hs => absurd htask hs)
  · cases hn
  · cases hn
  · exact hconnect.trans h.failed

theorem Consistent.closeFailed (h : Consistent x) (hk : x.session.calls[k]? = some c)
    (hc : idleClosing c = true) {u : Session} {exc : AwaitExc} (hu : u.calls = x.session.calls)
    (hconnect : u.lastConnect = x.session.lastConnect)
    (htask : exc = .osError ∨ exc = .connectionError → u.dispatcherTask = none)
    (hy : x.goOn (u.closeFailed k .idle exc) (some k) = some y) : Consistent y := by
  rw [Session.closeFailed] at hy
  split_ifs at hy with hexc
  · obtain ⟨-, rfl⟩ := goOn_setCall hy hk ((released_calls ..).trans hu)
    have hnote : ∀ x : Timeline, x.note c (.over (.failed exc)) = { x with noted := none } := by
      intro x
      cases c <;> exact if_pos hc
    rw [hnote]
    exact h.closed hk hc hu hconnect (htask hexc)
  · obtain ⟨hescapes, -⟩ := goOn_setCall hy hk hu
    push Not at hexc
    simp [escapes, hc, hexc] at hescapes

theorem connectFailed_tried (s : Session) (now : ℚ) (exc : AwaitExc) (timedOut : Bool) :
    s.connectFailed (some now) exc timedOut = ({ s with lastConnect := some now }, .noClient) ∨
      ∃ e, s.connectFailed (some now) exc timedOut = (s, .failed e) := by
  simp only [Session.connectFailed]
  split_ifs
  · exact Or.inl rfl
  · exact Or.inr ⟨_, rfl⟩
  · exact Or.inl rfl
  · exact Or.inr ⟨_, rfl⟩

theorem Consistent.callStep {r : Reply} {atOnce : Bool} (h : Consistent x)
    (hstep : CallStep pipelined x.session k atOnce r t) (hy : x.goOn t (some k) = some y) :
    Consistent y := by
  cases hstep with
  | @enter now hk =>
    have hnone := h.trying _ (List.mem_of_getElem? hk) rfl
    have hconnect : x.session.connect (some now) = .connect (some now) .connecting false := by
      simp [Session.connect, hasRunningTask, task, hnone]
    rw [hconnect] at hy
    obtain ⟨-, rfl⟩ := goOn_setCall hy hk rfl
    exact h.tries hk rfl rfl x.session.conn
  | @handshake tried m m' before after r conn hk hm _ _ =>
    obtain ⟨now, rfl⟩ := h.isTrying_of_connect hk
    obtain ⟨-, rfl⟩ := goOn_setCall hy hk rfl
    exact h.tries hk rfl rfl conn
  | @connected tried m p before r conn hk hm =>
    obtain ⟨now, rfl⟩ := h.isTrying_of_connect hk
    have hnone := h.trying _ (List.mem_of_getElem? hk) rfl
    have heq : ({ x.session with conn } : Session).connected (some now) p =
        (({ x.session with conn } : Session).createDispatcher, .client) :=
      Prod.ext (if_pos hnone) rfl
    rw [heq] at hy
    obtain ⟨-, rfl⟩ := goOn_setCall hy hk rfl
    exact h.tried (u := ({ x.session with conn } : Session).createDispatcher) hk rfl rfl rfl rfl rfl
      rfl rfl rfl rfl h.failed (fun _ => rfl)
  | @connectFailed tried m exc before after r conn hk hm =>
    obtain ⟨now, rfl⟩ := h.isTrying_of_connect hk
    have hnone := h.trying _ (List.mem_of_getElem? hk) rfl
    rcases connectFailed_tried { x.session with conn } now exc after with heq | ⟨e, heq⟩
    · rw [heq] at hy
      obtain ⟨-, rfl⟩ := goOn_setCall hy hk rfl
      exact h.tried (u := { x.session with conn, lastConnect := some now }) hk rfl rfl rfl rfl rfl rfl
        rfl rfl rfl rfl (fun hs => absurd hnone hs)
    · rw [heq] at hy
      obtain ⟨-, rfl⟩ := goOn_setCall hy hk rfl
      exact h.tried (u := { x.session with conn }) hk rfl rfl rfl rfl rfl rfl rfl rfl rfl h.failed
        (fun hs => absurd hnone hs)
  | @cancelled closer d hk hd hp =>
    obtain rfl := h.closer_eq_idle hk (Or.inl ⟨d, rfl⟩)
    obtain ⟨-, rfl⟩ := goOn_setCall hy hk (released_calls ..)
    exact h.closed hk rfl rfl rfl rfl
  | @disconnect closer d p hk hd hp =>
    obtain rfl := h.closer_eq_idle hk (Or.inl ⟨d, rfl⟩)
    obtain ⟨-, rfl⟩ := goOn_setCall hy hk rfl
    exact h.closes hk rfl rfl rfl rfl rfl (fun _ => rfl) (fun hs => absurd rfl hs)
  | @interrupted call closer closedFirst hk hcall =>
    have hidle : idleClosing call = true := by
      obtain rfl := h.closer_eq_idle hk (hcall.imp_right Or.inl)
      rcases hcall with ⟨d, rfl⟩ | rfl <;> rfl
    obtain rfl := h.closer_eq_idle hk (hcall.imp_right Or.inl)
    exact h.closeFailed hk hidle rfl rfl (by simp) hy
  | noPipe hk hp =>
    obtain rfl := h.closer_eq_idle hk (Or.inr (Or.inl rfl))
    exact h.closeFailed hk rfl rfl rfl (by simp) hy
  | @closePipe closer p r hk hp =>
    obtain rfl := h.closer_eq_idle hk (Or.inr (Or.inl rfl))
    obtain ⟨-, rfl⟩ := goOn_setCall hy hk rfl
    have hnone := h.past _ (List.mem_of_getElem? hk) rfl
    exact h.closes hk rfl rfl rfl rfl rfl (fun _ => hnone) id
  | @closed closer p hk =>
    obtain rfl := h.closer_eq_idle hk (Or.inr (Or.inr ⟨p, rfl⟩))
    obtain ⟨-, rfl⟩ := goOn_setCall hy hk (released_calls ..)
    exact h.closed hk rfl rfl rfl (h.past _ (List.mem_of_getElem? hk) rfl)
  | @closeFailed closer p exc closedFirst hk =>
    obtain rfl := h.closer_eq_idle hk (Or.inr (Or.inr ⟨p, rfl⟩))
    have hnone := h.past _ (List.mem_of_getElem? hk) rfl
    exact h.closeFailed (u := { x.session with conn := x.session.conn.closeIf closedFirst p }) hk rfl
      rfl rfl (fun _ => hnone) hy

theorem Consistent.start (h : Consistent x) (hover : x.session.calls.all isOver = true)
    {u : Session} (hu : u.calls = x.session.calls)
    (hcall : isOver c' = false → isTrying c' = true ∨ idleClosing c' = true)
    (hclosed : u.isClosed = true → idleClosing c' = true)
    (htry : isTrying c' = true → u.dispatcherTask = none) (hpast : pastCancel c' = false)
    (hconnect : u.lastConnect = x.session.lastConnect)
    (hun : u.dispatcherTask = none → u.lastSend = x.noted)
    (hcon : u.dispatcherTask ≠ none → ∃ c, x.connectedAt = some c ∧ c ≤ x.clock ∧
      (x.noted = none → ∀ q ∈ x.queuedAt, q ≤ c) ∧
      (u.lastSend = x.noted ∨ x.noted = none ∧ ∃ b, u.lastSend = some b ∧
        (x.failure = some b ∨ x.failure = none ∧ c ≤ b))) :
    Consistent { x with session := u.start c' } := by
  have hmem : ∀ d ∈ (u.start c').calls, isOver d = true ∨ d = c' := by
    intro d hd
    rw [Session.start, hu] at hd
    rcases List.mem_append.mp hd with hd | hd
    · exact Or.inl (isOver_of_all hover d hd)
    · exact Or.inr (List.mem_singleton.mp hd)
  have hin : c' ∈ (u.start c').calls := List.mem_append_right _ (List.mem_singleton_self _)
  have hidx : ∀ {i : ℕ} {d : ClientCall}, (u.start c').calls[i]? = some d → isOver d = false →
      i = x.session.calls.length := by
    intro i d hd hd'
    rw [Session.start, hu] at hd
    rcases lt_trichotomy i x.session.calls.length with hlt | rfl | hgt
    · rw [List.getElem?_append_left hlt] at hd
      cases hd'.symm.trans (isOver_of_all hover d (List.mem_of_getElem? hd))
    · rfl
    · have := (List.getElem?_eq_some_iff.mp hd).1
      simp at this
      omega
  have hactive : ∀ {d : ClientCall}, d ∈ (u.start c').calls → isOver d = false → d = c' := by
    intro d hd hd'
    rcases hmem d hd with hd'' | rfl
    · cases hd''.symm.trans hd'
    · rfl
  constructor
  · intro i j d d' hd hd' hdo hdo'
    rw [hidx hd hdo, hidx hd' hdo']
  · intro d hd hdo
    obtain rfl := hactive hd hdo
    exact hcall hdo
  · intro hn
    exact ⟨c', hin, hclosed hn⟩
  · intro d hd hdt
    obtain rfl := hactive hd (isOver_of_isTrying hdt)
    exact htry hdt
  · intro d hd hdp
    obtain rfl := hactive hd (isOver_of_idleClosing (idleClosing_of_pastCancel hdp))
    cases hpast.symm.trans hdp
  · exact hconnect.trans h.failed
  · exact h.noted
  · exact h.queued
  · intro hn _
    exact hun hn
  · exact hcon

theorem Consistent.isClosed_eq_false (h : Consistent x)
    (hover : x.session.calls.all isOver = true) : x.session.isClosed = false := by
  by_contra hclosed
  rw [Bool.not_eq_false] at hclosed
  obtain ⟨c, hc, hidle⟩ := h.isClosed hclosed
  cases (idleClosing_of_isOver (isOver_of_all hover c hc)).symm.trans hidle

theorem Consistent.lastSend (h : Consistent x) (hover : x.session.calls.all isOver = true)
    (hn : x.session.dispatcherTask = none) : x.session.lastSend = x.noted :=
  h.unconnected hn fun c hc => idleClosing_of_isOver (isOver_of_all hover c hc)

theorem lastActive_eq (h : Consistent x) :
    x.session.lastActive x.clock = x.session.lastSend.getD (x.failure.getD x.clock) := by
  rw [lastActive, h.failed, failure]

theorem Consistent.noteActive (h : Consistent x) (hsome : x.session.dispatcherTask ≠ none) :
    ∃ c, x.connectedAt = some c ∧ c ≤ x.clock ∧ (x.noted = none → ∀ q ∈ x.queuedAt, q ≤ c) ∧
      (some (x.session.lastActive x.clock) = x.noted ∨ x.noted = none ∧
        ∃ b, some (x.session.lastActive x.clock) = some b ∧
          (x.failure = some b ∨ x.failure = none ∧ c ≤ b)) := by
  obtain ⟨c, hc, hle, hq, hsend⟩ := h.connected hsome
  refine ⟨c, hc, hle, hq, ?_⟩
  rw [lastActive_eq h]
  rcases hsend with hsend | ⟨hn, b, hsend, hb⟩
  · rw [hsend]
    cases hnoted : x.noted with
    | some q => exact Or.inl rfl
    | none =>
      refine Or.inr ⟨rfl, _, rfl, ?_⟩
      cases hfail : x.failure with
      | some b => exact Or.inl rfl
      | none => exact Or.inr ⟨rfl, hle⟩
  · rw [hsend]
    exact Or.inr ⟨hn, b, rfl, hb⟩

theorem Consistent.all_isOver (h : Consistent x) (hidle : x.session.calls.any idleClosing = false)
    (hsome : x.session.dispatcherTask ≠ none) : x.session.calls.all isOver = true := by
  rw [List.all_eq_true]
  intro c hc
  by_contra hover
  rw [Bool.not_eq_true] at hover
  rcases h.calls c hc hover with htry | hclosing
  · exact hsome (h.trying c hc htry)
  · exact absurd hclosing (List.any_eq_false.mp hidle c hc)

theorem Consistent.idlePass (h : Consistent x) (hidle : x.session.calls.any idleClosing = false) :
    Consistent { x with session := x.session.idleClose x.clock } := by
  rw [idleClose]
  split_ifs with htask hactive
  · exact h
  · obtain ⟨h₁, h₂, h₃, h₄, h₅, h₆, h₇, h₈, -, -⟩ := id h
    exact ⟨h₁, h₂, h₃, h₄, h₅, h₆, h₇, h₈, fun hn => absurd hn htask, fun hs => h.noteActive hs⟩
  · have hover := h.all_isOver hidle htask
    rw [Session.close, if_neg (by simp [h.isClosed_eq_false hover])]
    apply h.start hover
    · exact cancelTask_calls _
    · exact fun _ => Or.inr rfl
    · exact fun _ => rfl
    · intro hn
      cases hn
    · rfl
    · exact cancelTask_lastConnect _
    · intro hn
      rw [cancelTask_dispatcherTask] at hn
      exact absurd hn htask
    · intro _
      rw [cancelTask_lastSend]
      exact h.noteActive htask

theorem Consistent.startOver (h : Consistent x) (r : CallResult) :
    Consistent { x with session := x.session.start (.over r) } := by
  have hmem : ∀ d ∈ (x.session.start (.over r)).calls, isOver d = false → d ∈ x.session.calls := by
    intro d hd hover
    rcases List.mem_append.mp hd with hd | hd
    · exact hd
    · cases List.mem_singleton.mp hd
      cases hover
  have hidx : ∀ {i : ℕ} {d : ClientCall}, (x.session.start (.over r)).calls[i]? = some d →
      isOver d = false → x.session.calls[i]? = some d := by
    intro i d hd hover
    rw [Session.start, List.getElem?_append] at hd
    split_ifs at hd
    · exact hd
    · cases List.mem_singleton.mp (List.mem_of_getElem? hd)
      cases hover
  have hold : ∀ c ∈ x.session.calls, c ∈ (x.session.start (.over r)).calls :=
    fun c hc => List.mem_append_left _ hc
  obtain ⟨h₁, h₂, h₃, h₄, h₅, h₆, h₇, h₈, h₉, h₁₀⟩ := h
  refine ⟨?_, ?_, ?_, ?_, ?_, h₆, h₇, h₈, ?_, h₁₀⟩
  · intro i j c c' hc hc' hco hco'
    exact h₁ i j c c' (hidx hc hco) (hidx hc' hco') hco hco'
  · exact fun c hc hco => h₂ c (hmem c hc hco) hco
  · intro hclosed
    obtain ⟨c, hc, hidle⟩ := h₃ hclosed
    exact ⟨c, hold c hc, hidle⟩
  · exact fun c hc htry => h₄ c (hmem c hc (isOver_of_isTrying htry)) htry
  · intro c hc hpast
    exact h₅ c (hmem c hc (isOver_of_idleClosing (idleClosing_of_pastCancel hpast))) hpast
  · exact fun hnone hidle => h₉ hnone fun c hc => hidle c (hold c hc)

theorem Consistent.tryClient (h : Consistent x)
    (hbegin : x.session.dispatcherTask ≠ none ∨ x.session.calls.all isOver = true) :
    Consistent { x with session := x.session.start (x.session.tryClient x.clock) } := by
  by_cases htask : x.session.dispatcherTask ≠ none
  · rw [Session.tryClient, if_pos htask]
    exact h.startOver .client
  have hover := hbegin.resolve_left htask
  have hcall : ∀ {c'}, x.session.tryClient x.clock = c' →
      isOver c' = true ∨ isTrying c' = true ∧ x.session.dispatcherTask = none := by
    rintro c' rfl
    rw [Session.tryClient, if_neg htask]
    split_ifs
    · exact Or.inl rfl
    · exact Or.inr ⟨rfl, not_not.mp htask⟩
  apply h.start hover rfl
  · intro hn
    rcases hcall rfl with hover | ⟨htry, -⟩
    · cases hover.symm.trans hn
    · exact Or.inl htry
  · intro hclosed
    cases hclosed.symm.trans (h.isClosed_eq_false hover)
  · intro htry
    rcases hcall rfl with hover | ⟨-, hnone⟩
    · cases hover.symm.trans (isOver_of_isTrying htry)
    · exact hnone
  · rcases hcall rfl with hover | ⟨htry, -⟩
    · by_contra hpast
      rw [Bool.not_eq_false] at hpast
      cases hover.symm.trans (isOver_of_idleClosing (idleClosing_of_pastCancel hpast))
    · by_contra hpast
      rw [Bool.not_eq_false] at hpast
      cases (idleClosing_of_pastCancel hpast).symm.trans (not_idleClosing_of_isTrying htry)
  · rfl
  · exact h.lastSend hover
  · exact h.connected

theorem Consistent.queueMsg (h : Consistent x) :
    Consistent { x with
      session := { x.session with lastSend := some x.clock }
      queuedAt := some x.clock
      noted := some x.clock } := by
  obtain ⟨h₁, h₂, h₃, h₄, h₅, h₆, -, -, -, h₁₀⟩ := h
  refine ⟨h₁, h₂, h₃, h₄, h₅, h₆, Or.inr rfl, ?_, fun _ _ => rfl, ?_⟩
  · intro q hq
    exact (Option.some.inj hq).ge
  · intro hsome
    obtain ⟨c, hc, hle, -, -⟩ := h₁₀ hsome
    exact ⟨c, hc, hle, by simp, Or.inl rfl⟩

theorem Consistent.tick (h : Consistent x) {clock : ℚ} (hle : x.clock ≤ clock) :
    Consistent { x with clock } := by
  obtain ⟨h₁, h₂, h₃, h₄, h₅, h₆, h₇, h₈, h₉, h₁₀⟩ := h
  refine ⟨h₁, h₂, h₃, h₄, h₅, h₆, h₇, fun q hq => (h₈ q hq).trans hle, h₉, ?_⟩
  intro hsome
  obtain ⟨c, hc, hcle, hrest⟩ := h₁₀ hsome
  exact ⟨c, hc, hcle.trans hle, hrest⟩

theorem Consistent.goesOn (h : Consistent x) {a : Act} (ha : isAwait a = true)
    (hs : x.session.step pipelined a = some t) (hy : x.goOn t (resumed a) = some y) :
    Consistent y := by
  cases a with
  | reply k r atOnce => exact h.callStep (resumeCall_callStep hs) hy
  | timeout k closedFirst atOnce => exact h.callStep (timeout_callStep hs) hy
  | dispatch d r atOnce =>
    obtain ⟨z, conn, w, -, rfl, -⟩ := dispatch_eq_some hs
    cases hy
    exact h.frame rfl rfl rfl rfl rfl
  | lost p =>
    cases hs
    cases hy
    exact h.frame rfl rfl rfl rfl rfl
  | chunk p bytes =>
    obtain ⟨-, rfl⟩ := Session.step_chunk hs
    cases hy
    exact h.frame rfl rfl rfl rfl rfl
  | resume =>
    obtain rfl := Session.step_resume hs
    cases hy
    exact h.frame rfl rfl rfl rfl rfl
  | connect | tryClient | close | routerClose | idleClose | queueMsg => cases ha

theorem Consistent.step (h : Consistent x) (hs : x.step pipelined e = some y) : Consistent y := by
  cases e with
  | tick clock =>
    simp only [Timeline.step] at hs
    split_ifs at hs with hle
    cases hs
    exact h.tick hle
  | tryClient =>
    simp only [Timeline.step] at hs
    split_ifs at hs with hbegin
    cases hs
    exact h.tryClient hbegin
  | queueMsg =>
    cases hs
    exact h.queueMsg
  | idlePass =>
    simp only [Timeline.step] at hs
    split_ifs at hs with hidle
    cases hs
    exact h.idlePass (Bool.eq_false_of_not_eq_true hidle)
  | goesOn a =>
    simp only [Timeline.step] at hs
    split_ifs at hs with ha
    obtain ⟨t, ht, hy⟩ := Option.bind_eq_some_iff.mp hs
    exact h.goesOn ha ht hy

theorem Consistent.lastActive_cases (h : Consistent x) (hsome : x.session.dispatcherTask ≠ none) :
    (∃ b ∈ x.noted.or x.failure, x.session.lastActive x.clock = b) ∨
      x.noted.or x.failure = none ∧ ∀ c ∈ x.connectedAt, c ≤ x.session.lastActive x.clock := by
  obtain ⟨c, hc, -, -, hactive | ⟨hn, b, hactive, hb⟩⟩ := h.noteActive hsome
  · rw [← hactive]
    exact Or.inl ⟨_, rfl, rfl⟩
  · rw [hn, Option.none_or]
    obtain rfl := Option.some.inj hactive
    rcases hb with hb | ⟨hb, hle⟩
    · exact Or.inl ⟨_, hb, rfl⟩
    · refine Or.inr ⟨hb, ?_⟩
      intro c' hc'
      cases hc.symm.trans hc'
      exact hle

theorem Consistent.queued_cases (h : Consistent x) (hsome : x.session.dispatcherTask ≠ none) {q : ℚ}
    (hq : q ∈ x.queuedAt) : x.noted = some q ∨ ∃ c ∈ x.connectedAt, q ≤ c := by
  rcases h.noted with hn | hn
  · obtain ⟨c, hc, -, hqueued, -⟩ := h.connected hsome
    exact Or.inr ⟨c, hc, hqueued hn q hq⟩
  · exact Or.inl (hn.trans hq)

/-- In every history, at every pass: the pass closes the client only when its connection and the
last message queued on it are as old as the timeout, if and only if no time that was on record
before the connection was made is that old while the connection is not. -/
theorem idle_window_iff (pipelined : Bool) (clock : ℚ) (es : List Event) (x : Timeline)
    (hx : Machine.run (step pipelined) { clock } es = some x) :
    (x.session.IsIdle x.clock → (∀ c ∈ x.connectedAt, idleClientTimeout ≤ x.clock - c) ∧
        ∀ q ∈ x.queuedAt, idleClientTimeout ≤ x.clock - q) ↔
      (x.session.dispatcherTask ≠ none → ∀ c ∈ x.connectedAt, ∀ b ∈ x.noted.or x.failure,
        b < c → idleClientTimeout ≤ x.clock - b → idleClientTimeout ≤ x.clock - c) := by
  have h : Consistent x :=
    Machine.run_preserves (fun _ _ _ h hs => h.step hs) (consistent_init clock) hx
  constructor
  · intro hidle hsome c hc b hb hbc hold
    have hactive : x.session.lastActive x.clock = b := by
      rcases h.lastActive_cases hsome with ⟨b', hb', hactive⟩ | ⟨hn, -⟩
      · exact hactive.trans (Option.some.inj (hb'.symm.trans hb))
      · cases hn.symm.trans hb
    exact (hidle ⟨hsome, by rw [hactive]; exact hold⟩).1 c hc
  · rintro hold ⟨hsome, hidle⟩
    have hconnected : ∀ c ∈ x.connectedAt, idleClientTimeout ≤ x.clock - c := by
      intro c hc
      rcases h.lastActive_cases hsome with ⟨b, hb, hactive⟩ | ⟨-, hle⟩
      · rw [hactive] at hidle
        rcases lt_or_ge b c with hlt | hge
        · exact hold hsome c hc b hb hlt hidle
        · linarith
      · have := hle c hc
        linarith
    refine ⟨hconnected, ?_⟩
    intro q hq
    rcases h.queued_cases hsome hq with hn | ⟨c, hc, hle⟩
    · rcases h.lastActive_cases hsome with ⟨b, hb, hactive⟩ | ⟨hnone, -⟩
      · rw [hn] at hb
        cases hb
        rw [← hactive]
        exact hidle
      · simp [hn] at hnone
    · have := hconnected c hc
      linarith

def connects (k : ℕ) : List Event :=
  [.tryClient, .goesOn (.reply k .done false), .goesOn (.reply k (.pipe true) false),
    .goesOn (.reply k .sent false), .goesOn (.reply k (.data MqttConnect.connack) false),
    .goesOn (.reply k .sent false), .goesOn (.reply k (.codes [1]) false)]

def usual : List Event := connects 0 ++ [.tick 110, .queueMsg, .tick 710]

theorem idle_window_iff_usual : ∃ x, Machine.run (step false) { clock := 100 } usual = some x ∧
    x.session.IsIdle x.clock ∧ (∀ c ∈ x.connectedAt, idleClientTimeout ≤ x.clock - c) ∧
      ∀ q ∈ x.queuedAt, idleClientTimeout ≤ x.clock - q := by
  obtain ⟨x, hx, hp⟩ := Machine.exists_run_of_any (step false) { clock := 100 } usual
    (fun x => decide (x.session.IsIdle x.clock ∧
      ∀ c ∈ x.connectedAt, ∀ b ∈ x.noted.or x.failure, ¬ b < c)) (by decide +kernel)
  obtain ⟨hidle, hrecord⟩ := of_decide_eq_true hp
  refine ⟨x, hx, hidle, ?_⟩
  exact (idle_window_iff false 100 usual x hx).mpr
    (fun _ c hc b hb hlt => absurd hlt (hrecord c hc b hb)) hidle

def afterFailure : List Event :=
  [.tryClient, .goesOn (.reply 0 .done false), .goesOn (.reply 0 (.pipe false) false),
    .tick 1300] ++ connects 1 ++ [.tick 1310]

theorem not_idle_window : ∃ x, Machine.run (step false) { clock := 100 } afterFailure = some x ∧
    x.clock = 1310 ∧ x.connectedAt = some 1300 ∧
      (x.session.idleClose x.clock).calls.any idleClosing = true := by
  obtain ⟨x, hx, hp⟩ := Machine.exists_run_of_any (step false) { clock := 100 } afterFailure
    (fun x => decide (x.clock = 1310 ∧ x.connectedAt = some 1300 ∧
      (x.session.idleClose x.clock).calls.any idleClosing = true)) (by decide +kernel)
  exact ⟨x, hx, of_decide_eq_true hp⟩

end Timeline

end Sidewire
