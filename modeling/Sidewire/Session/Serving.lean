import Sidewire.Session.Closing
import Sidewire.Session.Running

/-! # Clients that go on to send

A client serves while it is open and has a dispatcher task. If only the idle
closer closes it and no dispatcher ends of itself, it stops to serve only when
the idle closer begins to close it.
-/

namespace Sidewire

namespace Session

variable {pipelined atOnce : Bool} {s t u : Session} {k : ℕ} {r : Reply} {call c : ClientCall}
  {b : Act}

/-- Every `close` under way is one of the idle closer. -/
def OnlyIdle (s : Session) : Prop :=
  ∀ call ∈ s.calls, isClosing call = true → idleClosing call = true

structure Kept (s : Session) : Prop where
  guarded : Guarded s
  ended : ¬ s.EndedItself
  onlyIdle : OnlyIdle s

structure Serving (s : Session) : Prop where
  isOpen : s.isClosed = false
  task : s.dispatcherTask ≠ none

theorem Serving.running (h : Serving s) (hs : Kept s) : s.Running :=
  hs.guarded.running h.isOpen h.task hs.ended

theorem Kept.not_closing (h : Kept s) (hopen : s.isClosed = false) (hk : s.calls[k]? = some c) :
    isClosing c = false := by
  by_contra hclosing
  have hmem := List.mem_of_getElem? hk
  have hidle := h.onlyIdle c hmem (by simpa using hclosing)
  cases hopen.symm.trans (h.guarded.idle c hmem hidle)

theorem OnlyIdle.start (h : OnlyIdle s) (hu : u.calls = s.calls)
    (hcall : isClosing call = true → idleClosing call = true) : OnlyIdle (u.start call) := by
  intro c hc
  rcases List.mem_append.mp hc with hc | hc
  · exact h c (hu ▸ hc)
  · obtain rfl := List.mem_singleton.mp hc
    exact hcall

theorem OnlyIdle.setCall (h : OnlyIdle s) (hu : u.calls = s.calls)
    (hcall : isClosing call = true → idleClosing call = true) : OnlyIdle (u.setCall k call) := by
  intro c hc
  rcases List.mem_or_eq_of_mem_set hc with hc | rfl
  · exact h c (hu ▸ hc)
  · exact hcall

theorem OnlyIdle.closeFailed {closer : Closer} {exc : AwaitExc} (h : OnlyIdle s)
    (hu : u.calls = s.calls) : OnlyIdle (u.closeFailed k closer exc) := by
  unfold Session.closeFailed
  split_ifs
  · exact h.setCall ((released_calls _ _).trans hu) (by simp [isClosing])
  · exact h.setCall hu (by simp [isClosing])

theorem OnlyIdle.callStep (h : OnlyIdle s) (hstep : CallStep pipelined s k atOnce r t) :
    OnlyIdle t := by
  cases hstep with
  | enter hk =>
    apply h.setCall rfl
    unfold Session.connect
    split_ifs <;> simp [isClosing]
  | handshake hk => exact h.setCall rfl (by simp [isClosing])
  | connected hk => exact h.setCall (by simp) (by simp [isClosing])
  | @connectFailed tried _ exc _ after _ conn hk =>
    obtain ⟨lastConnect, hs⟩ := connectFailed_fst { s with conn } tried exc after
    exact h.setCall (by rw [hs]) (by simp [isClosing])
  | cancelled hk => exact h.setCall (by simp) (by simp [isClosing])
  | @disconnect closer d p hk =>
    apply h.setCall rfl
    have hidle := h _ (List.mem_of_getElem? hk)
    cases closer
    · cases hidle rfl
    · exact id
  | interrupted hk => exact h.closeFailed rfl
  | noPipe hk => exact h.closeFailed rfl
  | @closePipe closer p _ hk =>
    apply h.setCall rfl
    have hidle := h _ (List.mem_of_getElem? hk)
    cases closer
    · cases hidle rfl
    · exact id
  | closed hk => exact h.setCall (by simp) (by simp [isClosing])
  | closeFailed hk => exact h.closeFailed rfl

theorem OnlyIdle.close (h : OnlyIdle s) (hu : u.calls = s.calls) : OnlyIdle (u.close .idle) := by
  unfold Session.close
  split
  · exact h.start ((released_calls _ _).trans hu) (by simp [isClosing])
  · exact h.start ((cancelTask_calls _).trans hu) (fun _ => rfl)

theorem OnlyIdle.step (h : OnlyIdle s) (hstep : s.step pipelined b = some t) (hclose : b ≠ .close)
    (hrouter : b ≠ .routerClose) : OnlyIdle t := by
  cases b with
  | close => exact absurd rfl hclose
  | routerClose => exact absurd rfl hrouter
  | connect =>
    cases hstep
    apply h.start rfl
    unfold Session.connect
    split_ifs <;> simp_all [isClosing]
  | tryClient now =>
    cases hstep
    apply h.start rfl
    unfold Session.tryClient
    split_ifs <;> simp [isClosing]
  | idleClose now =>
    cases hstep
    unfold Session.idleClose
    split_ifs
    · exact h
    · exact h
    · exact OnlyIdle.close (s := s) h rfl
  | reply k r atOnce => exact h.callStep (resumeCall_callStep hstep)
  | timeout k closedFirst atOnce => exact h.callStep (timeout_callStep hstep)
  | dispatch d r atOnce =>
    obtain ⟨_, _, _, -, -, rfl⟩ := dispatch_unfinished hstep
    exact h
  | lost p =>
    cases hstep
    exact h
  | chunk p bytes =>
    obtain ⟨-, rfl⟩ := Session.step_chunk hstep
    exact h
  | resume =>
    obtain rfl := Session.step_resume hstep
    exact h
  | queueMsg now =>
    cases hstep
    exact h

theorem Kept.step (h : Kept s) (hstep : s.step pipelined b = some t) (hclose : b ≠ .close)
    (hrouter : b ≠ .routerClose)
    (hidle : ∀ now, b = .idleClose now → s.isClosed = true → ¬ s.IsIdle now)
    (hended : ¬ t.EndedItself) : Kept t := by
  refine ⟨h.guarded.step ?_ hstep, hended, h.onlyIdle.step hstep hclose hrouter⟩
  cases b with
  | tryClient now => exact fun _ => h.ended
  | reply k r atOnce => exact fun _ _ _ => h.ended
  | idleClose now => exact hidle now rfl
  | routerClose => exact absurd rfl hrouter
  | _ => trivial

theorem Serving.congr (h : Serving s) (hopen : t.isClosed = s.isClosed)
    (htask : t.dispatcherTask = s.dispatcherTask) : Serving t :=
  ⟨hopen.trans h.isOpen, fun hnone => h.task (htask.symm.trans hnone)⟩

theorem Serving.callStep (h : Serving s) (hs : Kept s)
    (hstep : CallStep pipelined s k atOnce r t) : Serving t := by
  have hnot : ∀ {c : ClientCall}, s.calls[k]? = some c → isClosing c = true → Serving t := by
    intro c hk hclosing
    cases (hs.not_closing h.isOpen hk).symm.trans hclosing
  cases hstep with
  | enter hk => exact h.congr rfl rfl
  | handshake hk => exact h.congr rfl rfl
  | @connected tried m p before _ conn hk =>
    simp only [Session.connected]
    split
    · exact ⟨h.isOpen, by simp [Session.setCall, createDispatcher]⟩
    · exact h.congr rfl rfl
  | @connectFailed tried _ exc _ after _ conn hk =>
    obtain ⟨lastConnect, heq⟩ := connectFailed_fst { s with conn } tried exc after
    rw [heq]
    exact h.congr rfl rfl
  | cancelled hk | disconnect hk | noPipe hk | closePipe hk | closed hk | closeFailed hk =>
    exact hnot hk rfl
  | interrupted hk hcall =>
    rcases hcall with ⟨d, rfl⟩ | rfl
    · exact hnot hk rfl
    · exact hnot hk rfl

theorem Serving.step (h : Serving s) (hs : Kept s) (hstep : s.step pipelined b = some t)
    (hclose : b ≠ .close) (hrouter : b ≠ .routerClose)
    (hidle : ∀ now, b = .idleClose now → ¬ s.IsIdle now) : Serving t := by
  cases b with
  | close => exact absurd rfl hclose
  | routerClose => exact absurd rfl hrouter
  | connect =>
    cases hstep
    exact h.congr rfl rfl
  | tryClient now =>
    cases hstep
    exact h.congr rfl rfl
  | idleClose now =>
    cases hstep
    unfold Session.idleClose
    split_ifs with htask hactive
    · exact h
    · exact h.congr rfl rfl
    · exact absurd ⟨htask, not_lt.mp hactive⟩ (hidle now rfl)
  | reply k r atOnce => exact h.callStep hs (resumeCall_callStep hstep)
  | timeout k closedFirst atOnce => exact h.callStep hs (timeout_callStep hstep)
  | dispatch d r atOnce =>
    obtain ⟨_, _, _, -, -, rfl⟩ := dispatch_unfinished hstep
    exact h.congr rfl rfl
  | lost p =>
    cases hstep
    exact h.congr rfl rfl
  | chunk p bytes =>
    obtain ⟨-, rfl⟩ := Session.step_chunk hstep
    exact h.congr rfl rfl
  | resume =>
    obtain rfl := Session.step_resume hstep
    exact h.congr rfl rfl
  | queueMsg now =>
    cases hstep
    exact h.congr rfl rfl

theorem CallStep.calls_ne (hstep : CallStep pipelined s k atOnce r t) {i : ℕ} (hi : i ≠ k) :
    t.calls[i]? = s.calls[i]? := by
  have hset : ∀ call : ClientCall, (s.calls.set k call)[i]? = s.calls[i]? :=
    fun call => List.getElem?_set_ne (Ne.symm hi)
  cases hstep with
  | @connectFailed tried _ exc _ after _ conn =>
    obtain ⟨lastConnect, heq⟩ := connectFailed_fst { s with conn } tried exc after
    simp only [Session.setCall, heq]
    exact hset _
  | interrupted | noPipe | closeFailed =>
    rw [closeFailed_calls rfl]
    exact hset _
  | connected =>
    simp only [Session.setCall, connected_calls]
    exact hset _
  | cancelled | closed =>
    simp only [Session.setCall, released_calls]
    exact hset _
  | _ => exact hset _

theorem CallStep.returned (hstep : CallStep pipelined s k atOnce r t)
    (hr : Returns s t .client) : t.dispatcherTask ≠ none := by
  cases hstep with
  | enter hk => exact (connect_eq_over (over_of_setCall rfl hr)).1
  | handshake => cases over_of_setCall rfl hr
  | connected =>
    simp only [Session.connected]
    split
    · simp [Session.setCall, createDispatcher]
    next hsome => exact hsome
  | @connectFailed tried m exc before after reply conn hk hm =>
    obtain ⟨_, hs⟩ := connectFailed_fst { s with conn } tried exc after
    have hcall := ClientCall.over.inj (over_of_setCall (by rw [hs]) hr)
    have hnot := not_succeeds_connectFailed { s with conn } tried exc after
    rw [hcall] at hnot
    exact absurd trivial hnot
  | cancelled => cases over_of_setCall (released_calls ..) hr
  | disconnect => cases over_of_setCall rfl hr
  | closePipe => cases over_of_setCall rfl hr
  | closed => cases over_of_setCall (released_calls ..) hr
  | interrupted | noPipe | closeFailed => cases over_of_setCall (by split_ifs <;> simp) hr

theorem closeFailed_dispatchers (closer : Closer) (exc : AwaitExc) :
    (u.closeFailed k closer exc).dispatchers = u.dispatchers := by
  unfold Session.closeFailed
  split_ifs
  · cases closer <;> rfl
  · rfl

theorem closeFailed_isClosed (closer : Closer) (exc : AwaitExc) :
    (u.closeFailed k closer exc).isClosed = u.isClosed ∨ exc = .osError ∨
      exc = .connectionError := by
  unfold Session.closeFailed
  split_ifs with hcaught
  · exact Or.inr hcaught
  · exact Or.inl rfl

theorem CallStep.reopens (hstep : CallStep pipelined s k atOnce r t) :
    t.isClosed = s.isClosed ∨ (s.calls[k]?).any isClosing = true ∧
      ∃ res, t.calls[k]? = some (.over res) ∧
        ∀ exc, res = .failed exc → exc = .osError ∨ exc = .connectionError := by
  have hset : ∀ {c call : ClientCall}, s.calls[k]? = some c →
      (s.calls.set k call)[k]? = some call := by
    intro c call hk
    exact List.getElem?_set_self (List.getElem?_eq_some_iff.mp hk).1
  cases hstep with
  | enter hk => exact Or.inl rfl
  | handshake hk => exact Or.inl rfl
  | connected hk =>
    left
    simp only [Session.connected]
    split <;> rfl
  | @connectFailed tried _ exc _ after _ conn hk =>
    obtain ⟨lastConnect, heq⟩ := connectFailed_fst { s with conn } tried exc after
    rw [heq]
    exact Or.inl rfl
  | cancelled hk =>
    refine Or.inr ⟨by rw [hk]; rfl, .closed, ?_, by simp⟩
    simp only [Session.setCall, released_calls]
    exact hset hk
  | disconnect hk => exact Or.inl rfl
  | @interrupted _ closer =>
    rcases closeFailed_isClosed closer .cancelledError with heq | h | h
    · exact Or.inl heq
    · cases h
    · cases h
  | @noPipe closer exc =>
    rcases closeFailed_isClosed closer (.other exc) with heq | h | h
    · exact Or.inl heq
    · cases h
    · cases h
  | closePipe hk => exact Or.inl rfl
  | closed hk =>
    refine Or.inr ⟨by rw [hk]; rfl, .closed, ?_, by simp⟩
    simp only [Session.setCall, released_calls]
    exact hset hk
  | @closeFailed closer p exc closedFirst hk =>
    rcases closeFailed_isClosed closer exc with heq | hcaught
    · exact Or.inl heq
    · refine Or.inr ⟨by rw [hk]; rfl, .failed exc, ?_, ?_⟩
      · rw [closeFailed_calls rfl]
        exact hset hk
      · rintro _ ⟨⟩
        exact hcaught

theorem not_endedItself (h : ¬ s.EndedItself) (hd : t.dispatchers = s.dispatchers)
    (htask : t.dispatcherTask = s.dispatcherTask ∨ t.dispatcherTask = none) : ¬ t.EndedItself := by
  rintro ⟨x, hx, hended⟩
  apply h
  refine ⟨x, ?_, hended⟩
  rcases htask with htask | htask
  · rw [Session.task, hd, htask] at hx
    exact hx
  · simp [Session.task, htask] at hx

theorem CallStep.not_endedItself (hstep : CallStep pipelined s k atOnce r t)
    (hk : (s.calls[k]?).any isClosing = true) (h : ¬ s.EndedItself) : ¬ t.EndedItself := by
  cases hstep with
  | enter h' | handshake h' | connected h' | connectFailed h' =>
    rw [h'] at hk
    cases hk
  | @cancelled closer => cases closer <;> exact Session.not_endedItself h rfl (Or.inr rfl)
  | disconnect => exact Session.not_endedItself h rfl (Or.inr rfl)
  | @interrupted _ closer =>
    exact Session.not_endedItself h (closeFailed_dispatchers ..) (Or.inl (closeFailed_task ..))
  | noPipe =>
    exact Session.not_endedItself h (closeFailed_dispatchers ..) (Or.inl (closeFailed_task ..))
  | closePipe => exact Session.not_endedItself h rfl (Or.inl rfl)
  | @closed closer => cases closer <;> exact Session.not_endedItself h rfl (Or.inl rfl)
  | closeFailed =>
    exact Session.not_endedItself h (closeFailed_dispatchers ..) (Or.inl (closeFailed_task ..))

theorem cancelTask_not_endedItself (h : ¬ s.EndedItself) : ¬ s.cancelTask.EndedItself := by
  rintro ⟨x, hx, hfinished, hcancel⟩
  apply h
  unfold Session.cancelTask at hx
  split at hx
  next hnone => exact ⟨x, hx, hfinished, hcancel⟩
  next d hd =>
    simp only [Session.task, hd, Option.mem_def, Option.bind_some, List.getElem?_modify,
      Option.map_eq_map, Option.map_eq_some_iff, if_true] at hx
    obtain ⟨y, hy, rfl⟩ := hx
    refine ⟨y, by simpa [Session.task, hd] using hy, ?_⟩
    split_ifs at hfinished hcancel with hended
    · exact ⟨hfinished, hcancel⟩

theorem idleClose_not_endedItself {now : ℚ} (h : ¬ s.EndedItself) :
    ¬ (s.idleClose now).EndedItself := by
  unfold Session.idleClose
  split_ifs
  · exact h
  · exact not_endedItself h rfl (Or.inl rfl)
  · unfold Session.close
    split
    · exact not_endedItself h rfl (Or.inl rfl)
    · have hclosed : ¬ ({ s with
          isClosed := true, lastSend := some (s.lastActive now) } : Session).EndedItself :=
        not_endedItself h rfl (Or.inl rfl)
      exact not_endedItself (cancelTask_not_endedItself hclosed) rfl (Or.inl rfl)

theorem idleClose_isClosed_of_not_idle {now : ℚ} (h : ¬ s.IsIdle now) :
    (s.idleClose now).isClosed = s.isClosed := by
  unfold Session.idleClose
  split_ifs with htask hactive
  · rfl
  · rfl
  · exact absurd ⟨htask, not_lt.mp hactive⟩ h

theorem idleClose_isClosed_of_idle {now : ℚ} (h : s.IsIdle now) (hopen : s.isClosed = false) :
    (s.idleClose now).isClosed = true := by
  unfold Session.idleClose
  rw [if_neg h.1, if_neg (not_lt.mpr h.2)]
  unfold Session.close
  rw [if_neg (by simp [hopen])]
  exact cancelTask_isClosed _

end Session

end Sidewire
