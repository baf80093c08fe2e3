import Sidewire.Lib.Machine
import Sidewire.Session.Moves
import Sidewire.Session.Running

/-! # The receive buffer across sessions

Every buffered byte remembers its pipe. With one connection at a time, and as
long as `connect` starts out with an empty buffer, what the buffer holds when a
chunk arrives has come from the chunk's own pipe. The reconnect loop empties the
buffer itself.
-/

namespace Sidewire

def MqttConnect.beforeReader (m : MqttConnect) : Prop := m = .connecting ∨ m.unregistered ≠ none

namespace Connection

variable {c : Connection} {p : ℕ} {x : ℕ × UInt8}

theorem mem_pass_buf (h : x ∈ c.pass.buf) : x ∈ c.buf := by
  rw [pass] at h
  split at h
  · exact h
  · exact List.mem_of_mem_drop h
  · exact List.mem_of_mem_drop h

theorem pass_arrivals (c : Connection) : c.pass.arrivals = c.arrivals := by
  rw [pass]
  split <;> rfl

theorem mem_receive_buf {chunk : Bytes} (h : x ∈ (c.receive p chunk).buf) :
    x ∈ c.buf ∨ x.1 = p := by
  rw [receive] at h
  split_ifs at h
  · exact Or.inl h
  · rcases List.mem_append.mp (mem_pass_buf h) with h | h
    · exact Or.inl h
    · obtain ⟨byte, -, rfl⟩ := List.mem_map.mp h
      exact Or.inr rfl

theorem mem_receive_arrivals {chunk : Bytes} {y : ℕ × List (ℕ × UInt8)}
    (h : y ∈ (c.receive p chunk).arrivals) : y ∈ c.arrivals ∨ y = (p, c.buf) := by
  rw [receive] at h
  split_ifs at h
  · exact Or.inl h
  · rw [pass_arrivals] at h
    simpa using h

@[simp] theorem closeIf_buf {b : Bool} : (c.closeIf b p).buf = c.buf := by
  cases b <;> rfl

@[simp] theorem closeIf_arrivals {b : Bool} : (c.closeIf b p).arrivals = c.arrivals := by
  cases b <;> rfl

theorem IsLive.lt (h : c.IsLive p) : p < c.pipes.length := by
  obtain ⟨pipe, hpipe, -⟩ := h
  exact (List.getElem?_eq_some_iff.mp hpipe).1

end Connection

namespace Session

variable {pipelined : Bool} {s t : Session} {a : Act} {c d : Connection} {p : ℕ}
  {f g : Runner → Option MqttConnect}

/-- One connection at a time, from the beginning of its handshake to the end of its pipe. -/
structure OneConnection (s : Session) : Prop where
  handshakes : ∀ i j m m', s.handshake i = some m → s.handshake j = some m' → i = j
  pipes : ∀ p q, s.conn.IsLive p → s.conn.IsLive q → p = q
  own : ∀ i m p, s.handshake i = some m → s.conn.IsLive p →
    m.registered = some p ∨ m.ending = some p

/-- `connect` and `try_client` begin with an empty buffer. -/
def StartsEmpty (s : Session) (a : Act) : Prop := s.Begins a → s.conn.buf = []

/-- What is in the buffer belongs to the live pipe, and to none before the pipe is handed to the
packet reader. -/
structure Framed (c : Connection) (f : Runner → Option MqttConnect) : Prop where
  own : ∀ p, c.IsLive p → ∀ x ∈ c.buf, x.1 = p
  fresh : ∀ i m, f i = some m → m.beforeReader → c.buf = []
  arrivals : ∀ y ∈ c.arrivals, ∀ x ∈ y.2, x.1 = y.1

theorem framed_init : Framed ({} : Session).conn ({} : Session).handshake where
  own := by simp
  fresh := by simp
  arrivals := by simp

theorem Framed.shrink (h : Framed c f) (hbuf : ∀ x ∈ d.buf, x ∈ c.buf)
    (hlive : ∀ q, d.IsLive q → c.IsLive q) (harr : d.arrivals = c.arrivals)
    (hfresh : ∀ i m, g i = some m → m.beforeReader →
      d.buf = [] ∨ ∃ j n, f j = some n ∧ n.beforeReader) : Framed d g where
  own := by
    intro p hp x hx
    exact h.own p (hlive p hp) x (hbuf x hx)
  fresh := by
    intro i m hi hm
    rcases hfresh i m hi hm with hnil | ⟨j, n, hj, hn⟩
    · exact hnil
    · apply List.eq_nil_iff_forall_not_mem.mpr
      intro x hx
      have := hbuf x hx
      simp [h.fresh j n hj hn] at this
  arrivals := by
    rw [harr]
    exact h.arrivals

theorem update_handshake {i j : Runner} {o : Option MqttConnect} {m : MqttConnect}
    (h : Function.update f i o j = some m) : j = i ∧ o = some m ∨ j ≠ i ∧ f j = some m := by
  rw [Function.update_apply] at h
  split_ifs at h with hji
  · exact Or.inl ⟨hji, h⟩
  · exact Or.inr ⟨hji, h⟩

theorem not_beforeReader_of_registered {m : MqttConnect} (h : m.registered = some p) :
    ¬ m.beforeReader := by
  rintro (rfl | hm)
  · cases h
  · cases m <;> simp_all [MqttConnect.registered, MqttConnect.unregistered]

theorem not_beforeReader_of_ending {m : MqttConnect} (h : m.ending = some p) :
    ¬ m.beforeReader := by
  rintro (rfl | hm)
  · cases h
  · cases m <;> simp_all [MqttConnect.ending, MqttConnect.unregistered]

theorem Framed.goOn {i : Runner} {m : MqttConnect} {o : Option MqttConnect} (h : Framed c f)
    (hi : f i = some m) (hbuf : ∀ x ∈ d.buf, x ∈ c.buf)
    (hlive : ∀ q, d.IsLive q → c.IsLive q) (harr : d.arrivals = c.arrivals)
    (ho : ∀ m', o = some m' → m'.beforeReader → m.beforeReader) :
    Framed d (Function.update f i o) := by
  apply h.shrink hbuf hlive harr
  intro j n hj hn
  right
  rcases update_handshake hj with ⟨rfl, rfl⟩ | ⟨-, hj⟩
  · exact ⟨j, m, hi, ho n rfl hn⟩
  · exact ⟨j, n, hj, hn⟩

theorem underWay_eq_some {m n : MqttConnect} (h : m.underWay = some n) : m = n := by
  cases m <;> simp_all [MqttConnect.underWay]

theorem Framed.handshakeStep {i : Runner} {m m' : MqttConnect} {r : Reply} {atOnce : Bool}
    (h : Framed s.conn s.handshake) (hone : s.OneConnection) (hi : s.handshake i = some m)
    (hstep : MqttConnect.HandshakeStep s.conn atOnce m r d m') :
    Framed d (Function.update s.handshake i m'.underWay) := by
  cases hstep with
  | opened =>
    apply h.goOn (d := s.conn.opened) hi (fun _ hx => hx) (by simp) rfl
    intro _ _ _
    exact Or.inl rfl
  | refused => exact h.goOn hi (fun _ hx => hx) (fun _ hq => hq) rfl (by simp [MqttConnect.underWay])
  | sent hm _ =>
    apply h.goOn hi (fun _ hx => hx) (fun _ hq => hq) rfl
    intro _ _ _
    exact Or.inr (by simp [hm])
  | failed => exact h.goOn hi (fun _ hx => hx) (fun _ hq => hq) rfl (by simp [MqttConnect.underWay])
  | closing =>
    apply h.goOn hi (by simp) (by simp) (by simp)
    intro _ _ _
    exact Or.inr (by simp [MqttConnect.unregistered])
  | @handOver _ p _ chunk hm' =>
    -- the buffer is empty, and no other handshake is under way
    have hnil : s.conn.buf = [] := h.fresh i _ hi (Or.inr (by simp [MqttConnect.unregistered]))
    refine ⟨?_, ?_, ?_⟩
    · intro q hq x hx
      have hqp : q = p := by
        simp only [Connection.isLive_receive, Connection.isLive_register] at hq
        rcases hq with hq | ⟨hq, -⟩
        · rcases hone.own i _ q hi hq with hreg | hend
          · cases hreg
          · cases hend
        · exact hq
      rcases Connection.mem_receive_buf hx with hx | hx
      · simp [Connection.register, hnil] at hx
      · exact hx.trans hqp.symm
    · intro j n hj hn
      rcases update_handshake hj with ⟨-, ho⟩ | ⟨hji, hj⟩
      · obtain rfl := underWay_eq_some ho
        exact absurd hn (not_beforeReader_of_registered hm')
      · exact absurd (hone.handshakes j i n _ hj hi) hji
    · intro y hy x hx
      rcases Connection.mem_receive_arrivals hy with hy | rfl
      · exact h.arrivals y hy x hx
      · simp [Connection.register, hnil] at hx
  | subscribed hm =>
    apply h.goOn hi (fun _ hx => hx) (fun _ hq => hq) rfl
    intro n hn hb
    cases hn
    exact absurd hb (not_beforeReader_of_registered rfl)
  | returned => exact h.goOn hi (fun _ hx => hx) (fun _ hq => hq) rfl (by simp [MqttConnect.underWay])
  | unwind hm =>
    apply h.goOn hi (by simp [MqttConnect.unwind]) (by simp [MqttConnect.unwind])
      (by simp [MqttConnect.unwind])
    intro n hn hb
    cases hn
    exact absurd hb (not_beforeReader_of_ending rfl)
  | closed => exact h.goOn hi (by simp) (by simp) (by simp) (by simp [MqttConnect.underWay])

theorem Framed.move (h : Framed s.conn s.handshake) (hone : s.OneConnection)
    (ha : s.StartsEmpty a) (hmove : Move s a d g) : Framed d g := by
  cases hmove with
  | quiet => exact h
  | begins hbegins =>
    apply h.shrink (fun _ hx => hx) (fun _ hq => hq) rfl
    intro _ _ _ _
    exact Or.inl (ha hbegins)
  | reconnects =>
    apply h.shrink (by simp) _ (by simp)
    · intro _ _ _ _
      exact Or.inl rfl
    · intro q hq
      exact (Connection.isLive_closeIf.mp hq).2
  | handshake hi hstep => exact h.handshakeStep hone hi hstep
  | closes =>
    apply h.shrink (by simp) (by simp) (by simp)
    intro i m hi hm
    exact Or.inr ⟨i, m, hi, hm⟩
  | closed =>
    apply h.shrink (by simp [Connection.close]) (by simp) (by simp [Connection.close])
    intro i m hi hm
    exact Or.inr ⟨i, m, hi, hm⟩
  | @chunk p bytes hlive =>
    refine ⟨?_, ?_, ?_⟩
    · intro q hq x hx
      obtain rfl := hone.pipes q p (by simpa using hq) hlive
      rcases Connection.mem_receive_buf hx with hx | hx
      · exact h.own q hlive x hx
      · exact hx
    · intro i m hi hm
      rcases hone.own i m p hi hlive with hreg | hend
      · exact absurd hm (not_beforeReader_of_registered hreg)
      · exact absurd hm (not_beforeReader_of_ending hend)
    · intro y hy x hx
      rcases Connection.mem_receive_arrivals hy with hy | rfl
      · exact h.arrivals y hy x hx
      · exact h.own p hlive x hx
  | @resumes reading =>
    have hfields := Connection.pass_fields { s.conn with reading }
    apply h.shrink (d := ({ s.conn with reading } : Connection).pass) _ _
      (Connection.pass_arrivals _)
    · intro i m hi hm
      exact Or.inr ⟨i, m, hi, hm⟩
    · intro x hx
      exact Connection.mem_pass_buf (c := { s.conn with reading }) hx
    · intro q hq
      rw [Connection.IsLive, hfields.2] at hq
      exact hq

/-- In every run with one connection at a time whose `connect` calls begin with an empty buffer,
whatever the buffer holds when bytes of a pipe are appended came in on that pipe. -/
theorem buffer_isolated (pipelined : Bool) (as : List Act) (t : Session)
    (hone : Machine.Meets (Session.step pipelined) (fun s _ => s.OneConnection) {} as)
    (hempty : Machine.Meets (Session.step pipelined) StartsEmpty {} as)
    (hrun : Machine.run (Session.step pipelined) {} as = some t) :
    ∀ y ∈ t.conn.arrivals, ∀ x ∈ y.2, x.1 = y.1 := by
  have h : Framed t.conn t.handshake := by
    apply Machine.run_invariant (I := fun s => Framed s.conn s.handshake) _ framed_init
      (hone.and hempty) hrun
    intro s a t h hp hs
    exact h.move hp.1 hp.2 (step_move hs)
  exact h.arrivals

def runners (s : Session) : List Runner :=
  (List.range s.calls.length).map .call ++ (List.range s.dispatchers.length).map .dispatcher

theorem mem_runners {i : Runner} {m : MqttConnect} (h : s.handshake i = some m) :
    i ∈ s.runners := by
  rw [runners, List.mem_append]
  cases i with
  | call k =>
    obtain ⟨x, hx, -⟩ := Option.bind_eq_some_iff.mp h
    exact Or.inl (List.mem_map_of_mem (List.mem_range.mpr (List.getElem?_eq_some_iff.mp hx).1))
  | dispatcher e =>
    obtain ⟨x, hx, -⟩ := Option.bind_eq_some_iff.mp h
    exact Or.inr (List.mem_map_of_mem (List.mem_range.mpr (List.getElem?_eq_some_iff.mp hx).1))

instance (s : Session) : Decidable s.OneConnection :=
  decidable_of_iff
    ((∀ i ∈ s.runners, ∀ j ∈ s.runners, ∀ m ∈ s.handshake i, ∀ n ∈ s.handshake j, i = j) ∧
      (∀ p < s.conn.pipes.length, ∀ q < s.conn.pipes.length,
        s.conn.IsLive p → s.conn.IsLive q → p = q) ∧
      ∀ i ∈ s.runners, ∀ m ∈ s.handshake i, ∀ p < s.conn.pipes.length, s.conn.IsLive p →
        m.registered = some p ∨ m.ending = some p) <| by
    constructor
    · rintro ⟨hshakes, hpipes, hown⟩
      exact ⟨fun i j m n hi hj => hshakes i (mem_runners hi) j (mem_runners hj) m hi n hj,
        fun p q hp hq => hpipes p hp.lt q hq.lt hp hq,
        fun i m p hi hp => hown i (mem_runners hi) m hi p hp.lt hp⟩
    · rintro ⟨hshakes, hpipes, hown⟩
      exact ⟨fun i _ j _ m hi n hj => hshakes i j m n hi hj,
        fun p _ q _ hp hq => hpipes p q hp hq, fun i _ m hi p _ hp => hown i m p hi hp⟩

instance (s : Session) (a : Act) : Decidable (s.StartsEmpty a) :=
  inferInstanceAs (Decidable (s.Begins a → s.conn.buf = []))

def lostMidPacket : List Act :=
  [.connect] ++ upToSuback 0 ++ [.reply 0 (.codes [1]) false, .dispatch 0 .done false,
    .chunk 0 [0x30], .lost 0, .dispatch 0 .done false, .dispatch 0 .done false,
    .dispatch 0 (.pipe true) false, .dispatch 0 .sent false,
    .dispatch 0 (.data MqttConnect.connack) false, .chunk 1 [0x90, 0x03, 0x00, 0x01, 0x01]]

theorem isolated_reconnect : ∃ t, Machine.run (Session.step false) {} lostMidPacket = some t ∧
    ∀ y ∈ t.conn.arrivals, ∀ x ∈ y.2, x.1 = y.1 := by
  obtain ⟨t, ht, -⟩ := Machine.exists_run_of_any (Session.step false) {} lostMidPacket
    (fun _ => true) (by decide +kernel)
  exact ⟨t, ht, buffer_isolated false lostMidPacket t (by decide +kernel) (by decide +kernel) ht⟩

/-- An idle close in the middle of a packet, and a new `connect`. -/
def idleClosedMidPacket : List Act :=
  [.connect] ++ upToSuback 0 ++ [.reply 0 (.codes [1]) false, .dispatch 0 .done false,
    .chunk 0 [0x30], .idleClose 0, .idleClose 600,
    .dispatch 0 (.raised .cancelledError false) false, .reply 1 .done false, .reply 1 .sent false,
    .reply 1 .done false, .connect] ++ upToSuback 2 ++ [.chunk 1 [0x90, 0x03, 0x00, 0x01, 0x01]]

/-- The first byte of the old packet is in front of what the new session receives. -/
theorem not_isolated_idle_close : ∃ t,
    Machine.run (Session.step false) {} idleClosedMidPacket = some t ∧
      Machine.Meets (Session.step false) (fun s _ => s.OneConnection) {} idleClosedMidPacket ∧
      ∃ y ∈ t.conn.arrivals, ∃ x ∈ y.2, x.1 ≠ y.1 := by
  obtain ⟨t, ht, harr⟩ := Machine.exists_run_of_any (Session.step false) {} idleClosedMidPacket
    (fun t => (1, [(0, 0x30)]) ∈ t.conn.arrivals) (by decide +kernel)
  exact ⟨t, ht, by decide +kernel, _, by simpa using harr, _, List.mem_singleton_self _, by decide⟩

end Session

end Sidewire
