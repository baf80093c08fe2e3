import Sidewire.Session.Handshake

/-! # The reply stream at the hand-over

One handshake with the pipe in front of it. The pipe buffers the broker's reply
until it is handed over, and `recv_n` may take more of it than was asked for.
The reader is called by the handshake itself, for what is still buffered, and
for what comes later.
-/

namespace Sidewire

namespace Connection

def registered (c : Connection) (p : ℕ) : Bool := (c.pipes[p]?).any (·.registered)

variable {c : Connection} {p q : ℕ}

@[simp] theorem registered_close : (c.close q).registered p = c.registered p := by
  simp only [registered, close, List.getElem?_modify]
  by_cases h : q = p <;> cases c.pipes[p]? <;> simp [h]

@[simp] theorem registered_closeIf {b : Bool} :
    (c.closeIf b q).registered p = c.registered p := by
  cases b <;> simp [closeIf]

@[simp] theorem registered_setPipe {pipe : Option ℕ} :
    ({ c with pipe } : Connection).registered p = c.registered p := rfl

@[simp] theorem registered_receive {chunk : Bytes} :
    (c.receive q chunk).registered p = c.registered p := by
  rw [registered, (receive_fields c q chunk).2, registered]

theorem registered_register (h : p < c.pipes.length) : (c.register p).registered p = true := by
  simp [registered, register, h]

end Connection

def Reply.isData : Reply → Bool
  | .data _ => true
  | _ => false

/-- A handshake and its pipe: what the pipe buffers and, as history, the whole reply so far, what
`recv_n` returned, and the chunks that the packet reader was called with. -/
structure HandOff where
  connection : Connection
  connect : MqttConnect
  buffered : Bytes := []
  reply : Bytes := []
  taken : List Bytes := []
  calls : List Bytes := []
  deriving DecidableEq

namespace HandOff

open MqttConnect

inductive Event
  | segment (bytes : Bytes)
  | recvN (n : ℕ) (atOnce : Bool)
  | awaited (r : Reply) (atOnce : Bool)

def start (c : Connection) : HandOff where
  connection := c.opened
  connect := .sendingConnect c.pipes.length

def read (s : HandOff) (p : ℕ) (chunk : Bytes) : HandOff :=
  { s with connection := s.connection.receive p chunk, calls := s.calls ++ [chunk] }

/-- What `mqtt_connect` passes to the reader itself. -/
def passedOn (pipelined : Bool) (connackRaw : Bytes) : List Bytes :=
  if pipelined ∧ connackRaw.drop 4 ≠ [] then [connackRaw.drop 4] else []

def step (pipelined : Bool) (p : ℕ) (s : HandOff) : Event → Option HandOff
  | .segment bytes =>
    let s := { s with reply := s.reply ++ bytes }
    if ¬ s.connection.IsOpen p then none
    else if s.connection.registered p then some (s.read p bytes)
    else some { s with buffered := s.buffered ++ bytes }
  | .recvN n atOnce =>
    if 4 ≤ n ∧ n ≤ s.buffered.length then
      let connackRaw := s.buffered.take n
      (resume pipelined s.connection s.connect (.data connackRaw) atOnce).map fun (c, m) =>
        let s := { s with connection := c, connect := m, taken := s.taken ++ [connackRaw] }
        -- the hand-over replays what is buffered after what the handshake passed on
        if c.registered p then
          { s with buffered := [], calls := s.calls ++ passedOn pipelined connackRaw }.read p
            (s.buffered.drop n)
        else { s with buffered := s.buffered.drop n }
    else none
  | .awaited r atOnce =>
    if r.isData then none
    else (resume pipelined s.connection s.connect r atOnce).map fun (c, m) =>
      { s with connection := c, connect := m }

structure Sound (pipelined : Bool) (p : ℕ) (s : HandOff) : Prop where
  exists_pipe : p < s.connection.pipes.length
  pipe : s.connect ≠ .connecting ∧ ∀ q, s.connect.unregistered = some q → q = p
  before : s.connect.unregistered = some p → s.connection.registered p = false ∧
    s.buffered = s.reply ∧ s.taken = [] ∧ s.calls = []
  after : s.connection.registered p = true → ∃ n, 4 ≤ n ∧ n ≤ s.reply.length ∧
    s.taken = [s.reply.take n] ∧ s.calls.flatten = s.reply.drop (if pipelined then 4 else n)

variable {pipelined atOnce : Bool} {p n : ℕ} {s s' : HandOff} {c : Connection} {r : Reply}
  {connackRaw bytes : Bytes}

theorem sound_start (pipelined : Bool) (c : Connection) :
    Sound pipelined c.pipes.length (start c) where
  exists_pipe := by simp [start, Connection.opened]
  pipe := by
    constructor
    · intro h
      cases h
    · intro q h
      cases h
      rfl
  before _ := ⟨by simp [start, Connection.opened, Connection.registered], rfl, rfl, rfl⟩
  after h := by simp [start, Connection.opened, Connection.registered] at h

theorem handOver_eq (pipelined : Bool) (c : Connection) (p : ℕ) (connackRaw : Bytes)
    (atOnce : Bool) :
    (connackRaw.take 4 ≠ connack ∧ handOver pipelined c p connackRaw atOnce =
      (c.closeIf atOnce p, .closing p .connectionError)) ∨
    connackRaw.take 4 = connack ∧ (handOver pipelined c p connackRaw atOnce).1 =
        (passedOn pipelined connackRaw).foldl (fun c chunk => c.receive p chunk) (c.register p) ∧
      (handOver pipelined c p connackRaw atOnce).2.registered = some p := by
  simp only [handOver, passedOn]
  by_cases hraw : connackRaw.take 4 = connack
  · right
    cases pipelined with
    | false => simp [hraw, registered]
    | true =>
      by_cases hsurplus : connackRaw.drop 4 = []
      · simp [hraw, hsurplus, registered]
      · simp [hraw, hsurplus, registered]
  · exact Or.inl ⟨hraw, by simp [hraw]⟩

theorem registered_foldl_receive (chunks : List Bytes) (c : Connection) (p : ℕ) :
    (chunks.foldl (fun c chunk => c.receive p chunk) c).registered p = c.registered p := by
  induction chunks generalizing c with
  | nil => rfl
  | cons chunk chunks ih => rw [List.foldl_cons, ih, Connection.registered_receive]

theorem pipes_foldl_receive (chunks : List Bytes) (c : Connection) (p : ℕ) :
    (chunks.foldl (fun c chunk => c.receive p chunk) c).pipes = c.pipes := by
  induction chunks generalizing c with
  | nil => rfl
  | cons chunk chunks ih => rw [List.foldl_cons, ih, (Connection.receive_fields c p chunk).2]

theorem length_closeIf (c : Connection) (b : Bool) (p : ℕ) :
    (c.closeIf b p).pipes.length = c.pipes.length := by
  cases b <;> simp [Connection.closeIf, Connection.close]

theorem resume_data {m m' : MqttConnect} {c' : Connection}
    (h : resume pipelined c m (.data connackRaw) atOnce = some (c', m')) :
    ∃ q, m = .awaitingConnack q ∧ handOver pipelined c q connackRaw atOnce = (c', m') := by
  cases m <;> simp only [resume, reduceCtorEq, Option.some.injEq] at h
  case awaitingConnack q => exact ⟨q, rfl, h⟩

theorem resume_of_not_data {m m' : MqttConnect} {c' : Connection} (hm : m ≠ .connecting)
    (hr : r.isData = false) (h : resume pipelined c m r atOnce = some (c', m')) :
    c'.pipes.length = c.pipes.length ∧ c'.registered p = c.registered p ∧ m' ≠ .connecting ∧
      ∀ q, m'.unregistered = some q → m.unregistered = some q := by
  cases resume_handshakeStep h with
  | opened => exact absurd rfl hm
  | refused => exact absurd rfl hm
  | sent hu hu' =>
    refine ⟨rfl, rfl, ?_, fun q hq => hu.trans (hu'.symm.trans hq)⟩
    rintro rfl
    cases hu'
  | failed hu => exact ⟨rfl, rfl, by simp, by simp [unregistered]⟩
  | closing => exact ⟨length_closeIf .., by simp, by simp, by simp [unregistered]⟩
  | handOver => cases hr
  | subscribed hreg => exact ⟨rfl, rfl, by simp, by simp [unregistered]⟩
  | returned hg => exact ⟨rfl, rfl, by simp, by simp [unregistered]⟩
  | unwind hreg =>
    exact ⟨length_closeIf .., by simp [unwind], by simp [unwind], by simp [unwind, unregistered]⟩
  | closed he => exact ⟨length_closeIf .., by simp, by simp, by simp [unregistered]⟩

theorem flatten_passedOn_append (pipelined : Bool) (buffered : Bytes) (hn : 4 ≤ n)
    (hle : n ≤ buffered.length) :
    (passedOn pipelined (buffered.take n)).flatten ++ buffered.drop n =
      buffered.drop (if pipelined then 4 else n) := by
  cases pipelined with
  | false => simp [passedOn]
  | true =>
    have hflat : (passedOn true (buffered.take n)).flatten = (buffered.take n).drop 4 := by
      by_cases hnil : (buffered.take n).drop 4 = []
      · rw [passedOn, if_neg (by simp [hnil]), hnil]
        rfl
      · rw [passedOn, if_pos ⟨rfl, hnil⟩]
        simp
    have hdrop : 4 ≤ (buffered.take n).length := by
      rw [List.length_take]
      omega
    rw [hflat, ← List.drop_append_of_le_length hdrop, List.take_append_drop]
    rfl

theorem Sound.segment (hs : s.Sound pipelined p)
    (h : step pipelined p s (.segment bytes) = some s') : s'.Sound pipelined p := by
  simp only [step] at h
  split_ifs at h with hopen hreg
  · cases h
    obtain ⟨n, hn, hle, htaken, hcalls⟩ := hs.after hreg
    refine ⟨?_, hs.pipe, fun hu => ?_, fun _ => ⟨n, hn, ?_, ?_, ?_⟩⟩
    · rw [read, (Connection.receive_fields _ p bytes).2]
      exact hs.exists_pipe
    · rw [(hs.before hu).1] at hreg
      cases hreg
    · exact hle.trans (by simp [read])
    · rw [read, htaken, List.take_append_of_le_length hle]
    · have hle' : (if pipelined then 4 else n) ≤ s.reply.length := by split_ifs <;> omega
      rw [read, List.flatten_append, hcalls, List.drop_append_of_le_length hle']
      simp
  · cases h
    refine ⟨hs.exists_pipe, hs.pipe, fun hu => ?_, fun hreg' => absurd hreg' hreg⟩
    obtain ⟨hr, hb, ht, hc⟩ := hs.before hu
    exact ⟨hr, congrArg (· ++ bytes) hb, ht, hc⟩

theorem Sound.recvN (hs : s.Sound pipelined p)
    (h : step pipelined p s (.recvN n atOnce) = some s') : s'.Sound pipelined p := by
  simp only [step] at h
  split_ifs at h with hn
  obtain ⟨⟨c, m⟩, hresume, h⟩ := Option.map_eq_some_iff.mp h
  obtain ⟨q, hm, hover⟩ := resume_data hresume
  obtain rfl : q = p := hs.pipe.2 q (by rw [hm]; rfl)
  obtain ⟨hr, hb, ht, hc⟩ := hs.before (by rw [hm]; rfl)
  obtain ⟨-, hbad⟩ | ⟨-, hconn, hreg⟩ :=
    handOver_eq pipelined s.connection q (s.buffered.take n) atOnce
  · rw [hbad] at hover
    cases hover
    have hfalse : (s.connection.closeIf atOnce q).registered q = false := by simp [hr]
    simp only [hfalse, Bool.false_eq_true, if_false] at h
    cases h
    refine ⟨?_, ⟨by simp, by simp [unregistered]⟩, by simp [unregistered], ?_⟩
    · rw [length_closeIf]
      exact hs.exists_pipe
    · intro htrue
      rw [hfalse] at htrue
      cases htrue
  · rw [hover] at hconn hreg
    simp only at hconn hreg
    subst hconn
    have htrue := Connection.registered_register hs.exists_pipe
    simp only [registered_foldl_receive, htrue, if_true] at h
    cases h
    have hunreg : m.unregistered = none := by cases m <;> simp_all [unregistered, registered]
    refine ⟨?_, ⟨?_, ?_⟩, ?_, fun _ => ⟨n, hn.1, ?_, ?_, ?_⟩⟩
    · rw [read, (Connection.receive_fields _ q _).2, pipes_foldl_receive]
      simpa [Connection.register] using hs.exists_pipe
    · rintro rfl
      cases hreg
    · intro q' hq'
      rw [read, hunreg] at hq'
      cases hq'
    · intro hu
      rw [read, hunreg] at hu
      cases hu
    · rw [read, ← hb]
      exact hn.2
    · rw [read, ht, hb]
      rfl
    · rw [read, hc, List.nil_append, List.flatten_append, List.flatten_singleton,
        flatten_passedOn_append pipelined s.buffered hn.1 hn.2, hb]

theorem Sound.awaited (hs : s.Sound pipelined p)
    (h : step pipelined p s (.awaited r atOnce) = some s') : s'.Sound pipelined p := by
  simp only [step] at h
  split_ifs at h with hr
  obtain ⟨⟨c, m⟩, hresume, h⟩ := Option.map_eq_some_iff.mp h
  cases h
  obtain ⟨hlen, hreg, hne, hu⟩ :=
    resume_of_not_data (p := p) hs.pipe.1 (Bool.eq_false_of_not_eq_true hr) hresume
  refine ⟨?_, ⟨hne, fun q hq => hs.pipe.2 q (hu q hq)⟩, fun hq => ?_, fun ht => ?_⟩
  · exact hlen ▸ hs.exists_pipe
  · exact hreg.symm ▸ hs.before (hu p hq)
  · exact hs.after (hreg ▸ ht)

theorem Sound.step {e : Event} (hs : s.Sound pipelined p) (h : step pipelined p s e = some s') :
    s'.Sound pipelined p := by
  cases e with
  | segment bytes => exact hs.segment h
  | recvN n atOnce => exact hs.recvN h
  | awaited r atOnce => exact hs.awaited h

/-- The reader has the reply past the CONNACK exactly with the pipelined handshake, or if the
CONNACK came alone. -/
theorem hand_over_iff (pipelined : Bool) (c : Connection) {es : List Event} {s : HandOff}
    (h : Machine.run (HandOff.step pipelined c.pipes.length) (start c) es = some s)
    (hreg : s.connection.registered c.pipes.length = true) :
    s.calls.flatten = s.reply.drop 4 ↔
      pipelined = true ∨ ∀ connackRaw ∈ s.taken, connackRaw.length = 4 := by
  have hs : s.Sound pipelined c.pipes.length :=
    Machine.run_preserves (fun _ _ _ hs h => hs.step h) (sound_start pipelined c) h
  obtain ⟨n, hn, hle, htaken, hcalls⟩ := hs.after hreg
  rw [hcalls, htaken]
  cases pipelined with
  | true => simp
  | false =>
    simp only [Bool.false_eq_true, if_false, false_or, List.mem_singleton, forall_eq,
      List.length_take]
    constructor
    · intro heq
      have hlen := congrArg List.length heq
      rw [List.length_drop, List.length_drop] at hlen
      omega
    · intro hlen
      have hn4 : n = 4 := by omega
      rw [hn4]

def gluedEvents (n : ℕ) : List Event :=
  [.awaited .sent false, .segment (connack ++ [0xD0, 0x00]), .recvN n false, .segment [0xD0, 0x00]]

/-- Where only the CONNACK is taken, both reach the reader. -/
theorem hand_over_glued : ∃ s, Machine.run (HandOff.step false 0) (start {}) (gluedEvents 4) =
    some s ∧ s.calls.flatten = s.reply.drop 4 := by
  obtain ⟨s, hrun, hp⟩ := Machine.exists_run_of_any (HandOff.step false 0) (start {}) (gluedEvents 4)
    (fun s => s.connection.registered 0 && s.taken.all fun connackRaw => connackRaw.length = 4)
    (by decide +kernel)
  rw [Bool.and_eq_true, List.all_eq_true] at hp
  refine ⟨s, hrun, (hand_over_iff false {} hrun hp.1).mpr (Or.inr fun connackRaw hmem => ?_)⟩
  exact of_decide_eq_true (hp.2 connackRaw hmem)

/-- Where the segment is taken as a whole, the first is lost with the standard handshake. -/
theorem hand_over_loses_surplus : ∃ s, Machine.run (HandOff.step false 0) (start {})
    (gluedEvents 6) = some s ∧ s.connection.registered 0 = true ∧
      s.calls.flatten = [0xD0, 0x00] ∧ s.reply.drop 4 = [0xD0, 0x00, 0xD0, 0x00] := by
  obtain ⟨s, hrun, hp⟩ := Machine.exists_run_of_any (HandOff.step false 0) (start {}) (gluedEvents 6)
    (fun s => s.connection.registered 0 && (s.calls.flatten = [0xD0, 0x00] &&
      s.reply.drop 4 = [0xD0, 0x00, 0xD0, 0x00])) (by decide +kernel)
  simp only [Bool.and_eq_true, decide_eq_true_eq] at hp
  exact ⟨s, hrun, hp.1, hp.2⟩

end HandOff

end Sidewire
