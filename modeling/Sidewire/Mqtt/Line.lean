import Sidewire.Mqtt.Reader

/-! # A stream from a broker

What a broker writes to a client arrives in pieces of any size, and the reader
hands on the packets. The broker writes whole packets; a connection that the
reconnect loop dials again starts on an empty buffer and loses what the old one
still held.
-/

namespace Sidewire

inductive Handler
  | task (k : ℕ)
  | ended (result : Except PyExc Unit)
  deriving DecidableEq

/-- A client's reader, the handlers of its suspended calls, and the bytes still on their way. What
the broker wrote to each connection and what of it was handed on is history. -/
structure Line where
  reader : Reader := {}
  handlers : List Handler := []
  pending : Bytes := []
  written : List MQTTPacket := []
  earlier : List (List MQTTPacket × List MQTTPacket) := []

namespace Line

def write (l : Line) (pkt : MQTTPacket) : Line :=
  { l with written := l.written ++ [pkt], pending := l.pending ++ pkt.build }

section

variable (wraps : PyExc → Bool)

def turn (l : Line) (e : Reader.Event) : Option (Line × Option MQTTPacket) :=
  (l.reader.turn wraps e).map fun (s, o) =>
    ({ l with reader := s }, if o = .suspended then s.handling.getLast? else none)

def chunk (l : Line) (len : ℕ) : Option (Line × Option MQTTPacket) :=
  turn wraps { l with pending := l.pending.drop len } (.chunk (l.pending.take len))

def resume (l : Line) (k : ℕ) (result : Except PyExc Unit) : Option (Line × Option MQTTPacket) :=
  turn wraps { l with handlers := l.handlers.eraseIdx k } (.resume k result)

end

/-- The reconnect loop dials again, and `reset_session_state` empties the buffer. A `close` that is
followed by a `connect` keeps it, and is not modelled here. -/
def redial (l : Line) : Line where
  reader := { handling := l.reader.handling }
  handlers := l.handlers
  earlier := l.earlier ++ [(l.written, l.reader.dispatched)]

def dispatched (l : Line) : List MQTTPacket := l.earlier.flatMap Prod.snd ++ l.reader.dispatched

def stream (l : Line) : Bytes := (l.written.map MQTTPacket.build).flatten

/-- What was handed on are the packets read off what arrived, each of a length that can be spelled;
`held` says how many calls of the reader have a handler. -/
structure Sound (held : ℕ) (l : Line) : Prop where
  fits : ∀ pkt ∈ l.written, (pkt.variableHeader ++ pkt.payload).length ≤ 268435455
  stream : l.reader.received ++ l.pending = l.stream
  reads : l.reader.Reads
  length : l.reader.handling.length = held
  earlier : ∀ e ∈ l.earlier, e.2 <+: e.1.map MQTTPacket.received

variable {wraps : PyExc → Bool} {l l' : Line} {held len k : ℕ} {pkt : MQTTPacket}
  {pkt? : Option MQTTPacket}
  {e : Reader.Event} {result : Except PyExc Unit}

theorem sound_init : Sound 0 {} where
  fits := by simp
  stream := rfl
  reads := Reader.reads_init
  length := rfl
  earlier := by simp

namespace Sound

theorem reads_stream (h : l.Sound held) :
    framing.Reads (l.written.map MQTTPacket.received) l.stream [] :=
  Framing.reads_flatten fun pkt hp => spells_build (h.fits pkt hp)

theorem dispatched_prefix (h : l.Sound held) :
    l.reader.dispatched <+: l.written.map MQTTPacket.received := by
  have hall := Framing.Reads.append h.reads l.pending
  rw [h.stream] at hall
  obtain ⟨rs, hrs, -⟩ := h.reads_stream.of_idle Framing.idle_nil hall
  exact ⟨rs, hrs.symm⟩

theorem dispatched_all (h : l.Sound 0) (hw : l.reader.Waits) (hp : l.pending = []) :
    l.reader.dispatched = l.written.map MQTTPacket.received := by
  have hreads : framing.Reads l.reader.dispatched l.reader.received l.reader.buf := h.reads
  have hstream := h.stream
  rw [hp, List.append_nil] at hstream
  rw [hstream] at hreads
  have hidle := idle_of_scan (hw (List.length_eq_zero_iff.mp h.length))
  exact (hreads.eq_of_idle hidle h.reads_stream Framing.idle_nil).1

theorem write (h : l.Sound held) (hp : (pkt.variableHeader ++ pkt.payload).length ≤ 268435455) :
    (l.write pkt).Sound held where
  fits := by
    intro p hp'
    rcases List.mem_append.mp hp' with hp' | hp'
    · exact h.fits p hp'
    · rw [List.mem_singleton.mp hp']
      exact hp
  stream := by
    simp only [Line.write, Line.stream, List.map_append, List.map_singleton, List.flatten_append,
      List.flatten_singleton, ← List.append_assoc]
    rw [h.stream]
    rfl
  reads := h.reads
  length := h.length
  earlier := h.earlier

theorem redial (h : l.Sound held) : l.redial.Sound held where
  fits := by simp [Line.redial]
  stream := rfl
  reads := Framing.Reads.nil []
  length := h.length
  earlier := by
    intro e he
    rcases List.mem_append.mp he with he | he
    · exact h.earlier e he
    · rw [List.mem_singleton.mp he]
      exact h.dispatched_prefix

theorem turn (h : l.Sound held) (l₁ : Line) (hr : l₁.reader = l.reader) (hw : l₁.written = l.written)
    (hearlier : l₁.earlier = l.earlier) (hp : e.bytes ++ l₁.pending = l.pending)
    (ht : l₁.turn wraps e = some (l', pkt?)) :
    l'.Sound ((e.kept l.reader.handling).length + pkt?.toList.length) ∧
      l'.dispatched = l.dispatched ++ pkt?.toList ∧ l'.written = l.written ∧
      l'.handlers = l₁.handlers ∧ (∀ pkt ∈ pkt?, pkt ∈ l.written.map MQTTPacket.received) ∧
      (l.reader.Waits → ¬ Reader.Strands wraps l.reader e → l'.reader.Waits) := by
  obtain ⟨⟨s, o⟩, hs, he⟩ := Option.map_eq_some_iff.mp ht
  obtain ⟨rfl, rfl⟩ := Prod.mk.inj he
  rw [hr] at hs
  have hstream : s.received ++ l₁.pending = l.stream := by
    rw [Reader.turn_received hs, List.append_assoc, hp, h.stream]
  have hclean := Reader.clean_of_reads h.reads_stream
  have hreads := (Reader.turn_spec hclean h.reads hs ⟨l₁.pending, hstream⟩).1
  have hcases := Reader.turn_handling hs
  have hsound : Sound s.handling.length { l₁ with reader := s } :=
    ⟨hw ▸ h.fits, by rw [hstream, Line.stream, Line.stream, hw], hreads, rfl, hearlier ▸ h.earlier⟩
  have hmem := hsound.dispatched_prefix
  have hwaits : l.reader.Waits → ¬ Reader.Strands wraps l.reader e → s.Waits :=
    fun hw hn => Reader.turn_waits hclean h.reads (fun _ => hw) hs ⟨l₁.pending, hstream⟩ hn
  obtain ⟨rfl, pkt, hd, hh⟩ | ⟨ho, hd, hh⟩ := hcases
  · simp only [if_true, hh, List.getLast?_append, List.getLast?_singleton, Option.some_or,
      Option.toList_some, List.length_singleton]
    refine ⟨by simpa [hh] using hsound, ?_, hw, trivial, ?_, hwaits⟩
    · simp only [Line.dispatched, hearlier, hd, List.append_assoc]
    · rintro pkt' ⟨⟩
      simp only [hd, hw] at hmem
      exact hmem.subset (List.mem_append_right _ (List.mem_singleton_self _))
  · simp only [ho, if_false, Option.toList_none, List.length_nil, Nat.add_zero, List.append_nil]
    refine ⟨hh ▸ hsound, ?_, hw, trivial, by simp, hwaits⟩
    simp only [Line.dispatched, hearlier, hd]

theorem chunk (h : l.Sound held) (hc : l.chunk wraps len = some (l', pkt?)) :
    l'.Sound (held + pkt?.toList.length) ∧ l'.dispatched = l.dispatched ++ pkt?.toList ∧
      l'.written = l.written ∧ l'.handlers = l.handlers ∧
      (∀ pkt ∈ pkt?, pkt ∈ l.written.map MQTTPacket.received) ∧
      (l.reader.Waits → l'.reader.Waits) := by
  obtain ⟨hs, hd, hw, hh, hm, hwaits⟩ := h.turn (e := .chunk (l.pending.take len))
    { l with pending := l.pending.drop len } rfl rfl rfl (List.take_append_drop ..) hc
  rw [← h.length]
  exact ⟨hs, hd, hw, hh, hm, fun hl => hwaits hl id⟩

theorem resume (h : l.Sound held) (hc : l.resume wraps k result = some (l', pkt?)) : k < held ∧
    l'.Sound (held - 1 + pkt?.toList.length) ∧ l'.dispatched = l.dispatched ++ pkt?.toList ∧
      l'.written = l.written ∧ l'.handlers = l.handlers.eraseIdx k ∧
      (∀ pkt ∈ pkt?, pkt ∈ l.written.map MQTTPacket.received) ∧
      (l.reader.Waits → ¬ Reader.Strands wraps l.reader (.resume k result) →
        l'.reader.Waits) := by
  have ht := h.turn (e := .resume k result) { l with handlers := l.handlers.eraseIdx k }
    rfl rfl rfl rfl hc
  obtain ⟨⟨s, o⟩, hs, -⟩ := Option.map_eq_some_iff.mp hc
  have hk := Reader.lt_of_turn_resume hs
  rw [Reader.Event.kept, List.length_eraseIdx_of_lt hk] at ht
  rw [← h.length]
  exact ⟨hk, ht⟩

end Sound

end Line

end Sidewire
