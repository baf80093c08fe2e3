import Sidewire.Lib.Channel
import Sidewire.Network.StopAndWait

/-! # Stop and wait is a channel for one message

The queue id of a stop-and-wait connection, with the two routers, their tasks,
dispatchers and tables and the network between them, behaves as a channel that
holds one message at a time. The abstraction reads the sender's stream, the texts
that the receiver's handler got, and the futures that are resolved.
-/

namespace Sidewire

theorem Router.Turn.unwritten_of_calls {KP ι : Type} {A : Aio KP} {r : Router KP ι}
    {res : Except PyExc ℕ} {t : Task ι} {pc : TaskPc} {c : MQTTClient KP} {recv : PyDict String ℚ}
    {calls : List (ℕ × AppPacket)} (hT : Turn A r t res pc c recv calls) :
    calls = [] ∨ c = r.clients t.client := by
  cases hT with
  | first | next => exact .inr rfl
  | _ => exact .inl rfl

namespace Net

open MQTTClient Router

variable {P KP ι : Type} {A : Aio KP} {n n' : Net P KP ι} {p S R : P} {i : ι} {q : String} {h : ℕ}
  {a : Action ι} {x : Queued}

def textOf (A : Aio KP) (x : Queued) : Except PyExc String := A.toS (A.toB x.msg)

/-- The channel that the two ends of a queue id amount to. -/
structure Represents (A : Aio KP) (S R : P) (i : ι) (q : String) (n : Net P KP ι)
    (c : Channel (Except PyExc String)) : Prop where
  accepted : (((n S).clients i).stream q).map (textOf A) = c.accepted
  received : (heard A q (n R)).map Except.ok = c.received
  acknowledged : ∀ (k : ℕ) (x : Queued), (((n S).clients i).stream q)[k]? = some x →
    (x.appAck ∈ ((n S).clients i).resolved ↔ k < c.acknowledged)

namespace Represents

variable {c : Channel (Except PyExc String)} (hc : Represents A S R i q n c)

include hc

theorem length : (((n S).clients i).stream q).length = c.accepted.length := by
  rw [← hc.accepted, List.length_map]

theorem delivered : c.delivered = (heard A q (n R)).length := by
  have hl := congrArg List.length hc.received
  have hd := c.delivered_le
  rw [List.length_map, Channel.received, List.length_take] at hl
  omega

theorem acknowledged_le {c' : Channel (Except PyExc String)} (hc' : Represents A S R i q n' c')
    (hs : ((n S).clients i).stream q <+: ((n' S).clients i).stream q)
    (hr : ((n S).clients i).resolved ⊆ ((n' S).clients i).resolved) :
    c.acknowledged ≤ c'.acknowledged := by
  by_contra hlt
  have hk : c'.acknowledged < (((n S).clients i).stream q).length := by
    have := hc.length
    have := c.acknowledged_le
    have := c.delivered_le
    omega
  obtain ⟨x, hx⟩ : ∃ x, (((n S).clients i).stream q)[c'.acknowledged]? = some x :=
    ⟨_, List.getElem?_eq_getElem hk⟩
  have hres := (hc.acknowledged _ _ hx).mpr (not_le.mp hlt)
  have hx' : (((n' S).clients i).stream q)[c'.acknowledged]? = some x := by
    obtain ⟨t, ht⟩ := hs
    rw [← ht, List.getElem?_append_left hk, hx]
  exact absurd ((hc'.acknowledged _ _ hx').mp (hr hres)) (lt_irrefl _)

end Represents

namespace Streaming

variable (hs : Streaming A S R i q h n)

include hs

theorem lt_of_resolved (hA : A.Lawful) {k : ℕ} (hx : (((n S).clients i).stream q)[k]? = some x)
    (hr : x.appAck ∈ ((n S).clients i).resolved) : k < (heard A q (n R)).length := by
  obtain ⟨text, ht, -⟩ := hs.place_of_resolved hA hx hr
  exact (List.getElem?_eq_some_iff.mp ht).1

theorem heard_length_le : (heard A q (n R)).length ≤ (((n S).clients i).stream q).length := by
  have := hs.delivered.length_le
  rwa [List.length_map, List.length_map] at this

theorem map_heard : (heard A q (n R)).map Except.ok =
    ((((n S).clients i).stream q).map (textOf A)).take (heard A q (n R)).length := by
  have := List.prefix_iff_eq_take.mp hs.delivered
  rwa [List.length_map] at this

theorem exists_acknowledged (hA : A.Lawful) : ∃ m : ℕ, m ≤ (heard A q (n R)).length ∧
    (((n S).clients i).stream q).length ≤ m + 1 ∧
    ∀ (k : ℕ) (x : Queued), (((n S).clients i).stream q)[k]? = some x →
      (x.appAck ∈ ((n S).clients i).resolved ↔ k < m) := by
  by_cases hl : ∃ x, (((n S).clients i).stream q)[(((n S).clients i).stream q).length - 1]? = some x ∧
      x.appAck ∉ ((n S).clients i).resolved
  · obtain ⟨y, hy, hn⟩ := hl
    have hpos := (List.getElem?_eq_some_iff.mp hy).1
    refine ⟨(((n S).clients i).stream q).length - 1, ?_, by omega,
      fun k x hx => ⟨fun hr => ?_, fun hk => ?_⟩⟩
    · by_cases h₁ : (((n S).clients i).stream q).length = 1
      · omega
      · have hlt : (((n S).clients i).stream q).length - 2 < (((n S).clients i).stream q).length := by
          omega
        have hx := List.getElem?_eq_getElem hlt
        have := hs.lt_of_resolved hA hx (hs.waited _ _ hx (by omega))
        omega
    · have hk := (List.getElem?_eq_some_iff.mp hx).1
      by_contra hge
      obtain rfl : k = (((n S).clients i).stream q).length - 1 := by omega
      rw [hy] at hx
      cases hx
      exact hn hr
    · exact hs.waited k x hx (by omega)
  · push Not at hl
    refine ⟨(((n S).clients i).stream q).length, ?_, by omega,
      fun k x hx => ⟨fun _ => ?_, fun _ => ?_⟩⟩
    · by_cases h₀ : (((n S).clients i).stream q).length = 0
      · omega
      · have hlt : (((n S).clients i).stream q).length - 1 < (((n S).clients i).stream q).length := by
          omega
        have hx := List.getElem?_eq_getElem hlt
        have := hs.lt_of_resolved hA hx (hl _ hx)
        omega
    · exact (List.getElem?_eq_some_iff.mp hx).1
    · by_cases hk : k + 1 < (((n S).clients i).stream q).length
      · exact hs.waited k x hx hk
      · have := (List.getElem?_eq_some_iff.mp hx).1
        obtain rfl : k = (((n S).clients i).stream q).length - 1 := by omega
        exact hl x hx

theorem represents (hA : A.Lawful) : ∃ c, Represents A S R i q n c := by
  obtain ⟨m, hm, hlen, hres⟩ := hs.exists_acknowledged hA
  refine ⟨⟨(((n S).clients i).stream q).map (textOf A), (heard A q (n R)).length, m, hm, ?_, ?_⟩,
    rfl, hs.map_heard, hres⟩
  · rw [List.length_map]
    exact hs.heard_length_le
  · rwa [List.length_map]

end Streaming

variable [DecidableEq P] [DecidableEq ι]

theorem heard_or_resolved (hA : A.Lawful) (hstep : step A n (p, a) = some n') :
    heard A q (n' R) = heard A q (n R) ∨
      ((n' S).clients i).resolved = ((n S).clients i).resolved := by
  obtain ⟨r', hr, rfl⟩ := step_eq_some hstep
  by_cases hR : R = p
  · subst hR
    have hM := step_spec hA hr
    cases hM with
    | tick | recv | client | prune =>
      left
      rw [Function.update_self]
      rfl
    | @turn k res t pc c recv calls hk hT =>
      obtain rfl | rfl := hT.unwritten_of_calls
      · left
        simp [heard, afterTurn]
      · right
        by_cases hS : S = R
        · subst hS
          simp [afterTurn]
        · rw [Function.update_of_ne hS]
  · left
    rw [Function.update_of_ne hR]

/-- The protocol refines the channel. -/
theorem Streaming.refines (hA : A.Lawful) : Machine.Refines (Net.step A) (Waiting A S R i q)
    Channel.step (fun _ _ => True) fun n c =>
      Streaming A S R i q h n ∧ Represents A S R i q n c := by
  rintro n ⟨p, a⟩ n' c ⟨hs, hc⟩ hw hstep
  have hs' := hs.step hA hw hstep
  obtain ⟨c', hc'⟩ := hs'.represents hA
  have hadv := hs.ackSound.traced.advances hA hstep
  obtain ⟨-, hstream⟩ := hs.stream_step hA hw hstep
  have hlog : (heard A q (n R)).length ≤ (heard A q (n' R)).length := by
    obtain ⟨l, hl⟩ := hadv.log R
    simp only [heard, ← hl, List.filter_append, List.map_append, List.length_append]
    omega
  have hres := (hadv.grows S i).resolved
  suffices hb : ∃ b, Machine.stutter Channel.step c b = some c' by
    obtain ⟨b, hb⟩ := hb
    exact ⟨b, c', fun _ _ => trivial, hb, hs', hc'⟩
  obtain he | ⟨x, rnd, rfl, rfl, -, -, -, he⟩ := hstream
  · have hk := hc.acknowledged_le hc' (by rw [he]) hres
    apply Channel.exists_step_of_le
    · rw [← hc'.accepted, he, hc.accepted]
    · rwa [hc.delivered, hc'.delivered]
    · exact hk
    · obtain hsame | hsame := heard_or_resolved (q := q) (R := R) (S := S) (i := i) hA hstep
      · left
        rw [hc.delivered, hc'.delivered, hsame]
      · right
        refine le_antisymm (hc'.acknowledged_le hc (by rw [he]) ?_) hk
        rw [hsame]
        exact fun _ h => h
  · have hk := hc.acknowledged_le hc' (by rw [he]; exact List.prefix_append _ _) hres
    apply Channel.exists_step_of_concat (x := textOf A x)
    · rw [← hc'.accepted, he, List.map_append, hc.accepted]
      rfl
    · -- the last message is resolved when the next one is queued
      obtain ⟨-, -, -, -, -, -, hlast⟩ := hw.own _ rfl rfl
      have hlen := hc.length
      have h₁ := c.acknowledged_le
      have h₂ := c.delivered_le
      by_contra hne
      have hlt : (((n p).clients i).stream q).length - 1 < (((n p).clients i).stream q).length := by
        omega
      have hx := List.getElem?_eq_getElem hlt
      have hr := hlast _ (by rw [List.getLast?_eq_getElem?]; exact hx)
      have := (hc.acknowledged _ _ hx).mp hr
      have := c.length_le
      omega
    · obtain ⟨r', hr, rfl⟩ := step_eq_some hstep
      rw [hc.delivered, hc'.delivered]
      congr 1
      by_cases hR : R = p
      · subst hR
        have hact := act_of_step hr
        cases hact
        rw [Function.update_self, call_eq]
        rfl
      · rw [Function.update_of_ne hR]
    · exact hk

omit [DecidableEq P] [DecidableEq ι] in
theorem represents_empty (h₀ : ∀ p, Fresh (n p)) :
    Represents A S R i q n Channel.empty := by
  have hstream : ((n S).clients i).stream q = [] := by simp [stream, (h₀ S).queued i]
  refine ⟨?_, ?_, fun k x hx => ?_⟩
  · rw [hstream]
    rfl
  · rw [heard, (h₀ R).log]
    rfl
  · rw [hstream] at hx
    cases hx

/-- Beside every stop-and-wait run, whatever is lost, repeated, reordered or delayed in it, runs a
channel that holds one message at a time and takes at most one step with each step of the net. -/
theorem stop_and_wait_refines (hA : A.Lawful) {n₀ : Net P KP ι} {as : List (P × Action ι)}
    (h₀ : ∀ p, Fresh (n₀ p)) (hkeys : Function.Injective fun p => A.pkHex (n₀ p).kp)
    (hh : ∀ i, ((n₀ R).clients i).msgHandlers.toList = [h])
    (has : Machine.Meets (Net.step A) (Waiting A S R i q) n₀ as) :
    ∃ bs : List (Option (Channel.Act (Except PyExc String))), bs.length = as.length ∧
      ∀ k n, Machine.run (Net.step A) n₀ (as.take k) = some n →
        ∃ c, Machine.run Channel.step Channel.empty (bs.take k).reduceOption = some c ∧
          Represents A S R i q n c := by
  obtain ⟨bs, hlen, hbs⟩ := (Streaming.refines (h := h) hA).run
    ⟨Streaming.of_fresh (i := i) (q := q) (S := S) h₀ hkeys hh, represents_empty h₀⟩ has
  refine ⟨bs, hlen, fun k n hn => ?_⟩
  obtain ⟨c, hc, -, -, hr⟩ := hbs k n hn
  exact ⟨c, hc, hr⟩

open Concrete

theorem stop_and_wait_refines_two : ∃ n c bs,
    Machine.run (step concrete) pair twoMessages = some n ∧
      heard concrete (queueId 'a') (n false) = ["one"] ∧
      Machine.run Channel.step Channel.empty bs = some c ∧
      Represents concrete true false () (queueId 'a') n c := by
  obtain ⟨n, hn, hm, hd⟩ := Machine.exists_runMeeting_of_any (step concrete)
    (Waiting concrete true false () (queueId 'a')) pair twoMessages
    (fun n => decide (heard concrete (queueId 'a') (n false) = ["one"])) (by decide +kernel)
  obtain ⟨bs, -, hbs⟩ := stop_and_wait_refines concrete_lawful fresh_pair (by decide +kernel)
    (h := 5) (fun _ => rfl) hm
  obtain ⟨c, hc, hr⟩ := hbs twoMessages.length n (by rwa [List.take_length])
  exact ⟨n, c, _, hn, of_decide_eq_true hd, hc, hr⟩

end Net

end Sidewire
