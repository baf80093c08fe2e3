import Sidewire.Router.Steps

/-! # Parties over a network

The honest parties run one router each. What reaches them is up to the network:
a condition on the payloads received says how much of them it may make up. The
history of what every client queued and sent is what such a condition refers to.
-/

namespace Sidewire

structure Carries {KP : Type} (A : Aio KP) (x : Queued) (pkt : AppPacket) : Prop where
  queueIdHex : A.hToB x.queueIdHex = A.hToB pkt.queueIdHex
  seqNo : x.seqNo = pkt.seqNo
  msgType : x.msgType.value = pkt.msgType
  msg : A.toS (A.toB x.msg) = .ok pkt.msg

def Action.received {ι : Type} : Action ι → Option (String × Bytes)
  | .recv _ topic payload _ => some (topic, payload)
  | _ => none

namespace Router

open MQTTClient

variable {KP ι : Type} [DecidableEq ι] {A : Aio KP} {r r' : Router KP ι} {a : Action ι}

structure Logged (A : Aio KP) (r : Router KP ι) (v : Invocation ι) : Prop where
  msgType : v.pkt.msgType = MsgEnum.msg.value
  task : ∃ t ∈ r.tasks, t.client = v.client ∧ AppPacket.unpack A t.payload = .ok (some v.pkt) ∧
    A.hToB t.topic = .ok (A.compactPublicKey r.kp)

theorem Logged.kept (h : Move A r a r') {v : Invocation ι} (hv : Logged A r v) : Logged A r' v := by
  obtain ⟨hm, t, ht, hc, hp, htop⟩ := hv
  obtain ⟨t', ht', hc', htop', hp'⟩ := h.tasks_kept ht
  exact ⟨hm, t', ht', hc'.trans hc, by rw [hp']; exact hp, by rw [htop', h.kp]; exact htop⟩

theorem Move.logged (hs : Sound A r) (h : Move A r a r') (hl : ∀ v ∈ r.log, Logged A r v) :
    ∀ v ∈ r'.log, Logged A r' v := by
  intro v hv
  have hold := fun hv => (hl v hv).kept h
  cases h with
  | @turn k res t pc c recv calls hk hT =>
    rcases List.mem_append.mp hv with hv | hv
    · exact hold hv
    · obtain ⟨x, hx, rfl⟩ := List.mem_map.mp hv
      have ht := List.mem_of_getElem? hk
      have hself : { t with pc } ∈ (r.afterTurn k t pc c recv calls).tasks :=
        List.mem_of_getElem? (i := k) (by rw [getElem?_afterTurn hk, if_pos rfl])
      have hh := hs.holds t ht
      have hadd := hs.addressed t ht
      obtain ⟨rfl, -, -⟩ | ⟨pkt, y, todo, hpc, -, -, rfl, -, -⟩ |
        ⟨pkt, y, todo, size, hpc, rfl, -, -⟩ := hT.calls_cases
      · cases hx
      all_goals
        rw [List.mem_singleton.mp hx]
        rw [hpc] at hh hadd
        exact ⟨hh.2, _, hself, rfl, hh.1, hadd rfl⟩
  | _ => exact hold hv

end Router

abbrev Net (P KP ι : Type) := P → Router KP ι

namespace Net

open MQTTClient Router

variable {P KP ι : Type} {A : Aio KP} {n n' : Net P KP ι} {p : P} {a : Action ι} {payload : Bytes}
  {pkt : AppPacket} {Q : String → Publish → Prop}

def Owns (A : Aio KP) (n : Net P KP ι) (p : P) (pkHex : String) : Prop := A.pkHex (n p).kp = pkHex

/-- A payload that is accepted under an honest party's key has its signed section from a
publication of that party, one of the permitted kind. -/
def Backed (A : Aio KP) (n : Net P KP ι) (Q : Publish → Prop) (payload : Bytes) : Prop :=
  ∀ pkt, AppPacket.unpack A payload = .ok (some pkt) → (∃ p, Owns A n p pkt.srcPkHex) →
    ∃ p i, Owns A n p pkt.srcPkHex ∧ ∃ x ∈ ((n p).clients i).sent, Q x ∧
      x.payload.drop signedMsgOffset = payload.drop signedMsgOffset

/-- The network makes up nothing under an honest key: it loses, repeats, reorders and delays
publications, and hands them on where permitted. -/
def Honest (A : Aio KP) (Q : String → Publish → Prop) (n : Net P KP ι) (x : P × Action ι) : Prop :=
  ∀ y ∈ x.2.received, Backed A n (Q y.1) y.2

def Relayed (n : Net P KP ι) (x : P × Action ι) : Prop :=
  ∀ y ∈ x.2.received, ∃ p i, ∃ z ∈ ((n p).clients i).sent, z.topic = y.1 ∧ z.payload = y.2

def anywhere : String → Publish → Prop := fun _ _ => True

def onTopic : String → Publish → Prop := fun topic x => x.topic = topic

section Decidable

variable [Fintype P] [Fintype ι]

instance {Q : Publish → Prop} [DecidablePred Q] : Decidable (Backed A n Q payload) :=
  match h : AppPacket.unpack A payload with
  | .ok (some pkt) =>
    decidable_of_iff ((∃ p, A.pkHex (n p).kp = pkt.srcPkHex) → ∃ p i, A.pkHex (n p).kp = pkt.srcPkHex ∧
        ∃ x ∈ ((n p).clients i).sent, Q x ∧
          x.payload.drop signedMsgOffset = payload.drop signedMsgOffset)
      ⟨fun hb pkt' hp => by rw [h] at hp; cases hp; exact hb, fun hb => hb pkt h⟩
  | .ok none => isTrue fun pkt' hp => by rw [h] at hp; cases hp
  | .error _ => isTrue fun pkt' hp => by rw [h] at hp; cases hp

instance [∀ topic, DecidablePred (Q topic)] (x : P × Action ι) : Decidable (Honest A Q n x) :=
  inferInstanceAs (Decidable (∀ y ∈ x.2.received, Backed A n (Q y.1) y.2))

instance (x : P × Action ι) : Decidable (Relayed n x) :=
  inferInstanceAs (Decidable (∀ y ∈ x.2.received, ∃ p i, ∃ z ∈ ((n p).clients i).sent, _))

instance (topic : String) : DecidablePred (onTopic topic) := fun x =>
  inferInstanceAs (Decidable (x.topic = topic))

instance (topic : String) : DecidablePred (anywhere topic) := fun _ => isTrue trivial

end Decidable

variable [DecidableEq P] [DecidableEq ι]

def step (A : Aio KP) (n : Net P KP ι) (x : P × Action ι) : Option (Net P KP ι) :=
  ((n x.1).step A x.2).map (Function.update n x.1)

theorem step_eq_some (h : step A n (p, a) = some n') :
    ∃ r', (n p).step A a = some r' ∧ n' = Function.update n p r' := by
  obtain ⟨r', hr, rfl⟩ := Option.map_eq_some_iff.mp h
  exact ⟨r', hr, rfl⟩

omit [DecidableEq P] [DecidableEq ι] in
theorem Backed.mono (hkp : ∀ p, (n' p).kp = (n p).kp)
    (hsent : ∀ p i, ((n p).clients i).sent <+: ((n' p).clients i).sent) {Q : Publish → Prop}
    (h : Backed A n Q payload) : Backed A n' Q payload := by
  intro pkt hp ho
  simp only [Owns, hkp] at ho ⊢
  obtain ⟨p, i, hp', x, hx, hq, hs⟩ := h pkt hp ho
  exact ⟨p, i, hp', x, (hsent p i).subset hx, hq, hs⟩

structure Traced (A : Aio KP) (Q : String → Publish → Prop) (n : Net P KP ι) : Prop where
  sound : ∀ p, Sound A (n p)
  logged : ∀ p, ∀ v ∈ (n p).log, Logged A (n p) v
  backed : ∀ p, ∀ t ∈ (n p).tasks, Backed A n (Q t.topic) t.payload

omit [DecidableEq P] [DecidableEq ι] in
theorem Traced.of_fresh (h : ∀ p, Fresh (n p)) : Traced A Q n where
  sound p := (h p).sound
  logged p v hv := by rw [(h p).log] at hv; cases hv
  backed p t ht := by rw [(h p).tasks] at ht; cases ht

structure Advances (A : Aio KP) (n n' : Net P KP ι) : Prop where
  kp : ∀ p, (n' p).kp = (n p).kp
  grows : ∀ p i, Grows ((n p).clients i) ((n' p).clients i)
  log : ∀ p, (n p).log <+: (n' p).log

omit [DecidableEq P] [DecidableEq ι] in
theorem Advances.refl (n : Net P KP ι) : Advances A n n :=
  ⟨fun _ => rfl, fun _ _ => .refl _, fun _ => List.prefix_rfl⟩

omit [DecidableEq P] [DecidableEq ι] in
theorem Advances.trans {n'' : Net P KP ι} (h : Advances A n n') (h' : Advances A n' n'') :
    Advances A n n'' :=
  ⟨fun p => (h'.kp p).trans (h.kp p), fun p i => (h.grows p i).trans (h'.grows p i),
    fun p => (h.log p).trans (h'.log p)⟩

theorem Traced.advances (hA : A.Lawful) (h : Traced A Q n) (hstep : step A n (p, a) = some n') :
    Advances A n n' := by
  obtain ⟨r', hr, rfl⟩ := step_eq_some hstep
  have hM := step_spec hA hr
  have hcases : ∀ q, (Function.update n p r' q = n q) ∨ q = p ∧ Function.update n p r' q = r' := by
    intro q
    by_cases hq : q = p
    · exact .inr ⟨hq, by rw [hq, Function.update_self]⟩
    · exact .inl (Function.update_of_ne hq _ _)
  refine ⟨fun q => ?_, fun q i => ?_, fun q => ?_⟩
  · obtain he | ⟨rfl, he⟩ := hcases q
    · rw [he]
    · rw [he, hM.kp]
  · obtain he | ⟨rfl, he⟩ := hcases q
    · rw [he]; exact .refl _
    · rw [he]; exact (hM.writes hA (h.sound q) i).grows
  · obtain he | ⟨rfl, he⟩ := hcases q
    · rw [he]
    · rw [he]; exact hM.log

theorem Traced.step (hA : A.Lawful) (h : Traced A Q n) (hh : Honest A Q n (p, a))
    (hstep : step A n (p, a) = some n') : Traced A Q n' := by
  have hadv := h.advances hA hstep
  obtain ⟨r', hr, rfl⟩ := step_eq_some hstep
  have hM := step_spec hA hr
  have hother : ∀ q, q ≠ p → Function.update n p r' q = n q := fun q hq =>
    Function.update_of_ne hq _ _
  have hmono : ∀ {Q payload}, Backed A n Q payload → Backed A (Function.update n p r') Q payload :=
    fun hb => hb.mono hadv.kp fun q i => (hadv.grows q i).sent
  refine ⟨fun q => ?_, fun q => ?_, fun q t ht => ?_⟩
  · by_cases hq : q = p
    · subst hq
      rw [Function.update_self]
      exact hM.sound hA (h.sound q)
    · rw [hother q hq]; exact h.sound q
  · by_cases hq : q = p
    · subst hq
      rw [Function.update_self]
      exact hM.logged (h.sound q) (h.logged q)
    · rw [hother q hq]; exact h.logged q
  · refine hmono ?_
    by_cases hq : q = p
    · subst hq
      rw [Function.update_self] at ht
      obtain ⟨u, hu, -, ht₁, ht₂⟩ | ⟨withId, rfl⟩ := hM.tasks_cases ht
      · rw [← ht₁, ← ht₂]
        exact h.backed q u hu
      · exact hh _ rfl
    · rw [hother q hq] at ht
      exact h.backed q t ht

omit [DecidableEq P] [DecidableEq ι] in
theorem Traced.carries (hA : A.Lawful) (h : Traced A Q n) {Q : Publish → Prop}
    (hb : Backed A n Q payload) (hp : AppPacket.unpack A payload = .ok (some pkt))
    (ho : ∃ p, Owns A n p pkt.srcPkHex) :
    ∃ p i, Owns A n p pkt.srcPkHex ∧ ∃ x ∈ ((n p).clients i).queued, Carries A x pkt ∧
      ∃ y, Q y ∧ y.topic = x.destPkHex := by
  obtain ⟨p, i, hown, y, hy, hq, hs⟩ := hb pkt hp ho
  have ht := (h.sound p).tracked i
  obtain ⟨x, hx, hdest, hout⟩ := ht.sent y hy
  obtain ⟨now, signed, rnd, hsig, hx'⟩ := ht.packed x hx
  rw [← hout, hx', AppPacket.drop_assemble hA] at hs
  rw [hs] at hsig
  obtain ⟨h₁, h₂, -, h₃, h₄⟩ := (AppPacket.unpack_spec hp).fields_of_signed hA hsig
  exact ⟨p, i, hown, x, hx, ⟨h₁.symm, h₂.symm, h₃.symm, h₄⟩, y, hq, hdest.symm⟩

omit [DecidableEq P] [DecidableEq ι] in
theorem Traced.owns_sent (hA : A.Lawful) (h : Traced A Q n) {i : ι} {z : Publish}
    (hz : z ∈ ((n p).clients i).sent) (hp : AppPacket.unpack A z.payload = .ok (some pkt)) :
    Owns A n p pkt.srcPkHex := by
  obtain ⟨x, hx, -, hout⟩ := ((h.sound p).tracked i).sent z hz
  obtain ⟨now, signed, rnd, -, hx'⟩ := ((h.sound p).tracked i).packed x hx
  rw [Owns, (AppPacket.unpack_spec hp).srcPkHex, ← hout, hx', AppPacket.take_assemble hA,
    (h.sound p).kp, Aio.pkHex]

omit [DecidableEq P] [DecidableEq ι] in
theorem Traced.honest_of_relayed (hA : A.Lawful) (h : Traced A Q n) {x : P × Action ι}
    (hr : Relayed n x) : Honest A onTopic n x := by
  intro y hy pkt hp _
  obtain ⟨p, i, z, hz, ht, hpay⟩ := hr y hy
  rw [← hpay] at hp ⊢
  exact ⟨p, i, h.owns_sent hA hz hp, z, hz, ht, rfl⟩

end Net

end Sidewire
