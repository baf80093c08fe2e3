import Sidewire.Discovery.Table
import Sidewire.Pool.Basic

/-! # Hint brokers

A destination advertises the brokers it is connected to, and a pipe tries them
before it looks for others. The router keeps one client for each family and
host, so two hints that differ in the port only share a client.
-/

namespace Sidewire

/-- An advertised broker, as `hint.get` finds its fields. -/
structure HintBroker where
  af : Option ℕ
  host : Option String
  port : Option ℕ
  deriving DecidableEq, Repr

/-- The broker a hint names; one without a family, a host or a port is passed over. -/
def HintBroker.broker (hint : HintBroker) : Option BrokerClient :=
  match hint.af, hint.host, hint.port with
  | some af, some host, some port => if host = "" ∨ port = 0 then none else some ⟨af, host, port⟩
  | _, _, _ => none

/-- How a connect ends that `try_client` waits for. -/
abbrev ConnectEnd := Except AwaitExc ℕ

namespace Session

/-- What a call of `try_client` comes to. -/
def tryEnd (s : Session) (now : ℚ) (e : ConnectEnd) : CallResult :=
  match s.tryClient now with
  | .over r => r
  | _ =>
    match e with
    | .ok p => (s.connected (some now) p).2
    | .error exc => (s.connectFailed (some now) exc false).2

end Session

namespace Pool

def toTry : Pool → List HintBroker → Except PyExc (Pool × List BrokerClient)
  | P, [] => .ok (P, [])
  | P, hint :: hints =>
    match hint.broker with
    | none => toTry P hints
    | some b => do
      let (_, client) ← Sidewire.ensureClient P.supports P.clients b.af b.host b.port
      let (Q, clients) ← toTry (P.ensureClient b.af b.host b.port) hints
      return (Q, client.toList ++ clients)

/-- The clients whose calls of `try_client` return them, where `ends i c` is how the connect of
attempt `i` ends, which is one on client `c`. -/
def reached (P : Pool) (ends : ℕ → BrokerClient → ConnectEnd) (toTry : List BrokerClient) :
    List BrokerClient :=
  (toTry.zipIdx.filter fun x => (P.session x.1).tryEnd P.clock (ends x.2 x.1) = .client).map
    Prod.fst

def resolveHintClients (P : Pool) (hints : List HintBroker) (ends : ℕ → BrokerClient → ConnectEnd) :
    Except PyExc (Pool × List BrokerClient) := do
  let (Q, toTry) ← P.toTry hints
  return (Q, Q.reached ends toTry)

variable (P : Pool) (hints : List HintBroker)

def usable (hint : HintBroker) : Option BrokerClient :=
  hint.broker.filter fun b => P.supports b.af

def Limited (b : BrokerClient) : Prop :=
  P.clients.at? b.af b.host = some b ∧ (P.session b).tryClient P.clock = .over .noClient

/-- The clients are different ones, each is that of a hint, and every usable broker that accepts
the connection and is not rate-limited is among them. -/
structure Faithful (ends : ℕ → BrokerClient → ConnectEnd) (out : List BrokerClient) : Prop where
  distinct : out.Nodup
  named : ∀ c ∈ out, ∃ hint ∈ hints, hint.broker = some c
  represented : ∀ b ∈ hints.filterMap P.usable, ¬ P.Limited b → (∀ i, ∃ p, ends i b = .ok p) →
    b ∈ out

/-- The table has no client with another port for a usable broker, and no two usable hints have
one family and host, unless the client is rate-limited. -/
structure Clean : Prop where
  ports : ∀ b ∈ hints.filterMap P.usable, ∀ c, P.clients.at? b.af b.host = some c → c = b
  pairwise : (hints.filterMap P.usable).Pairwise fun b b' =>
    b.af = b'.af → b.host = b'.host → P.Limited b

variable {P hints} {Q : Pool} {clients : List BrokerClient} {now : ℚ} {s : Session}

theorem tryEnd_ok (s : Session) (now : ℚ) (p : ℕ) :
    s.tryEnd now (.ok p) = .client ↔ s.tryClient now ≠ .over .noClient := by
  unfold Session.tryEnd Session.tryClient
  split_ifs <;> simp [Session.connected]

theorem tryClient_init (now : ℚ) : ({} : Session).tryClient now = .entering now := by
  simp [Session.tryClient]

theorem tryEnd_limited {e : ConnectEnd} (h : s.tryClient now = .over .noClient) :
    s.tryEnd now e = .noClient := by
  simp only [Session.tryEnd, h]

/-- What `to_try` holds: for each usable broker the client at its place, which was there before or
is new and that of a usable broker. -/
structure Tries (P : Pool) (us : List BrokerClient) (Q : Pool) (clients : List BrokerClient) :
    Prop where
  clock : Q.clock = P.clock
  kept : ∀ af host c, P.clients.at? af host = some c → Q.clients.at? af host = some c
  session : ∀ b : BrokerClient, P.clients.at? b.af b.host = some b → Q.session b = P.session b
  made : ∀ af host c, P.clients.at? af host = none → Q.clients.at? af host = some c →
    c.af = af ∧ c.host = host ∧ Q.session c = {} ∧ c ∈ us
  tried : List.Forall₂ (fun b c => Q.clients.at? b.af b.host = some c) us clients

theorem Tries.skip {us : List BrokerClient} {b : BrokerClient} {P' : Pool}
    (h : Tries P' us Q clients) (hclock : P'.clock = P.clock)
    (hkept : ∀ af host c, P.clients.at? af host = some c → P'.clients.at? af host = some c)
    (hsession : ∀ b : BrokerClient, P.clients.at? b.af b.host = some b →
      P'.session b = P.session b)
    (hmade : ∀ af host c, P.clients.at? af host = none → P'.clients.at? af host = some c →
      c = b ∧ b.af = af ∧ b.host = host ∧ P'.session b = {})
    {client : BrokerClient} (hat : P'.clients.at? b.af b.host = some client) :
    Tries P (b :: us) Q (client :: clients) where
  clock := h.clock.trans hclock
  kept af host c hc := h.kept af host c (hkept af host c hc)
  session b hb := (h.session b (hkept _ _ _ hb)).trans (hsession b hb)
  made := by
    intro af host c hnone hc
    cases hold : P'.clients.at? af host with
    | none =>
      obtain ⟨haf, hhost, hs, hmem⟩ := h.made af host c hold hc
      exact ⟨haf, hhost, hs, List.mem_cons_of_mem b hmem⟩
    | some c' =>
      obtain ⟨rfl, rfl, rfl, hs⟩ := hmade af host c' hnone hold
      obtain rfl := Option.some.inj ((h.kept _ _ _ hold).symm.trans hc)
      exact ⟨rfl, rfl, (h.session _ hold).trans hs, List.mem_cons_self ..⟩
  tried := .cons (h.kept _ _ _ hat) h.tried

theorem toTry_spec (hints : List HintBroker) : ∀ {P : Pool}, P.clients.Covers P.supports →
    ∃ Q clients, P.toTry hints = .ok (Q, clients) ∧
      Tries P (hints.filterMap P.usable) Q clients := by
  induction hints with
  | nil =>
    intro P hcovers
    refine ⟨P, [], rfl, rfl, fun _ _ _ => id, fun _ _ => rfl, ?_, .nil⟩
    intro af host c hnone hc
    cases hnone.symm.trans hc
  | cons hint hints ih =>
    intro P hcovers
    cases hb : hint.broker with
    | none =>
      obtain ⟨Q, clients, htry, htries⟩ := ih hcovers
      refine ⟨Q, clients, ?_, ?_⟩
      · simp only [toTry, hb, htry]
      · rw [List.filterMap_cons_none (by simp [usable, hb])]
        exact htries
    | some b =>
      by_cases hsup : P.supports b.af = true
      · obtain ⟨T, client, hmade, hcovers', hat, hclient⟩ :=
          ClientTable.ensureClient_spec hcovers hsup b.host b.port
        have husable : P.usable hint = some b := by simp [usable, hb, hsup]
        have hself : T.at? b.af b.host = some client := by
          rw [hat, if_pos ⟨rfl, rfl⟩]
        rcases hclient with ⟨hold, rfl⟩ | ⟨hnew, rfl, hne⟩
        · have hP : P.ensureClient b.af b.host b.port = P := by
            simp only [Pool.ensureClient, hmade, if_true]
          obtain ⟨Q, clients, htry, htries⟩ := ih hcovers
          refine ⟨Q, client :: clients, ?_, ?_⟩
          · simp only [toTry, hb, hmade, hP, htry]
            rfl
          · rw [List.filterMap_cons_some husable]
            apply htries.skip rfl (fun _ _ _ => id) (fun _ _ => rfl) _ hold
            intro af host c hnone hc
            cases hnone.symm.trans hc
        · have hP : P.ensureClient b.af b.host b.port =
              { P with clients := T, session := Function.update P.session b {} } := by
            simp only [Pool.ensureClient, hmade, if_neg hne]
          obtain ⟨Q, clients, htry, htries⟩ :=
            ih (P := { P with clients := T, session := Function.update P.session b {} }) hcovers'
          refine ⟨Q, b :: clients, ?_, ?_⟩
          · simp only [toTry, hb, hmade, hP, htry]
            rfl
          · rw [List.filterMap_cons_some husable]
            apply htries.skip (P := P) rfl _ _ _ hself
            · intro af host c hc
              rw [hat]
              split_ifs with heq
              · obtain ⟨rfl, rfl⟩ := heq
                cases hnew.symm.trans hc
              · exact hc
            · intro b' hb'
              apply Function.update_of_ne
              rintro rfl
              cases hnew.symm.trans hb'
            · intro af host c hnone hc
              rw [hat] at hc
              split_ifs at hc with heq
              · cases hc
                exact ⟨rfl, heq.1.symm, heq.2.symm, Function.update_self ..⟩
              · cases hnone.symm.trans hc
      · obtain ⟨Q, clients, htry, htries⟩ := ih hcovers
        have hmade : Sidewire.ensureClient P.supports P.clients b.af b.host b.port =
            .ok (P.clients, none) := if_pos hsup
        have hP : P.ensureClient b.af b.host b.port = P := by
          simp only [Pool.ensureClient, hmade]
        refine ⟨Q, clients, ?_, ?_⟩
        · simp only [toTry, hb, hmade, hP, htry]
          rfl
        · rw [List.filterMap_cons_none (by simp [usable, hb, hsup])]
          exact htries

theorem pairwise_of_forall₂ {α β : Type} {S : α → β → Prop} {R : α → α → Prop} {T : β → β → Prop}
    {l : List α} {l' : List β} (h : List.Forall₂ S l l') (hT : l'.Pairwise T)
    (hR : ∀ a a' c c', S a c → S a' c' → T c c' → R a a') : l.Pairwise R := by
  rw [List.pairwise_iff_getElem] at hT ⊢
  intro i j hi hj hij
  have hi' : i < l'.length := h.length_eq ▸ hi
  have hj' : j < l'.length := h.length_eq ▸ hj
  exact hR _ _ _ _ (h.get hi hi') (h.get hj hj') (hT i j hi' hj' hij)

theorem mem_of_forall₂ {α β : Type} {S : α → β → Prop} {l : List α} {l' : List β}
    (h : List.Forall₂ S l l') {c : β} (hc : c ∈ l') : ∃ a ∈ l, S a c := by
  obtain ⟨i, hi, rfl⟩ := List.getElem_of_mem hc
  have hi' : i < l.length := h.length_eq ▸ hi
  exact ⟨l[i], List.getElem_mem hi', h.get hi' hi⟩

theorem exists_hint_of_usable {b : BrokerClient} (h : b ∈ hints.filterMap P.usable) :
    ∃ hint ∈ hints, hint.broker = some b := by
  obtain ⟨hint, hhint, hb⟩ := List.mem_filterMap.mp h
  exact ⟨hint, hhint, (Option.filter_eq_some_iff.mp hb).1⟩

theorem Tries.eq_of_clean (h : Tries P (hints.filterMap P.usable) Q clients)
    (hclean : Clean P hints) : clients = hints.filterMap P.usable := by
  -- two usable brokers at one place are one broker, or the place was taken before
  have hunique : ∀ b ∈ hints.filterMap P.usable, ∀ c ∈ hints.filterMap P.usable,
      P.clients.at? b.af b.host = none → c.af = b.af → c.host = b.host → c = b := by
    have : Std.Symm fun b c : BrokerClient => b.af = c.af → b.host = c.host →
        ∃ d, P.clients.at? b.af b.host = some d := by
      refine ⟨?_⟩
      intro b c hbc haf hhost
      rw [haf, hhost]
      exact hbc haf.symm hhost.symm
    have hpairwise : (hints.filterMap P.usable).Pairwise fun b c => b.af = c.af →
        b.host = c.host → ∃ d, P.clients.at? b.af b.host = some d :=
      hclean.pairwise.imp fun hbc haf hhost => ⟨_, (hbc haf hhost).1⟩
    intro b hb c hc hnone haf hhost
    by_contra hne
    obtain ⟨d, hd⟩ := hpairwise.forall hb hc (Ne.symm hne) haf.symm hhost.symm
    cases hnone.symm.trans hd
  have hself : List.Forall₂ (fun b c => b = c) (hints.filterMap P.usable) clients := by
    have hmem := (List.forall₂_and_left _ _).mpr ⟨fun b hb => hb, h.tried⟩
    apply hmem.imp
    rintro b c ⟨hb, hc⟩
    cases hold : P.clients.at? b.af b.host with
    | some d =>
      obtain rfl := Option.some.inj ((h.kept _ _ _ hold).symm.trans hc)
      exact (hclean.ports b hb d hold).symm
    | none =>
      obtain ⟨haf, hhost, -, hmem⟩ := h.made _ _ _ hold hc
      exact (hunique b hb c hmem hold haf hhost).symm
  rw [List.forall₂_eq_eq_eq] at hself
  exact hself.symm

theorem mem_reached {ends : ℕ → BrokerClient → ConnectEnd} {c : BrokerClient} :
    c ∈ Q.reached ends clients ↔ ∃ i : ℕ, clients[i]? = some c ∧
      (Q.session c).tryEnd Q.clock (ends i c) = .client := by
  simp only [reached, List.mem_map, List.mem_filter, List.mem_zipIdx_iff_getElem?,
    decide_eq_true_eq]
  constructor
  · rintro ⟨⟨c', i⟩, ⟨hi, hend⟩, rfl⟩
    exact ⟨i, hi, hend⟩
  · rintro ⟨i, hi, hend⟩
    exact ⟨(c, i), ⟨hi, hend⟩, rfl⟩

theorem Clean.faithful (hclean : Clean P hints) (h : Tries P (hints.filterMap P.usable) Q clients)
    (ends : ℕ → BrokerClient → ConnectEnd) : Faithful P hints ends (Q.reached ends clients) := by
  have heq := h.eq_of_clean hclean
  refine ⟨?_, ?_, ?_⟩
  · have hpairwise := hclean.pairwise
    rw [← heq, ← List.zipIdx_map_fst 0 clients, List.pairwise_map] at hpairwise
    rw [reached, List.Nodup, List.pairwise_map, List.pairwise_filter]
    apply hpairwise.imp
    intro x y hxy hx hy hsame
    have hlim := hxy (congrArg BrokerClient.af hsame) (congrArg BrokerClient.host hsame)
    have hnone : (Q.session x.1).tryClient Q.clock = .over .noClient := by
      rw [h.session x.1 hlim.1, h.clock]
      exact hlim.2
    rw [tryEnd_limited hnone] at hx
    cases of_decide_eq_true hx
  · intro c hc
    obtain ⟨i, hi, -⟩ := mem_reached.mp hc
    apply exists_hint_of_usable
    rw [← heq]
    exact List.mem_of_getElem? hi
  · intro b hb hnot haccepts
    rw [← heq] at hb
    obtain ⟨i, hi⟩ := List.getElem?_of_mem hb
    obtain ⟨p, hp⟩ := haccepts i
    apply mem_reached.mpr ⟨i, hi, _⟩
    rw [hp, tryEnd_ok]
    intro hnone
    apply hnot
    obtain ⟨b', hb', hat⟩ := mem_of_forall₂ h.tried (List.mem_of_getElem? hi)
    rw [← heq] at hb'
    cases hold : P.clients.at? b'.af b'.host with
    | some d =>
      obtain rfl := Option.some.inj ((h.kept _ _ _ hold).symm.trans hat)
      obtain rfl := hclean.ports b' (heq ▸ hb') d hold
      exact ⟨hold, by rw [← h.session d hold, ← h.clock]; exact hnone⟩
    | none =>
      obtain ⟨-, -, hnew, -⟩ := h.made _ _ _ hold hat
      rw [hnew, tryClient_init] at hnone
      cases hnone

def allReached : ℕ → BrokerClient → ConnectEnd := fun _ _ => .ok 0

theorem Tries.placed (h : Tries P (hints.filterMap P.usable) Q clients)
    (hplaced : P.clients.Placed) : Q.clients.Placed := by
  intro af host c hc
  cases hold : P.clients.at? af host with
  | some d =>
    obtain rfl := Option.some.inj ((h.kept _ _ _ hold).symm.trans hc)
    exact hplaced af host d hold
  | none =>
    obtain ⟨haf, hhost, -⟩ := h.made _ _ _ hold hc
    exact ⟨haf, hhost⟩

theorem Tries.clean (h : Tries P (hints.filterMap P.usable) Q clients)
    (hplaced : P.clients.Placed)
    (hfaithful : Faithful P hints allReached (Q.reached allReached clients)) : Clean P hints := by
  have hports : ∀ b ∈ hints.filterMap P.usable, ∀ c,
      P.clients.at? b.af b.host = some c → c = b := by
    intro b hb c hc
    by_contra hne
    have hin := hfaithful.represented b hb
      (fun hlim => hne (Option.some.inj (hc.symm.trans hlim.1))) fun _ => ⟨0, rfl⟩
    obtain ⟨i, hi, -⟩ := mem_reached.mp hin
    obtain ⟨b', -, hat⟩ := mem_of_forall₂ h.tried (List.mem_of_getElem? hi)
    obtain ⟨haf, hhost⟩ := h.placed hplaced _ _ _ hat
    rw [← haf, ← hhost, h.kept _ _ _ hc] at hat
    exact hne (Option.some.inj hat)
  refine ⟨hports, ?_⟩
  have hdistinct : (clients.zipIdx.map Prod.fst).Pairwise fun c d =>
      decide ((Q.session c).tryEnd Q.clock (.ok 0) = .client) = true →
        decide ((Q.session d).tryEnd Q.clock (.ok 0) = .client) = true → c ≠ d := by
    have hnodup := hfaithful.distinct
    rw [reached, List.Nodup, List.pairwise_map, List.pairwise_filter] at hnodup
    rw [List.pairwise_map]
    exact hnodup
  rw [List.zipIdx_map_fst] at hdistinct
  have hmem := (List.forall₂_and_left _ _).mpr ⟨fun b hb => hb, h.tried⟩
  apply pairwise_of_forall₂ hmem hdistinct
  rintro b b' c c' ⟨hb, hc⟩ ⟨-, hc'⟩ hne haf hhost
  rw [haf, hhost] at hc
  obtain rfl := Option.some.inj (hc.symm.trans hc')
  -- one client is tried twice, so both attempts fail
  have hnone : (Q.session c).tryClient Q.clock = .over .noClient := by
    by_contra hsome
    have hend := decide_eq_true ((tryEnd_ok (Q.session c) Q.clock 0).mpr hsome)
    exact hne hend hend rfl
  rw [← haf, ← hhost] at hc
  cases hold : P.clients.at? b.af b.host with
  | some d =>
    obtain rfl := Option.some.inj ((h.kept _ _ _ hold).symm.trans hc)
    obtain rfl := hports b hb d hold
    exact ⟨hold, by rw [← h.session d hold, ← h.clock]; exact hnone⟩
  | none =>
    obtain ⟨-, -, hnew, -⟩ := h.made _ _ _ hold hc
    rw [hnew, tryClient_init] at hnone
    cases hnone

/-- However the connects end, the clients of the hints are the right ones: exactly if the table has
no client with another port for a hint, and no two hints have one place. -/
theorem resolve_faithful_iff (hplaced : P.clients.Placed) (hcovers : P.clients.Covers P.supports) :
    (∀ ends, ∃ Q out, P.resolveHintClients hints ends = .ok (Q, out) ∧
      Faithful P hints ends out) ↔ Clean P hints := by
  obtain ⟨Q, clients, htry, htries⟩ := toTry_spec hints hcovers
  have hresolve : ∀ ends, P.resolveHintClients hints ends =
      .ok (Q, Q.reached ends clients) := by
    intro ends
    rw [resolveHintClients, htry]
    rfl
  constructor
  · intro hall
    obtain ⟨Q', out, hout, hfaithful⟩ := hall allReached
    rw [hresolve] at hout
    cases hout
    exact htries.clean hplaced hfaithful
  · intro hclean ends
    exact ⟨Q, _, hresolve ends, hclean.faithful htries ends⟩

def brokerless : Pool := { pooled [] with supports := fun af => af = 2 ∨ af = 10 }

theorem at?_brokerless (af : ℕ) (host : String) : brokerless.clients.at? af host = none := by
  simp only [brokerless, pooled, List.foldl_nil]
  rw [ClientTable.at?_set, ClientTable.at?_set]
  split_ifs <;> rfl

theorem placed_brokerless : brokerless.clients.Placed := by
  intro af host c hc
  cases (at?_brokerless af host).symm.trans hc

theorem covers_brokerless : brokerless.clients.Covers brokerless.supports := by
  intro af haf
  rcases of_decide_eq_true haf with rfl | rfl
  · exact ⟨_, rfl⟩
  · exact ⟨_, rfl⟩

/-- Hints for brokers on two hosts. -/
theorem resolve_faithful_hosts : ∃ Q out, brokerless.resolveHintClients
      [⟨some 2, some "x", some 1883⟩, ⟨some 10, some "y", some 8883⟩] allReached = .ok (Q, out) ∧
    Faithful brokerless [⟨some 2, some "x", some 1883⟩, ⟨some 10, some "y", some 8883⟩] allReached
      out := by
  have hclean : Clean brokerless
      [⟨some 2, some "x", some 1883⟩, ⟨some 10, some "y", some 8883⟩] := by
    have husable : [⟨some 2, some "x", some 1883⟩, ⟨some 10, some "y", some 8883⟩].filterMap
        brokerless.usable = [⟨2, "x", 1883⟩, ⟨10, "y", 8883⟩] := by decide +kernel
    constructor
    · intro b _ c hc
      cases (at?_brokerless _ _).symm.trans hc
    · rw [husable, List.pairwise_pair]
      intro haf
      cases haf
  exact (resolve_faithful_iff placed_brokerless covers_brokerless).mpr hclean allReached

/-- Of two brokers on one host that both accept the connection, the second is not found and the
first is found twice. -/
theorem not_resolve_faithful : ¬ ∀ (P : Pool) (hints : List HintBroker)
    (ends : ℕ → BrokerClient → ConnectEnd), P.clients.Placed → P.clients.Covers P.supports →
      ∃ Q out, P.resolveHintClients hints ends = .ok (Q, out) ∧ Faithful P hints ends out := by
  intro hallFaithful
  obtain ⟨Q, out, hout, hfaithful⟩ := hallFaithful brokerless
    [⟨some 2, some "x", some 1883⟩, ⟨some 2, some "x", some 8883⟩] allReached placed_brokerless
    covers_brokerless
  have hfound : (brokerless.resolveHintClients
      [⟨some 2, some "x", some 1883⟩, ⟨some 2, some "x", some 8883⟩] allReached).toOption.map
        Prod.snd = some [⟨2, "x", 1883⟩, ⟨2, "x", 1883⟩] := by
    decide +kernel
  rw [hout] at hfound
  obtain rfl : out = [⟨2, "x", 1883⟩, ⟨2, "x", 1883⟩] := Option.some.inj hfound
  exact absurd hfaithful.distinct (by decide)

end Pool

end Sidewire
