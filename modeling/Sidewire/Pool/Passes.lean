import Sidewire.Lib.Machine
import Sidewire.Pool.Steps
import Sidewire.Session.Closing

/-! # Passes that complete

A pass iterates over dictionaries that `ensure_client` may change while the pass
waits. It completes exactly if no client is made in the dictionary that it
stands in: then it comes to every client that there was at its start, and the
idle closer and `Router.close` do what they are for.
-/

namespace Sidewire

def PassAt.cursor? : PassAt → Option Cursor
  | .next c | .closing c _ _ => some c
  | .stopping | .done | .raised _ => none

def PassAt.isEnd : PassAt → Bool
  | .done | .raised _ => true
  | .stopping | .next _ | .closing .. => false

def PoolAct.startsPass : PoolAct → Bool
  | .wake | .closeIdleClients | .close => true
  | _ => false

namespace Pool

open Session

variable {pipelined : Bool} {P₀ P P₁ P' Q : Pool} {a a₀ b : PoolAct} {as : List PoolAct}
  {client : BrokerClient} {j : ℕ} {place : PassAt} {sweep : Sweep} {visited : List BrokerClient}
  {table : PyDict String BrokerClient} {s t : Session}

def Ended (P : Pool) (j : ℕ) : Prop := ∃ pass ∈ P.passes[j]?, pass.place.isEnd = true

instance (P : Pool) (j : ℕ) : Decidable (P.Ended j) :=
  inferInstanceAs (Decidable (∃ pass ∈ P.passes[j]?, _))

def Grows (P : Pool) (j : ℕ) : PoolAct → Prop
  | .ensureClient af host _ =>
    (∃ pass ∈ P.passes[j]?, ∃ c ∈ pass.place.cursor?, c.af = af) ∧ P.supports af = true ∧
      ∃ table ∈ P.clients.get? af, table.get? host = none
  | _ => False

instance (P : Pool) (j : ℕ) (a : PoolAct) : Decidable (P.Grows j a) :=
  match a with
  | .ensureClient .. => inferInstanceAs (Decidable (_ ∧ _ ∧ _))
  | .tick _ | .session .. | .pipe .. | .tryClient .. | .connected .. | .send _ | .closePipe _
  | .startLoop | .wake | .closeIdleClients | .close | .stopped .. | .advance _ | .goesOn .. =>
    isFalse id

/-- The exception with which the end of an await ends the `close` that the pass waits for. -/
def closeRaises (pipelined : Bool) (P : Pool) (j : ℕ) (r : Reply) (atOnce : Bool) :
    Option (Sweep × AwaitExc) :=
  match P.passes[j]? with
  | some ⟨sweep, .closing _ client k, _⟩ =>
    match (P.session client).resumeCall pipelined k r atOnce with
    | some s =>
      match s.calls[k]? with
      | some (.over (.failed exc)) => some (sweep, exc)
      | _ => none
    | none => none
  | _ => none

/-- What is assumed of the steps while the pass is under way: `client.close()` raises nothing but
what an idle pass catches, nobody stops the idle closer, and during `Router.close` nobody connects
the clients it is to close. -/
def Assumed (pipelined : Bool) (P₀ : Pool) (j : ℕ) (P : Pool) : PoolAct → Prop
  | .goesOn i r atOnce => i = j → ∀ x ∈ P.closeRaises pipelined j r atOnce, ¬ Uncaught x.1 x.2
  | .stopped _ _ => P.loop ≠ .passing j
  | .tryClient _ client => (∃ pass ∈ P.passes[j]?, pass.sweep = .shutdown) → ¬ P₀.Has client
  | _ => True

instance (P₀ : Pool) (j : ℕ) (P : Pool) (a : PoolAct) :
    Decidable (Assumed pipelined P₀ j P a) :=
  match a with
  | .goesOn .. => inferInstanceAs (Decidable (_ → ∀ x ∈ _, _))
  | .stopped .. => inferInstanceAs (Decidable (_ ≠ _))
  | .tryClient .. => inferInstanceAs (Decidable (_ → ¬ _))
  | .tick _ | .ensureClient .. | .session .. | .pipe .. | .connected .. | .send _ | .closePipe _
  | .startLoop | .wake | .closeIdleClients | .close | .advance _ => isTrue trivial

/-- The pass raises nothing and has come to every client that there was; the idle closer goes on
to sleep, and `Router.close` leaves the clients with no running dispatcher and no pipe. -/
def Completes (P₀ P : Pool) (j : ℕ) : Prop :=
  ∃ sweep visited, P.passes[j]? = some ⟨sweep, .done, visited⟩ ∧
    (∀ client, P₀.Has client → client ∈ visited) ∧
    match sweep with
    | .loop _ => P.loop = .sleeping
    | .manual _ => True
    | .shutdown => ∀ client, P₀.Has client →
      (∀ x ∈ (P.session client).dispatchers, x.stage = .finished) ∧
        (P.session client).conn.pipe = none

structure Wider (P Q : Pool) : Prop where
  keys : Q.clients.keys = P.clients.keys
  tables : ∀ af table, P.clients.get? af = some table → ∃ table', Q.clients.get? af = some table' ∧
    table.keys.length ≤ table'.keys.length ∧
    ∀ host client, table.get? host = some client → table'.get? host = some client

theorem Wider.of_eq (h : Q.clients = P.clients) : Wider P Q where
  keys := by rw [h]
  tables af table htable := ⟨table, by rwa [h], le_rfl, fun _ _ => id⟩

theorem Wider.trans {R : Pool} (h : Wider P Q) (h' : Wider Q R) : Wider P R where
  keys := h'.keys.trans h.keys
  tables := by
    intro af table htable
    obtain ⟨table', htable', hle, hkeeps⟩ := h.tables af table htable
    obtain ⟨table'', htable'', hle', hkeeps'⟩ := h'.tables af table' htable'
    exact ⟨table'', htable'', hle.trans hle', fun host client hc => hkeeps' host client
      (hkeeps host client hc)⟩

theorem Wider.has (h : Wider P Q) (hhas : P.Has client) : Q.Has client := by
  obtain ⟨table, htable, hclient⟩ := hhas
  obtain ⟨table', htable', -, hkeeps⟩ := h.tables _ table htable
  exact ⟨table', htable', hkeeps _ _ hclient⟩

theorem get?_clients_made (P : Pool) (client : BrokerClient)
    (table : PyDict String BrokerClient) (af : ℕ) :
    (P.made client table).clients.get? af =
      if af = client.af then some (table.set client.host client) else P.clients.get? af :=
  PyDict.get?_set ..

theorem Makes.length_keys (h : Makes P client table) :
    (table.set client.host client).keys.length = table.keys.length + 1 := by
  rw [PyDict.keys_set_of_not_mem (PyDict.get?_eq_none_iff.mp h.free), List.length_append]
  rfl

theorem Makes.wider (h : Makes P client table) : Wider P (P.made client table) where
  keys := PyDict.keys_set_of_mem (PyDict.mem_keys_iff.mpr ⟨table, h.family⟩)
  tables := by
    intro af table' htable'
    rw [get?_clients_made]
    split_ifs with haf
    · subst haf
      cases h.family.symm.trans htable'
      refine ⟨_, rfl, by rw [h.length_keys]; omega, ?_⟩
      intro host client' hclient'
      rw [PyDict.get?_set]
      split_ifs with hhost
      · cases h.free.symm.trans (hhost ▸ hclient')
      · exact hclient'
    · exact ⟨table', htable', le_rfl, fun _ _ => id⟩

theorem Move.wider (h : Move pipelined P a Q) : Wider P Q := by
  rcases h.clients with heq | ⟨client, table, -, hmakes, rfl⟩
  · exact .of_eq heq
  · exact hmakes.wider

def Tracks (P : Pool) (j : ℕ) : Prop :=
  ∃ pass, P.passes[j]? = some pass ∧ ∀ c ∈ pass.place.cursor?, ∃ table,
    P.clients.get? c.af = some table ∧ c.hosts.size ≤ table.keys.length

def Outgrown (P : Pool) (j : ℕ) : Prop :=
  ∃ pass, P.passes[j]? = some pass ∧ ((∃ c ∈ pass.place.cursor?, ∃ table,
    P.clients.get? c.af = some table ∧ c.hosts.size < table.keys.length) ∨
    ∃ exc, pass.place = .raised exc)

theorem enter_cons {af : ℕ} (h : P.clients.get? af = some table) (afs : List ℕ) :
    P.enter (af :: afs) = .next ⟨af, table.iter, afs⟩ := by
  simp only [enter, h]

theorem enter_cursor {afs : List ℕ} {c : Cursor} (hc : c ∈ (P.enter afs).cursor?) :
    ∃ af rest table, afs = af :: rest ∧ P.clients.get? af = some table ∧
      c = ⟨af, table.iter, rest⟩ := by
  cases afs with
  | nil => cases hc
  | cons af rest =>
    cases htable : P.clients.get? af with
    | none =>
      simp only [enter, htable] at hc
      cases hc
    | some table =>
      rw [enter_cons htable] at hc
      cases hc
      exact ⟨af, rest, table, rfl, htable, rfl⟩

theorem Tracks.cursor {pass : Pass} {c : Cursor} (h : P.Tracks j) (hpass : P.passes[j]? = some pass)
    (hc : c ∈ pass.place.cursor?) : ∃ table, P.clients.get? c.af = some table ∧
      c.hosts.size ≤ table.keys.length := by
  obtain ⟨pass', hpass', hcursor⟩ := h
  cases hpass.symm.trans hpass'
  exact hcursor c hc

theorem Tracks.step (h : P.Tracks j) (hstep : P.step pipelined a = some Q) : Q.Tracks j := by
  have hmove := step_move hstep
  have hwider := hmove.wider
  have hj : j < P.passes.length := by
    obtain ⟨pass, hpass, -⟩ := h
    exact (List.getElem?_eq_some_iff.mp hpass).1
  have hcursor : ∀ {pass : Pass} {c : Cursor}, P.passes[j]? = some pass →
      c ∈ pass.place.cursor? → ∃ table, Q.clients.get? c.af = some table ∧
        c.hosts.size ≤ table.keys.length := by
    intro pass c hpass hc
    obtain ⟨table, htable, hle⟩ := h.cursor hpass hc
    obtain ⟨table', htable', hle', -⟩ := hwider.tables _ _ htable
    exact ⟨table', htable', hle.trans hle'⟩
  have henter : ∀ {afs : List ℕ} {c : Cursor}, c ∈ (P.enter afs).cursor? →
      ∃ table, Q.clients.get? c.af = some table ∧ c.hosts.size ≤ table.keys.length := by
    intro afs c hc
    obtain ⟨af, rest, table, -, htable, rfl⟩ := enter_cursor hc
    obtain ⟨table', htable', hle, -⟩ := hwider.tables _ _ htable
    exact ⟨table', htable', hle⟩
  cases hmove.pass hj with
  | same hsame =>
    obtain ⟨pass, hpass, -⟩ := id h
    exact ⟨pass, hsame.trans hpass, fun c hc => hcursor hpass hc⟩
  | entered _ hQ => exact ⟨_, hQ, fun c hc => henter hc⟩
  | grown _ _ _ hQ => exact ⟨_, hQ, fun c hc => by cases hc⟩
  | family _ _ _ _ hQ => exact ⟨_, hQ, fun c hc => henter hc⟩
  | @took _ c _ _ _ _ _ place hpass _ _ _ _ _ hQ hplace =>
    refine ⟨_, hQ, ?_⟩
    intro c' hc'
    have hold := hcursor (c := c) hpass rfl
    rcases hplace with ⟨rfl, -⟩ | rfl <;> cases hc' <;> exact hold
  | @ended _ c _ _ _ _ _ _ _ place hpass _ _ _ _ hQ hplace =>
    refine ⟨_, hQ, ?_⟩
    intro c' hc'
    rcases hplace with ⟨rfl, -⟩ | ⟨exc, rfl, -⟩
    · cases hc'
      exact hcursor hpass rfl
    · cases hc'

theorem Outgrown.step (h : P.Outgrown j) (hstep : P.step pipelined a = some Q) :
    Q.Outgrown j := by
  obtain ⟨pass, hpass, hgrown⟩ := h
  have hmove := step_move hstep
  have hkept : ∀ {c : Cursor}, c ∈ pass.place.cursor? → ∃ table,
      Q.clients.get? c.af = some table ∧ c.hosts.size < table.keys.length := by
    intro c hc
    rcases hgrown with ⟨c', hc', table, htable, hlt⟩ | ⟨exc, hraised⟩
    · cases (Option.mem_def.mp hc').symm.trans hc
      obtain ⟨table', htable', hle, -⟩ := hmove.wider.tables _ _ htable
      exact ⟨table', htable', hlt.trans_le hle⟩
    · rw [hraised] at hc
      cases hc
  have hsize : ∀ {c : Cursor} {table : PyDict String BrokerClient}, pass.place = .next c →
      P.clients.get? c.af = some table → table.keys.length ≠ c.hosts.size := by
    intro c table hnext htable
    rcases hgrown with ⟨c', hc', table', htable', hlt⟩ | ⟨exc, hraised⟩
    · rw [hnext] at hc'
      cases hc'
      cases htable.symm.trans htable'
      exact hlt.ne'
    · cases hnext.symm.trans hraised
  cases hmove.pass (List.getElem?_eq_some_iff.mp hpass).1 with
  | same hsame =>
    refine ⟨pass, hsame.trans hpass, ?_⟩
    rcases hgrown with ⟨c, hc, -⟩ | hraised
    · exact Or.inl ⟨c, hc, hkept hc⟩
    · exact Or.inr hraised
  | entered hstopping _ =>
    cases hpass.symm.trans hstopping
    rcases hgrown with ⟨c, hc, -⟩ | ⟨exc, hraised⟩
    · cases hc
    · cases hraised
  | grown _ _ _ hQ => exact ⟨_, hQ, Or.inr ⟨_, rfl⟩⟩
  | family hnext htable hlength _ _ =>
    cases hpass.symm.trans hnext
    exact absurd hlength (hsize rfl htable)
  | took hnext htable hlength _ _ _ _ _ =>
    cases hpass.symm.trans hnext
    exact absurd hlength (hsize rfl htable)
  | ended hclosing _ _ _ _ hQ hplace =>
    cases hpass.symm.trans hclosing
    rcases hplace with ⟨rfl, -⟩ | ⟨exc, rfl, -⟩
    · exact ⟨_, hQ, Or.inl ⟨_, rfl, hkept rfl⟩⟩
    · exact ⟨_, hQ, Or.inr ⟨exc, rfl⟩⟩

theorem Tracks.grows (h : P.Tracks j) (ha : P.Grows j a) (hstep : P.step pipelined a = some Q) :
    Q.Outgrown j := by
  cases a with
  | ensureClient af host port =>
    obtain ⟨⟨pass, hpass, c, hc, rfl⟩, hsupports, table, hfamily, hfree⟩ := ha
    have hmakes : Makes P ⟨c.af, host, port⟩ table := ⟨hsupports, hfamily, hfree⟩
    have hQ : Q = P.made ⟨c.af, host, port⟩ table := by
      unfold Pool.step at hstep
      split at hstep
      · exact (Option.some.inj hstep).symm.trans hmakes.ensureClient_eq
      · cases hstep
    obtain ⟨table', htable', hle⟩ := h.cursor hpass hc
    cases htable'.symm.trans hfamily
    refine ⟨pass, hQ ▸ hpass, Or.inl ⟨c, hc, table.set host ⟨c.af, host, port⟩, ?_, ?_⟩⟩
    · rw [hQ, get?_clients_made, if_pos rfl]
    · exact (Nat.lt_succ_of_le hle).trans_eq hmakes.length_keys.symm
  | _ => exact ha.elim

theorem Outgrown.not_completes (h : P.Outgrown j) : ¬ Completes P₀ P j := by
  rintro ⟨sweep, visited, hdone, -⟩
  obtain ⟨pass, hpass, hgrown⟩ := h
  cases hpass.symm.trans hdone
  rcases hgrown with ⟨c, hc, -⟩ | ⟨exc, hraised⟩
  · cases hc
  · cases hraised

structure Fits (P : Pool) (place : PassAt) : Prop where
  raised : ∀ exc, place ≠ .raised exc
  size : ∀ c ∈ place.cursor?, ∃ table, P.clients.get? c.af = some table ∧
    table.keys.length = c.hosts.size
  afs : ∀ c ∈ place.cursor?, ∀ af ∈ c.afs, af ∈ P.clients.keys

def Pending (place : PassAt) (client : BrokerClient) : Prop :=
  place = .stopping ∨ ∃ c ∈ place.cursor?,
    client.af = c.af ∧ client.host ∈ c.hosts.todo ∨ client.af ∈ c.afs

structure Sweeping (P₀ P : Pool) (j : ℕ) (sweep : Sweep) (place : PassAt)
    (visited : List BrokerClient) : Prop where
  pass : P.passes[j]? = some ⟨sweep, place, visited⟩
  wider : Wider P₀ P
  fits : Fits P place
  covers : ∀ client, P₀.Has client → client ∈ visited ∨ Pending place client
  loop : ∀ now, sweep = .loop now → place.isEnd = false → P.loop = .passing j
  calm : sweep = .shutdown → ∀ client, P₀.Has client → (P.session client).Calm
  rests : sweep = .shutdown → ∀ client ∈ visited, P₀.Has client →
    (∀ c k, place ≠ .closing c client k) → (P.session client).Rests

theorem Fits.enter {afs : List ℕ} (h : ∀ af ∈ afs, af ∈ P.clients.keys) :
    Fits P (P.enter afs) := by
  cases afs with
  | nil => exact ⟨by simp [Pool.enter], by simp [Pool.enter, PassAt.cursor?],
      by simp [Pool.enter, PassAt.cursor?]⟩
  | cons af afs =>
    obtain ⟨table, htable⟩ := PyDict.mem_keys_iff.mp (h af (List.mem_cons_self ..))
    rw [enter_cons htable]
    refine ⟨by simp, ?_, ?_⟩
    · intro c hc
      cases hc
      exact ⟨table, htable, rfl⟩
    · intro c hc af' haf'
      cases hc
      exact h af' (List.mem_cons_of_mem _ haf')

theorem Fits.congr (h : Fits P place) {place' : PassAt} (hclients : Q.clients = P.clients)
    (hraised : ∀ exc, place' ≠ .raised exc)
    (hcursor : ∀ c' ∈ place'.cursor?, ∃ c ∈ place.cursor?, c'.af = c.af ∧ c'.afs = c.afs ∧
      c'.hosts.size = c.hosts.size) : Fits Q place' := by
  refine ⟨hraised, ?_, ?_⟩
  · intro c' hc'
    obtain ⟨c, hc, haf, -, hsize⟩ := hcursor c' hc'
    rw [hclients, haf, hsize]
    exact h.size c hc
  · intro c' hc'
    obtain ⟨c, hc, -, hafs, -⟩ := hcursor c' hc'
    rw [hclients, hafs]
    exact h.afs c hc

theorem Pending.enter {afs : List ℕ} (hafs : ∀ af ∈ afs, af ∈ P.clients.keys)
    (hhas : P.Has client) (haf : client.af ∈ afs) : Pending (P.enter afs) client := by
  cases afs with
  | nil => cases haf
  | cons af afs =>
    obtain ⟨table, htable⟩ := PyDict.mem_keys_iff.mp (hafs af (List.mem_cons_self ..))
    rw [enter_cons htable]
    rcases List.mem_cons.mp haf with heq | hrest
    · obtain ⟨table', htable', hclient⟩ := hhas
      cases (heq ▸ htable).symm.trans htable'
      exact Or.inr ⟨_, rfl, Or.inl ⟨heq, PyDict.mem_keys_iff.mpr ⟨client, hclient⟩⟩⟩
    · exact Or.inr ⟨_, rfl, Or.inr hrest⟩

theorem SessionMove.calm (h : SessionMove pipelined P a client t) (hhas : P.Has client)
    (htry : ∀ p, a ≠ .tryClient p client) (hcalm : (P.session client).Calm) :
    t.Calm ∧ ((P.session client).Rests → t.Rests) := by
  cases h with
  | same => exact ⟨hcalm, id⟩
  | own _ hallowed hstep =>
    apply hcalm.step hstep
    · rintro rfl
      cases hallowed
    · rintro now rfl
      cases hallowed
  | tried ha => exact absurd ha (htry _)
  | sent =>
    have hstep : (P.session client).step pipelined (.queueMsg P.clock) =
      some { P.session client with lastSend := some P.clock } := rfl
    exact hcalm.step hstep (by simp) (by simp)
  | @swept _ sweep _ _ =>
    obtain hsame | ⟨b, hb, hstep⟩ := sweepClient_step pipelined P sweep client
    · rw [hsame]
      exact ⟨hcalm, id⟩
    · rcases hb with ⟨now, rfl⟩ | rfl <;> exact hcalm.step hstep (by simp) (by simp)
  | closes _ _ _ hs => exact hcalm.callStep (resumeCall_callStep hs)
  | made hnot => exact absurd hhas hnot

theorem Sweeping.made {made : BrokerClient} (h : Sweeping P₀ P j sweep place visited)
    (hmakes : Makes P made table) (hgrows : ∀ c ∈ place.cursor?, c.af ≠ made.af) :
    Sweeping P₀ (P.made made table) j sweep place visited := by
  have hsession : ∀ client, P₀.Has client →
      (P.made made table).session client = P.session client := by
    intro client hhas
    apply Function.update_of_ne
    rintro rfl
    exact hmakes.not_has (h.wider.has hhas)
  refine ⟨h.pass, h.wider.trans hmakes.wider, ⟨h.fits.raised, ?_, ?_⟩, h.covers, h.loop, ?_, ?_⟩
  · intro c hc
    rw [get?_clients_made, if_neg (hgrows c hc)]
    exact h.fits.size c hc
  · rw [hmakes.wider.keys]
    exact h.fits.afs
  · intro hsweep client hhas
    rw [hsession client hhas]
    exact h.calm hsweep client hhas
  · intro hsweep client hvisited hhas hplace
    rw [hsession client hhas]
    exact h.rests hsweep client hvisited hhas hplace

theorem Sweeping.moved (h : Sweeping P₀ P j sweep place visited)
    (hclients : Q.clients = P.clients) (hassumed : Assumed pipelined P₀ j P a)
    (hmove : PassMove pipelined P a j Q) :
    ∃ place' visited', Q.passes[j]? = some ⟨sweep, place', visited'⟩ ∧ Fits Q place' ∧
      (∀ client, P₀.Has client → client ∈ visited' ∨ Pending place' client) ∧
      (sweep = .shutdown → ∀ client ∈ visited', P₀.Has client →
        (∀ c k, place' ≠ .closing c client k) →
        (client ∈ visited ∧ (∀ c k, place ≠ .closing c client k)) ∨ (Q.session client).Rests) := by
  cases hmove with
  | same hsame =>
    refine ⟨place, visited, hsame.trans h.pass, ?_, h.covers, ?_⟩
    · exact h.fits.congr hclients h.fits.raised fun c hc => ⟨c, hc, rfl, rfl, rfl⟩
    · intro _ client hvisited _ hplace
      exact Or.inl ⟨hvisited, hplace⟩
  | entered hstopping hQ =>
    cases h.pass.symm.trans hstopping
    refine ⟨_, _, hQ, ?_, ?_, ?_⟩
    · rw [← enter_congr hclients, ← hclients]
      exact Fits.enter fun _ haf => haf
    · intro client hhas
      obtain ⟨table, htable, -⟩ := id (h.wider.has hhas)
      exact Or.inr (.enter (fun _ haf => haf) (h.wider.has hhas)
        (PyDict.mem_keys_iff.mpr ⟨table, htable⟩))
    · intro _ client hvisited _ _
      exact Or.inl ⟨hvisited, by simp⟩
  | grown hnext htable hsize _ =>
    cases h.pass.symm.trans hnext
    obtain ⟨table', htable', hsize'⟩ := h.fits.size _ rfl
    cases htable.symm.trans htable'
    exact absurd hsize' hsize
  | @family _ c _ _ hnext htable _ htodo hQ =>
    cases h.pass.symm.trans hnext
    have hafs := h.fits.afs c rfl
    refine ⟨_, _, hQ, ?_, ?_, ?_⟩
    · rw [← enter_congr hclients]
      exact Fits.enter (by rw [hclients]; exact hafs)
    · intro client hhas
      rcases h.covers client hhas with hvisited | hstopping | ⟨c', hc', ⟨-, hmem⟩ | hafs'⟩
      · exact Or.inl hvisited
      · cases hstopping
      · cases hc'
        rw [htodo] at hmem
        cases hmem
      · cases hc'
        exact Or.inr (.enter hafs (h.wider.has hhas) hafs')
    · intro _ client hvisited _ _
      exact Or.inl ⟨hvisited, by simp⟩
  | @took _ c _ table host todo taken place' hnext htable hsize htodo htaken hsession hQ hplace =>
    cases h.pass.symm.trans hnext
    have hcursor : place'.cursor? = some { c with hosts := ⟨c.hosts.size, todo⟩ } := by
      rcases hplace with ⟨rfl, -⟩ | rfl <;> rfl
    refine ⟨place', _, hQ, ?_, ?_, ?_⟩
    · apply h.fits.congr hclients
      · rcases hplace with ⟨rfl, -⟩ | rfl <;> simp
      · intro c' hc'
        cases hcursor.symm.trans hc'
        exact ⟨c, rfl, rfl, rfl, rfl⟩
    · intro client hhas
      rcases h.covers client hhas with hvisited | hstopping | ⟨c', hc', ⟨haf, hmem⟩ | hafs⟩
      · exact Or.inl (List.mem_append_left _ hvisited)
      · cases hstopping
      · cases hc'
        rw [htodo] at hmem
        rcases List.mem_cons.mp hmem with heq | hrest
        · obtain ⟨table', htable', hclient⟩ := h.wider.has hhas
          cases (haf ▸ htable').symm.trans htable
          cases (heq ▸ hclient).symm.trans htaken
          exact Or.inl (List.mem_append_right _ (List.mem_singleton_self _))
        · exact Or.inr (Or.inr ⟨_, hcursor, Or.inl ⟨haf, hrest⟩⟩)
      · cases hc'
        exact Or.inr (Or.inr ⟨_, hcursor, Or.inr hafs⟩)
    · rintro rfl client hvisited _ hnot
      rcases List.mem_append.mp hvisited with hvisited | htaking
      · exact Or.inl ⟨hvisited, by simp⟩
      · obtain rfl := List.mem_singleton.mp htaking
        rcases hplace with ⟨-, hover⟩ | hclosing
        · -- `Router.close` waits for the `close` of every client
          obtain ⟨r, hr⟩ := hover (.cancelling .plain (P.session client).dispatcherTask) (by
            rw [hsession]
            simp [sweepClient, Session.close, Session.start])
          cases hr
        · exact absurd hclosing (hnot _ _)
  | @ended _ c closing k _ r atOnce s res place' hclosing ha hs hres hsession hQ hplace =>
    cases h.pass.symm.trans hclosing
    have hcaught : ∀ exc, res = .failed exc → ¬ Uncaught sweep exc := by
      rintro exc rfl
      rcases ha with rfl | ⟨hloop, i, b, rfl⟩
      · exact hassumed rfl (sweep, exc) (by simp [closeRaises, hclosing, hs, hres])
      · exact absurd hloop hassumed
    obtain ⟨rfl, -⟩ | ⟨exc, -, hexc, hun⟩ := hplace
    · refine ⟨_, _, hQ, ?_, ?_, ?_⟩
      · apply h.fits.congr hclients (by simp)
        intro c' hc'
        exact ⟨c', hc', rfl, rfl, rfl⟩
      · intro client hhas
        rcases h.covers client hhas with hvisited | hstopping | hpending
        · exact Or.inl hvisited
        · cases hstopping
        · exact Or.inr (Or.inr hpending)
      · rintro rfl client hvisited hhas _
        by_cases heq : client = closing
        · subst heq
          apply Or.inr
          rw [hsession]
          apply (h.calm rfl client hhas).closes (resumeCall_callStep hs) hres
          rintro exc rfl
          exact hcaught exc rfl (by simp [Uncaught, Sweep.isIdle])
        · refine Or.inl ⟨hvisited, ?_⟩
          rintro c' k' ⟨⟩
          exact heq rfl
    · exact absurd hun (hcaught exc hexc)

theorem loopAfter_going (h : place.isEnd = false) : P.loopAfter j place = P.loop := by
  unfold loopAfter
  split_ifs
  · cases place with
    | done => cases h
    | raised exc => cases h
    | _ => rfl
  · rfl

theorem Sweeping.loop_moved {now : ℚ} (h : Sweeping P₀ P j (.loop now) place visited)
    (hmove : Move pipelined P a Q) (hassumed : Assumed pipelined P₀ j P a)
    (hbefore : place.isEnd = false) {place' : PassAt} {visited' : List BrokerClient}
    (hQ : Q.passes[j]? = some ⟨.loop now, place', visited'⟩) :
    (place'.isEnd = false → Q.loop = .passing j) ∧ (place' = .done → Q.loop = .sleeping) := by
  have hloop := h.loop now rfl hbefore
  have hj := (List.getElem?_eq_some_iff.mp h.pass).1
  have ha : ∀ i b, a ≠ .stopped i b := by
    rintro i b rfl
    exact hassumed hloop
  rcases hmove.loop hloop hj ha with ⟨hpassing, hsame⟩ | ⟨pass, hpass, hafter⟩
  · cases (hsame.trans h.pass).symm.trans hQ
    refine ⟨fun _ => hpassing, ?_⟩
    rintro rfl
    cases hbefore
  · cases hpass.symm.trans hQ
    refine ⟨fun hgoing => hafter.trans ((loopAfter_going hgoing).trans hloop), ?_⟩
    rintro rfl
    rw [hafter]
    unfold loopAfter
    exact if_pos hloop

theorem Sweeping.step (h : Sweeping P₀ P j sweep place visited)
    (hstep : P.step pipelined a = some Q) (hassumed : Assumed pipelined P₀ j P a)
    (hgrows : ¬ P.Grows j a) (hbefore : place.isEnd = false) :
    ∃ place' visited', Sweeping P₀ Q j sweep place' visited' ∧
      ∀ now, sweep = .loop now → place' = .done → Q.loop = .sleeping := by
  have hmove := step_move hstep
  rcases hmove.clients with hclients | ⟨client, table, rfl, hmakes, rfl⟩
  · obtain ⟨place', visited', hQ, hfits, hcovers, hrests⟩ :=
      h.moved hclients hassumed (hmove.pass (List.getElem?_eq_some_iff.mp h.pass).1)
    have hcalm : sweep = .shutdown → ∀ client, P₀.Has client →
        (Q.session client).Calm ∧ ((P.session client).Rests → (Q.session client).Rests) := by
      rintro rfl client hhas
      apply (hmove.session_move client).calm (h.wider.has hhas) _ (h.calm rfl client hhas)
      rintro p rfl
      exact hassumed ⟨_, h.pass, rfl⟩ hhas
    refine ⟨place', visited', ⟨hQ, h.wider.trans hmove.wider, hfits, hcovers, ?_, ?_, ?_⟩, ?_⟩
    · rintro now rfl
      exact (h.loop_moved hmove hassumed hbefore hQ).1
    · intro hsweep client hhas
      exact (hcalm hsweep client hhas).1
    · intro hsweep client hvisited hhas hplace
      rcases hrests hsweep client hvisited hhas hplace with ⟨hold, hplace'⟩ | hrests
      · exact (hcalm hsweep client hhas).2 (h.rests hsweep client hold hhas hplace')
      · exact hrests
    · rintro now rfl
      exact (h.loop_moved hmove hassumed hbefore hQ).2
  · refine ⟨place, visited, h.made hmakes ?_, ?_⟩
    · intro c hc haf
      exact hgrows ⟨⟨_, h.pass, c, hc, haf⟩, hmakes.supports, table, hmakes.family, hmakes.free⟩
    · rintro _ _ rfl
      cases hbefore

theorem Ended.step (h : P.Ended j) (hstep : P.step pipelined a = some Q) : Q.Ended j := by
  obtain ⟨pass, hpass, hend⟩ := h
  cases (step_move hstep).pass (List.getElem?_eq_some_iff.mp hpass).1 with
  | same hsame => exact ⟨pass, hsame.trans hpass, hend⟩
  | entered hold | grown hold | family hold | took hold | ended hold =>
    cases hold.symm.trans hpass
    cases hend

theorem ensureClient_ended {af port : ℕ} {host : String}
    (hstep : P.step pipelined (.ensureClient af host port) = some Q) : Q.Ended j ↔ P.Ended j := by
  cases step_move hstep with
  | kept => exact Iff.rfl
  | made => exact Iff.rfl
  | began hstarts => cases hstarts

theorem Sweeping.isEnd (h : Sweeping P₀ P j sweep place visited) (hbefore : ¬ P.Ended j) :
    place.isEnd = false := by
  by_contra hend
  exact hbefore ⟨_, h.pass, by simpa using hend⟩

theorem Sweeping.or_ended
    (h : P.Ended j ∨ ∃ place visited, Sweeping P₀ P j sweep place visited)
    (hassumed : Assumed pipelined P₀ j P a) (hgrows : ¬ P.Grows j a)
    (hstep : P.step pipelined a = some Q) :
    Q.Ended j ∨ ∃ place visited, Sweeping P₀ Q j sweep place visited := by
  by_cases hended : P.Ended j
  · exact Or.inl (hended.step hstep)
  · obtain ⟨place, visited, hsweeping⟩ := h.resolve_left hended
    obtain ⟨place', visited', hQ, -⟩ := hsweeping.step hstep hassumed hgrows
      (hsweeping.isEnd hended)
    exact Or.inr ⟨place', visited', hQ⟩

theorem sweeping_start (ha : a₀.startsPass = true) (hstep : P₀.step pipelined a₀ = some P₁)
    (hcalm : a₀ = .close → ∀ client, P₀.Has client → (P₀.session client).Calm) :
    ∃ sweep place, Sweeping P₀ P₁ P₀.passes.length sweep place [] := by
  have hhas : ∀ {client : BrokerClient}, P₀.Has client →
      Pending (P₀.enter P₀.clients.keys) client := by
    intro client hclient
    obtain ⟨table, htable, -⟩ := id hclient
    exact .enter (fun _ haf => haf) hclient (PyDict.mem_keys_iff.mpr ⟨table, htable⟩)
  have hbegin : ∀ {loop : CloserLoop} {sweep : Sweep}, Starts P₀ a₀ loop sweep →
      Sweeping P₀ (({ P₀ with loop } : Pool).begin sweep) P₀.passes.length sweep
        (P₀.enter P₀.clients.keys) [] := by
    intro loop sweep hstarts
    refine ⟨?_, .of_eq rfl, Fits.enter fun _ haf => haf, fun _ h => Or.inr (hhas h), ?_, ?_, ?_⟩
    · have hnew : ({ P₀ with loop, passes := P₀.passes ++ [⟨sweep, .stopping, []⟩] } : Pool).passes[
          P₀.passes.length]? = some ⟨sweep, .stopping, []⟩ := List.getElem?_concat_length
      exact passes_setPlace_self hnew
    · rintro now rfl hgoing
      cases hstarts with
      | wake =>
        exact loopAfter_going hgoing
    · rintro rfl
      cases hstarts with
      | close => exact hcalm rfl
    · intro _ client hvisited
      cases hvisited
  cases a₀ with
  | wake =>
    cases step_move hstep with
    | kept h => rcases h with ⟨_, _, _, h⟩ | h <;> cases h
    | began hstarts => exact ⟨_, _, hbegin hstarts⟩
  | closeIdleClients =>
    cases step_move hstep with
    | kept h => rcases h with ⟨_, _, _, h⟩ | h <;> cases h
    | began hstarts => exact ⟨_, _, hbegin hstarts⟩
  | close =>
    cases step_move hstep with
    | kept h => rcases h with ⟨_, _, _, h⟩ | h <;> cases h
    | began hstarts => exact ⟨_, _, hbegin hstarts⟩
    | stopping =>
      refine ⟨.shutdown, .stopping, by simp, .of_eq rfl, ⟨by simp, ?_, ?_⟩, ?_, ?_, ?_, ?_⟩
      · intro c hc
        cases hc
      · intro c hc
        cases hc
      · exact fun _ _ => Or.inr (Or.inl rfl)
      · rintro now ⟨⟩
      · exact fun _ => hcalm rfl
      · intro _ client hvisited
        cases hvisited
  | _ => cases ha

theorem Sweeping.tracks (h : Sweeping P₀ P j sweep place visited) : P.Tracks j := by
  refine ⟨_, h.pass, ?_⟩
  intro c hc
  obtain ⟨table, htable, hsize⟩ := h.fits.size c hc
  exact ⟨table, htable, hsize.ge⟩

theorem Sweeping.completes (h : Sweeping P₀ P j sweep place visited) (hend : P.Ended j)
    (hloop : ∀ now, sweep = .loop now → place = .done → P.loop = .sleeping) :
    Completes P₀ P j := by
  obtain rfl : place = .done := by
    obtain ⟨pass, hpass, hplace⟩ := hend
    cases h.pass.symm.trans hpass
    cases place with
    | done => rfl
    | raised exc => exact absurd rfl (h.fits.raised exc)
    | _ => cases hplace
  have hcovers : ∀ client, P₀.Has client → client ∈ visited := by
    intro client hhas
    rcases h.covers client hhas with hvisited | hstopping | ⟨c, hc, -⟩
    · exact hvisited
    · cases hstopping
    · cases hc
  refine ⟨sweep, visited, h.pass, hcovers, ?_⟩
  cases sweep with
  | loop now => exact hloop now rfl rfl
  | manual now => trivial
  | shutdown =>
    intro client hhas
    have hrests := h.rests rfl client (hcovers client hhas) hhas (by simp)
    exact ⟨fun x hx => (h.calm rfl client hhas).all_finished hrests hx, hrests.pipe⟩

/-- A pass completes if and only if no client is made in the dictionary in which it stands. -/
theorem pass_completes_iff (ha : a₀.startsPass = true)
    (hcalm : a₀ = .close → ∀ client, P₀.Has client → (P₀.session client).Calm)
    (hstart : P₀.step pipelined a₀ = some P₁)
    (hrun : Machine.run (step pipelined) P₁ as = some P) (hend : P.step pipelined b = some P')
    (hassumed : Machine.Meets (step pipelined) (Assumed pipelined P₀ P₀.passes.length) P₁ as)
    (hassumed' : Assumed pipelined P₀ P₀.passes.length P b)
    (hbefore : ¬ P.Ended P₀.passes.length) (hafter : P'.Ended P₀.passes.length) :
    Completes P₀ P' P₀.passes.length ↔
      Machine.Meets (step pipelined) (fun P a => ¬ P.Grows P₀.passes.length a) P₁ as := by
  obtain ⟨sweep, place, hsweeping⟩ := sweeping_start ha hstart hcalm
  constructor
  · intro hcompletes
    by_contra hgrows
    obtain ⟨bs, g, cs, U, V, -, hU, hg, hV, hP⟩ := Machine.exists_of_not_meets hrun hgrows
    have htracks : U.Tracks P₀.passes.length :=
      Machine.run_preserves (I := fun P => P.Tracks P₀.passes.length) (fun _ _ _ h => h.step)
        hsweeping.tracks hU
    have houtgrown : P.Outgrown P₀.passes.length :=
      Machine.run_preserves (I := fun P => P.Outgrown P₀.passes.length) (fun _ _ _ h => h.step)
        (htracks.grows (not_not.mp hg) hV) hP
    exact (houtgrown.step hend).not_completes hcompletes
  · intro hkept
    obtain hended | ⟨place, visited, hsweeping⟩ := Machine.run_invariant
      (I := fun P => P.Ended P₀.passes.length ∨
        ∃ place visited, Sweeping P₀ P P₀.passes.length sweep place visited)
      (fun _ _ _ h hcond hstep => Sweeping.or_ended h hcond.1 hcond.2 hstep)
      (Or.inr ⟨place, [], hsweeping⟩) (hassumed.and hkept) hrun
    · exact absurd hended hbefore
    · have hgrows : ¬ P.Grows P₀.passes.length b := by
        intro hgrows
        cases b with
        | ensureClient => exact hbefore ((ensureClient_ended hend).mp hafter)
        | _ => exact hgrows
      obtain ⟨place', visited', hlast, hloop⟩ :=
        hsweeping.step hend hassumed' hgrows (hsweeping.isEnd hbefore)
      exact hlast.completes hafter hloop

theorem calm_connectedSession : connectedSession.Calm where
  calls call hcall := by cases hcall
  dispatchers e x hx _ := by
    have he := (List.getElem?_eq_some_iff.mp hx).1
    exact congrArg some (Nat.lt_one_iff.mp he).symm

/-- While `Router.close` closes the client, a hint brings one of the other family. -/
def hintElsewhere : List PoolAct :=
  [.stopped 0 false, .advance 0, .ensureClient 10 "h" 1883] ++ closesClient ⟨2, "a", 1883⟩ ++
    [.advance 0, .advance 0, .goesOn 0 .done false]

theorem pass_completes_close : ∃ P', Completes (pooled ["a"]) P' 0 := by
  obtain ⟨P, hrun, hmeets, hp⟩ := Machine.exists_runMeeting_of_any (step true)
    (fun P a => Assumed true (pooled ["a"]) 0 P a ∧ ¬ P.Grows 0 a)
    { pooled ["a"] with passes := [⟨.shutdown, .stopping, []⟩] }
    hintElsewhere
    (fun P => decide (¬ P.Ended 0) &&
      (P.step true (.advance 0)).any fun P' : Pool => decide (P'.Ended 0))
    (by decide +kernel)
  obtain ⟨hbefore, hp⟩ := Bool.and_eq_true_iff.mp hp
  obtain ⟨P', hend, hafter⟩ := (Option.any_eq_true _ _).mp hp
  have hstart : (pooled ["a"]).step true .close =
      some { pooled ["a"] with passes := [⟨.shutdown, .stopping, []⟩] } := rfl
  refine ⟨P', (pass_completes_iff rfl ?_ hstart hrun hend ?_ trivial (of_decide_eq_true hbefore)
    (of_decide_eq_true hafter)).mpr ?_⟩
  · intro _ client _
    exact calm_connectedSession
  · exact hmeets.mono fun _ _ h => h.1
  · exact hmeets.mono fun _ _ h => h.2

def hintAmong : List PoolAct :=
  [.advance 0, .ensureClient 2 "h" 1883] ++ closesClient ⟨2, "a", 1883⟩

/-- The pass ends with an exception that the loop does not catch, and the second client stays
open. -/
theorem not_pass_completes : ¬ ∀ (pipelined : Bool) (P₀ P₁ P P' : Pool) (a₀ b : PoolAct)
    (as : List PoolAct), a₀.startsPass = true →
    (a₀ = .close → ∀ client, P₀.Has client → (P₀.session client).Calm) →
    P₀.step pipelined a₀ = some P₁ → Machine.run (step pipelined) P₁ as = some P →
    P.step pipelined b = some P' →
    Machine.Meets (step pipelined) (Assumed pipelined P₀ P₀.passes.length) P₁ as →
    Assumed pipelined P₀ P₀.passes.length P b → ¬ P.Ended P₀.passes.length →
    P'.Ended P₀.passes.length → Completes P₀ P' P₀.passes.length := by
  intro hcompletes
  obtain ⟨P, hrun, hmeets, hp⟩ := Machine.exists_runMeeting_of_any (step true)
    (Assumed true (pooled ["a", "b"]) 0)
    (({ pooled ["a", "b"] with loop := .passing 0 } : Pool).begin (.loop 700))
    hintAmong
    (fun P => decide (¬ P.Ended 0) && (P.step true (.advance 0)).any fun P' : Pool =>
      decide (P'.Ended 0 ∧ P'.passes[0]?.map Pass.place = some (.raised grownError)))
    (by decide +kernel)
  obtain ⟨hbefore, hp⟩ := Bool.and_eq_true_iff.mp hp
  obtain ⟨P', hend, hp⟩ := (Option.any_eq_true _ _).mp hp
  obtain ⟨hafter, hraised⟩ := of_decide_eq_true hp
  obtain ⟨sweep, visited, hdone, -⟩ := hcompletes true (pooled ["a", "b"]) _ P P' .wake _ _ rfl
    (by simp) rfl hrun hend hmeets trivial (of_decide_eq_true hbefore) hafter
  rw [show (pooled ["a", "b"]).passes.length = 0 from rfl] at hdone
  simp [hdone] at hraised

end Pool

end Sidewire
