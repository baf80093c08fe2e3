import Sidewire.Discovery.Candidates
import Sidewire.Session.Lifecycle

/-! # The race for a destination's clients

One call of `get_dest_clients`, from step to step. The walks of the families run
side by side; in each, up to ten calls of `try_client` race, their results are
collected in the order they complete, and what is still running when the walk
ends is cancelled.
-/

namespace Sidewire

/-- Where a racing call of `try_client` stands: not yet run, waiting for its connect since a time,
at its end, or cancelled. -/
inductive Attempt
  | waiting
  | connecting (now : ℚ)
  | ended (r : CallResult)
  | cancelled
  deriving DecidableEq

/-- `not t.done()`. -/
def Attempt.running : Attempt → Bool
  | waiting | connecting _ => true
  | ended _ | cancelled => false

inductive WalkStage
  | collecting
  | finished
  | raised (exc : AwaitExc)
  deriving DecidableEq

/-- A call of `walk_af`. The results that wait in the queue of `as_completed` are `completed`, those
taken from it are `gathered`; `timedOut` remembers that the cap ended the walk. -/
structure AfWalk where
  nicAf : ℕ
  candidates : List BrokerClient
  deadline : ℚ
  attempts : BrokerClient → Attempt
  completed : List BrokerClient
  gathered : List BrokerClient
  afFound : List BrokerClient
  stage : WalkStage
  timedOut : Bool

namespace AfWalk

def needed (w : AfWalk) : ℕ := Sidewire.needed w.candidates.length

/-- The candidates that `try_client` is called for. -/
def racers (w : AfWalk) : List BrokerClient :=
  if w.needed = 0 then [] else w.candidates.take 10

def start (deadline : ℚ) (nicAf : ℕ) (candidates : List BrokerClient) : AfWalk where
  nicAf := nicAf
  candidates := candidates
  deadline := deadline
  attempts := fun _ => .waiting
  completed := []
  gathered := []
  afFound := []
  stage := if Sidewire.needed candidates.length = 0 then .finished else .collecting
  timedOut := false

def setAttempt (w : AfWalk) (c : BrokerClient) (a : Attempt) : AfWalk :=
  { w with attempts := Function.update w.attempts c a }

def settle (w : AfWalk) (c : BrokerClient) (r : CallResult) : AfWalk :=
  { w.setAttempt c (.ended r) with completed := w.completed ++ [c] }

/-- The `finally` of the walk: what is still running is cancelled. -/
def finish (w : AfWalk) (stage : WalkStage) : AfWalk :=
  { w with
    stage
    attempts := fun c => if (w.attempts c).running then .cancelled else w.attempts c }

/-- The loop over `as_completed` ends with the last task. -/
def goOn (w : AfWalk) : AfWalk :=
  if w.gathered.length = w.racers.length then w.finish .finished else w

/-- One round of `collect`. -/
def collect (w : AfWalk) : Option AfWalk :=
  match w.stage, w.completed with
  | .collecting, c :: completed =>
    let w := { w with completed, gathered := w.gathered ++ [c] }
    match w.attempts c with
    | .ended .client =>
      let w := { w with afFound := w.afFound ++ [c] }
      some (if w.afFound.length ≥ w.needed then w.finish .finished else w.goOn)
    | .ended (.failed exc) => some (w.finish (.raised exc))
    | _ => some w.goOn
  | _, _ => none

def exception (w : AfWalk) : Option AwaitExc :=
  match w.stage with
  | .raised exc => some exc
  | _ => none

/-- The connects that were under way in `w` and are cancelled in `w'`. -/
def cutOff (w w' : AfWalk) : List (BrokerClient × ℚ) :=
  w.racers.filterMap fun c =>
    match w.attempts c, w'.attempts c with
    | .connecting now, .cancelled => some (c, now)
    | _, _ => none

end AfWalk

/-- `try_client` after its connect has ended. -/
def Session.tried (s : Session) (now : ℚ) : Except AwaitExc ℕ → Session × CallResult
  | .ok p => s.connected (some now) p
  | .error exc => s.connectFailed (some now) exc false

/-- A call of `get_dest_clients`, with the clients it asks. The connects that were cancelled have
yet to unwind. -/
structure Discovery where
  clock : ℚ
  session : BrokerClient → Session
  walkCap : ℚ
  walks : List AfWalk
  unwinding : List (BrokerClient × ℚ)
  retried : Bool
  result : Option (Except AwaitExc (List BrokerClient))

namespace Discovery

def start {KP σ : Type} [LinearOrder σ] (P : Platform) (clientsMap : ClientTable)
    (cachedHints : List Hint) (A : Aio KP) (rendezvousScore : Bytes → Bytes → Bytes → σ)
    (nic : List Family) (destPubHex : String) (pool : BrokerPool) (walkCap clock : ℚ)
    (session : BrokerClient → Session) : Except PyExc Discovery := do
  let afBuckets ← rendezvousHash A rendezvousScore (nic.map P.number) destPubHex (pool.servers P)
  let walks ← afBuckets.entries.mapM fun e => do
    let candidateClients ← walkCandidates P clientsMap cachedHints e.1 e.2
    return AfWalk.start (clock + walkCap) e.1 candidateClients
  return { clock, session, walkCap, walks, unwinding := [], retried := false, result := none }

/-- What may happen next. A cancelled connect may have come to its end by then. -/
inductive Act
  | tick (t : ℚ)
  | begin (f : ℕ) (c : BrokerClient)
  | connectEnds (f : ℕ) (c : BrokerClient) (e : Except AwaitExc ℕ)
  | unwinds (k : ℕ) (e : Option (Except AwaitExc ℕ))
  | collect (f : ℕ)
  | elapse (f : ℕ)
  | gather

def setWalk (s : Discovery) (f : ℕ) (w w' : AfWalk) : Discovery :=
  { s with walks := s.walks.set f w', unwinding := s.unwinding ++ w.cutOff w' }

def setSession (s : Discovery) (c : BrokerClient) (session : Session) : Discovery :=
  { s with session := Function.update s.session c session }

/-- The walks are gathered: their clients are returned, or they are walked once more. -/
def gather (s : Discovery) : Option Discovery :=
  match s.walks.findSome? AfWalk.exception with
  | some exc => some { s with result := some (.error exc) }
  | none =>
    if ∀ w ∈ s.walks, w.stage = .finished then
      let foundClients := s.walks.flatMap AfWalk.afFound
      if foundClients = [] ∧ s.walkCap < 4 ∧ s.retried = false then
        some { s with
          retried := true
          walks := s.walks.map fun w => .start (s.clock + 4) w.nicAf w.candidates }
      else some { s with result := some (.ok foundClients) }
    else none

def step (s : Discovery) : Act → Option Discovery
  | .tick t => if s.clock ≤ t then some { s with clock := t } else none
  | .begin f c =>
    match s.walks[f]? with
    | none => none
    | some w =>
      if w.stage = .collecting ∧ c ∈ w.racers ∧ w.attempts c = .waiting then
        match (s.session c).tryClient s.clock with
        | .over r => some (s.setWalk f w (w.settle c r))
        | _ => some (s.setWalk f w (w.setAttempt c (.connecting s.clock)))
      else none
  | .connectEnds f c e =>
    match s.walks[f]? with
    | none => none
    | some w =>
      match w.attempts c with
      | .connecting now =>
        if w.stage = .collecting ∧ c ∈ w.racers then
          let (session, r) := (s.session c).tried now e
          some ((s.setSession c session).setWalk f w (w.settle c r))
        else none
      | _ => none
  | .unwinds k e =>
    match s.unwinding[k]? with
    | none => none
    | some (c, now) =>
      let s := { s with unwinding := s.unwinding.eraseIdx k }
      match e with
      | none => some s
      | some e => some (s.setSession c ((s.session c).tried now e).1)
  | .collect f => (s.walks[f]?).bind fun w => w.collect.map (s.setWalk f w)
  | .elapse f =>
    match s.walks[f]? with
    | none => none
    | some w =>
      if w.stage = .collecting ∧ w.deadline ≤ s.clock then
        some (s.setWalk f w { w.finish .finished with timedOut := true })
      else none
  | .gather => if s.result.isSome then none else s.gather

end Discovery

namespace AfWalk

/-- A step of a walk in which connects fail with the errors of the network only. -/
inductive Moves (w : AfWalk) : AfWalk → Prop
  | connects {c : BrokerClient} (now : ℚ) (hc : c ∈ w.racers) (ha : w.attempts c = .waiting)
    (hs : w.stage = .collecting) : Moves w (w.setAttempt c (.connecting now))
  | settles {c : BrokerClient} (r : CallResult) (hc : c ∈ w.racers)
    (ha : (w.attempts c).running = true) (hs : w.stage = .collecting)
    (hr : r = .client ∨ r = .noClient) : Moves w (w.settle c r)
  | collects {w' : AfWalk} (h : w.collect = some w') : Moves w w'
  | elapses (hs : w.stage = .collecting) : Moves w { w.finish .finished with timedOut := true }

variable {w w' : AfWalk} {c : BrokerClient}

/-- Each racer that has ended is counted once, and the clients found are those gathered that
`try_client` returned. -/
structure Tallied (w : AfWalk) : Prop where
  nodup : w.candidates.Nodup
  once : (w.gathered ++ w.completed).Nodup
  ended : ∀ c, c ∈ w.gathered ++ w.completed ↔ c ∈ w.racers ∧ ∃ r, w.attempts c = .ended r
  network : ∀ c r, w.attempts c = .ended r → r = .client ∨ r = .noClient
  found : w.afFound = w.gathered.filter fun c => w.attempts c = .ended .client
  atMost : w.afFound.length ≤ w.needed

/-- What holds of a walk in which no call of `try_client` raises. -/
structure Sound (w : AfWalk) : Prop extends Tallied w where
  collecting : w.stage = .collecting →
    w.afFound.length < w.needed ∧ w.gathered.length < w.racers.length
  awaited : w.stage = .collecting → ∀ c ∈ w.racers, w.attempts c ≠ .cancelled
  inTime : w.stage = .collecting → w.timedOut = false
  cancelled : w.stage ≠ .collecting → ∀ c ∈ w.racers, (w.attempts c).running = false
  short : w.stage ≠ .collecting → w.afFound.length < w.needed →
    w.timedOut = true ∨ w.gathered.length = w.racers.length
  quiet : ∀ exc, w.stage ≠ .raised exc

theorem racers_congr (h : w'.candidates = w.candidates) : w'.racers = w.racers := by
  unfold racers AfWalk.needed
  rw [h]

theorem nodup_racers (h : w.candidates.Nodup) : w.racers.Nodup := by
  unfold racers
  split_ifs
  · exact List.nodup_nil
  · exact h.sublist (List.take_sublist _ _)

theorem sound_start (deadline : ℚ) (nicAf : ℕ) {candidates : List BrokerClient}
    (h : candidates.Nodup) : (start deadline nicAf candidates).Sound where
  nodup := h
  once := List.nodup_nil
  ended c := by simp [start]
  network c r hr := by cases hr
  found := rfl
  atMost := Nat.zero_le _
  collecting hs := by
    have hneeded : Sidewire.needed candidates.length ≠ 0 := by
      intro h0
      simp [start, h0] at hs
    have hlen : 2 ≤ candidates.length := by
      by_contra hlt
      exact hneeded (needed_eq_zero (not_le.mp hlt))
    refine ⟨Nat.pos_of_ne_zero hneeded, ?_⟩
    have hracers : (start deadline nicAf candidates).racers = candidates.take 10 := if_neg hneeded
    rw [hracers, List.length_take]
    change 0 < min 10 candidates.length
    omega
  awaited _ c _ := Attempt.noConfusion
  inTime _ := rfl
  cancelled hs c hc := by
    have hneeded : Sidewire.needed candidates.length = 0 := by
      by_contra h0
      exact hs (if_neg h0)
    have hracers : (start deadline nicAf candidates).racers = [] := if_pos hneeded
    rw [hracers] at hc
    cases hc
  short hs hlt := by
    have hneeded : Sidewire.needed candidates.length = 0 := by
      by_contra h0
      exact hs (if_neg h0)
    change 0 < Sidewire.needed candidates.length at hlt
    omega
  quiet exc := by
    unfold start
    dsimp only
    split_ifs <;> exact WalkStage.noConfusion

theorem Tallied.congr (h : w.Tallied) (hcand : w'.candidates = w.candidates)
    (hgath : w'.gathered = w.gathered) (hcomp : w'.completed = w.completed)
    (hfound : w'.afFound = w.afFound)
    (hended : ∀ c r, w'.attempts c = .ended r ↔ w.attempts c = .ended r) : w'.Tallied where
  nodup := hcand ▸ h.nodup
  once := by rw [hgath, hcomp]; exact h.once
  ended c := by rw [hgath, hcomp, h.ended, racers_congr hcand]; simp only [hended]
  network c r hr := h.network c r ((hended c r).mp hr)
  found := by rw [hfound, hgath, h.found]; simp only [hended]
  atMost := by
    have hneeded : w'.needed = w.needed := by rw [AfWalk.needed, AfWalk.needed, hcand]
    rw [hfound, hneeded]
    exact h.atMost

theorem finish_ended (w : AfWalk) (stage : WalkStage) (c : BrokerClient) (r : CallResult) :
    (w.finish stage).attempts c = .ended r ↔ w.attempts c = .ended r := by
  simp only [finish]
  cases w.attempts c <;> simp [Attempt.running]

theorem Tallied.finish (h : w.Tallied) (stage : WalkStage) : (w.finish stage).Tallied :=
  h.congr rfl rfl rfl rfl (finish_ended w stage)

theorem running_finish (w : AfWalk) (stage : WalkStage) (c : BrokerClient) :
    ((w.finish stage).attempts c).running = false := by
  simp only [AfWalk.finish]
  split_ifs with h
  · rfl
  · exact Bool.eq_false_of_not_eq_true h

theorem Tallied.sound_finish (h : w.Tallied)
    (hs : w.afFound.length < w.needed → w.gathered.length = w.racers.length) :
    (w.finish .finished).Sound where
  toTallied := h.finish .finished
  collecting hc := by cases hc
  awaited hc := by cases hc
  inTime hc := by cases hc
  cancelled _ c _ := running_finish w .finished c
  short _ hlt := .inr (hs hlt)
  quiet exc := WalkStage.noConfusion

theorem Tallied.sound_goOn (h : w.Tallied) (hs : w.stage = .collecting)
    (hawaited : ∀ c ∈ w.racers, w.attempts c ≠ .cancelled) (hin : w.timedOut = false)
    (hlt : w.afFound.length < w.needed) (hle : w.gathered.length ≤ w.racers.length) :
    w.goOn.Sound := by
  unfold goOn
  split_ifs with heq
  · exact h.sound_finish fun _ => heq
  · exact {
      toTallied := h
      collecting := fun _ => ⟨hlt, lt_of_le_of_ne hle heq⟩
      awaited := fun _ => hawaited
      inTime := fun _ => hin
      cancelled := fun hn => absurd hs hn
      short := fun hn => absurd hs hn
      quiet := fun exc hr => by rw [hs] at hr; cases hr }

theorem Tallied.take {rest : List BrokerClient} (h : w.Tallied) (hc : w.completed = c :: rest)
    (hlt : w.afFound.length < w.needed) :
    ({ w with completed := rest, gathered := w.gathered ++ [c], afFound := w.afFound ++
      if w.attempts c = .ended .client then [c] else [] } : AfWalk).Tallied where
  nodup := h.nodup
  once := by
    have hn := h.once
    rw [hc] at hn
    simpa using hn
  ended c' := by
    have he := h.ended c'
    rw [hc] at he
    change c' ∈ w.gathered ++ [c] ++ rest ↔ c' ∈ w.racers ∧ _
    simpa using he
  network := h.network
  found := by
    simp only [List.filter_append, h.found]
    congr 1
    by_cases ha : w.attempts c = .ended .client
    · simp [ha]
    · simp [ha]
  atMost := by
    rw [List.length_append]
    change _ ≤ w.needed
    split_ifs
    · simpa using hlt
    · simpa using hlt.le

theorem Sound.collect (h : w.Sound) (hw : w.collect = some w') : w'.Sound := by
  unfold AfWalk.collect at hw
  split at hw
  · rename_i c rest hs hc
    have hlt := (h.collecting hs).1
    have hgath : (w.gathered ++ [c]).length ≤ w.racers.length := by
      rw [List.length_append]
      exact (h.collecting hs).2
    have htake := h.toTallied.take hc hlt
    obtain ⟨-, r, hr⟩ := (h.ended c).mp (by rw [hc]; simp)
    dsimp only at hw
    rw [hr] at hw htake
    rcases h.network c r hr with rfl | rfl
    · simp only [if_true] at htake hw
      cases hw
      split_ifs with hfull
      · refine htake.sound_finish fun hlt' => absurd hfull (not_le.mpr hlt')
      · exact htake.sound_goOn hs (h.awaited hs) (h.inTime hs) (not_le.mp hfull) hgath
    · simp only [reduceCtorEq, Attempt.ended.injEq, if_false, List.append_nil] at htake
      cases hw
      exact htake.sound_goOn hs (h.awaited hs) (h.inTime hs) hlt hgath
  · cases hw

theorem Sound.moves (h : w.Sound) (hm : Moves w w') : w'.Sound := by
  cases hm with
  | @connects c now hc ha hs =>
    have hended : ∀ c' r, (w.setAttempt c (.connecting now)).attempts c' = .ended r ↔
        w.attempts c' = .ended r := by
      intro c' r
      by_cases hcc : c' = c
      · subst hcc
        simp [setAttempt, ha]
      · simp [setAttempt, hcc]
    exact {
      toTallied := h.toTallied.congr rfl rfl rfl rfl hended
      collecting := h.collecting
      awaited := by
        intro _ c' hc'
        by_cases hcc : c' = c
        · subst hcc
          simp [setAttempt]
        · simpa [setAttempt, hcc] using h.awaited hs c' hc'
      inTime := h.inTime
      cancelled := fun hn => absurd hs hn
      short := fun hn => absurd hs hn
      quiet := h.quiet }
  | @settles c r hc ha hs hr =>
    have hnot : c ∉ w.gathered ++ w.completed := by
      intro hin
      obtain ⟨-, r', hr'⟩ := (h.ended c).mp hin
      rw [hr'] at ha
      cases ha
    have hother : ∀ {c'}, c' ≠ c → (w.settle c r).attempts c' = w.attempts c' := by
      intro c' hne
      simp [settle, setAttempt, hne]
    have hself : (w.settle c r).attempts c = .ended r := by simp [settle, setAttempt]
    have hracers : (w.settle c r).racers = w.racers := racers_congr rfl
    exact {
      nodup := h.nodup
      once := by
        change (w.gathered ++ (w.completed ++ [c])).Nodup
        rw [← List.append_assoc]
        exact List.Nodup.append h.once (List.nodup_singleton c) (by simpa using hnot)
      ended := by
        intro c'
        change c' ∈ w.gathered ++ (w.completed ++ [c]) ↔ _
        rw [← List.append_assoc, List.mem_append, List.mem_singleton, hracers]
        by_cases hcc : c' = c
        · subst hcc
          simp [hself, hc]
        · rw [hother hcc, ← h.ended]
          simp [hcc]
      network := by
        intro c' r' hr'
        by_cases hcc : c' = c
        · subst hcc
          rw [hself] at hr'
          cases hr'
          exact hr
        · rw [hother hcc] at hr'
          exact h.network c' r' hr'
      found := by
        change w.afFound = _
        rw [h.found]
        apply List.filter_congr
        intro c' hc'
        have hcc : c' ≠ c := by
          rintro rfl
          exact hnot (List.mem_append_left _ hc')
        rw [hother hcc]
      atMost := h.atMost
      collecting := by
        intro _
        rw [hracers]
        exact h.collecting hs
      awaited := by
        intro _ c' hc'
        by_cases hcc : c' = c
        · subst hcc
          simp [hself]
        · rw [hother hcc]
          exact h.awaited hs c' hc'
      inTime := fun _ => h.inTime hs
      cancelled := fun hn => absurd hs hn
      short := fun hn => absurd hs hn
      quiet := h.quiet }
  | collects hw => exact h.collect hw
  | elapses hs =>
    exact {
      toTallied := h.toTallied.congr rfl rfl rfl rfl (finish_ended w .finished)
      collecting := fun hc => by cases hc
      awaited := fun hc => by cases hc
      inTime := fun hc => by cases hc
      cancelled := fun _ c _ => running_finish w .finished c
      short := fun _ _ => .inl rfl
      quiet := fun exc => WalkStage.noConfusion }

structure SameWalk (w w' : AfWalk) : Prop where
  nicAf : w'.nicAf = w.nicAf
  candidates : w'.candidates = w.candidates
  deadline : w'.deadline = w.deadline

theorem same_goOn (w : AfWalk) : SameWalk w w.goOn ∧ w.goOn.timedOut = w.timedOut := by
  unfold goOn
  split_ifs <;> exact ⟨⟨rfl, rfl, rfl⟩, rfl⟩

theorem same_collect (hw : w.collect = some w') :
    w.stage = .collecting ∧ SameWalk w w' ∧ w'.timedOut = w.timedOut := by
  unfold AfWalk.collect at hw
  split at hw
  · rename_i c rest hs hc
    refine ⟨hs, ?_⟩
    dsimp only at hw
    split at hw
    · cases hw
      split_ifs
      · exact ⟨⟨rfl, rfl, rfl⟩, rfl⟩
      · exact ⟨⟨(same_goOn _).1.nicAf, (same_goOn _).1.candidates, (same_goOn _).1.deadline⟩,
          (same_goOn _).2⟩
    · cases hw
      exact ⟨⟨rfl, rfl, rfl⟩, rfl⟩
    · cases hw
      exact ⟨⟨(same_goOn _).1.nicAf, (same_goOn _).1.candidates, (same_goOn _).1.deadline⟩,
        (same_goOn _).2⟩
  · cases hw

theorem Moves.same (hm : Moves w w') : w.stage = .collecting ∧ SameWalk w w' := by
  cases hm with
  | connects now hc ha hs => exact ⟨hs, rfl, rfl, rfl⟩
  | settles r hc ha hs => exact ⟨hs, rfl, rfl, rfl⟩
  | collects hw => exact ⟨(same_collect hw).1, (same_collect hw).2.1⟩
  | elapses hs => exact ⟨hs, rfl, rfl, rfl⟩

end AfWalk

namespace Discovery

inductive Step (s : Discovery) : Act → Discovery → Prop
  | tick {t : ℚ} (ht : s.clock ≤ t) : Step s (.tick t) { s with clock := t }
  | begins {f : ℕ} {c : BrokerClient} {w : AfWalk} {r : CallResult} (hf : s.walks[f]? = some w)
    (hs : w.stage = .collecting) (hc : c ∈ w.racers) (ha : w.attempts c = .waiting)
    (hr : (s.session c).tryClient s.clock = .over r) :
    Step s (.begin f c) (s.setWalk f w (w.settle c r))
  | enters {f : ℕ} {c : BrokerClient} {w : AfWalk} (hf : s.walks[f]? = some w)
    (hs : w.stage = .collecting) (hc : c ∈ w.racers) (ha : w.attempts c = .waiting) :
    Step s (.begin f c) (s.setWalk f w (w.setAttempt c (.connecting s.clock)))
  | connects {f : ℕ} {c : BrokerClient} {w : AfWalk} {now : ℚ} {e : Except AwaitExc ℕ}
    (hf : s.walks[f]? = some w) (hs : w.stage = .collecting) (hc : c ∈ w.racers)
    (ha : w.attempts c = .connecting now) :
    Step s (.connectEnds f c e) ((s.setSession c ((s.session c).tried now e).1).setWalk f w
      (w.settle c ((s.session c).tried now e).2))
  | unwinds {k : ℕ} {c : BrokerClient} {now : ℚ} {e : Option (Except AwaitExc ℕ)}
    (hk : s.unwinding[k]? = some (c, now)) {session : Session}
    (he : session = match e with | none => s.session c | some e => ((s.session c).tried now e).1) :
    Step s (.unwinds k e)
      (({ s with unwinding := s.unwinding.eraseIdx k } : Discovery).setSession c session)
  | collects {f : ℕ} {w w' : AfWalk} (hf : s.walks[f]? = some w) (hw : w.collect = some w') :
    Step s (.collect f) (s.setWalk f w w')
  | elapses {f : ℕ} {w : AfWalk} (hf : s.walks[f]? = some w) (hs : w.stage = .collecting)
    (hd : w.deadline ≤ s.clock) :
    Step s (.elapse f) (s.setWalk f w { w.finish .finished with timedOut := true })
  | raises {exc : AwaitExc} {w : AfWalk} (hw : w ∈ s.walks) (hs : w.stage = .raised exc) :
    Step s .gather { s with result := some (.error exc) }
  | repeats (hover : ∀ w ∈ s.walks, w.stage = .finished)
    (hnone : s.walks.flatMap AfWalk.afFound = []) (hcap : s.walkCap < 4)
    (hfirst : s.retried = false) (hr : s.result = none) :
    Step s .gather { s with
      retried := true
      walks := s.walks.map fun w => .start (s.clock + 4) w.nicAf w.candidates }
  | returns (hover : ∀ w ∈ s.walks, w.stage = .finished)
    (hr : ¬ (s.walks.flatMap AfWalk.afFound = [] ∧ s.walkCap < 4 ∧ s.retried = false)) :
    Step s .gather { s with result := some (.ok (s.walks.flatMap AfWalk.afFound)) }

variable {s s' s₀ : Discovery} {a : Act} {as : List Act}

theorem step_cases (h : s.step a = some s') : s.Step a s' := by
  cases a with
  | tick t =>
    simp only [step] at h
    split_ifs at h with ht
    cases h
    exact .tick ht
  | begin f c =>
    simp only [step] at h
    split at h
    · cases h
    · rename_i w hf
      split_ifs at h with hw
      obtain ⟨hs, hc, ha⟩ := hw
      split at h
      · rename_i r hr
        cases h
        exact .begins hf hs hc ha hr
      · cases h
        exact .enters hf hs hc ha
  | connectEnds f c e =>
    simp only [step] at h
    split at h
    · cases h
    · rename_i w hf
      split at h
      · rename_i now ha
        split_ifs at h with hw
        cases h
        exact .connects hf hw.1 hw.2 ha
      · cases h
  | unwinds k e =>
    simp only [step] at h
    split at h
    · cases h
    · rename_i c now hk
      cases e with
      | none =>
        cases h
        have hsame : ({ s with unwinding := s.unwinding.eraseIdx k } : Discovery) =
            ({ s with unwinding := s.unwinding.eraseIdx k } : Discovery).setSession c
              (s.session c) := by
          simp only [setSession, Function.update_eq_self]
        rw [hsame]
        exact .unwinds hk rfl
      | some e =>
        cases h
        exact .unwinds hk rfl
  | collect f =>
    obtain ⟨w, hf, h⟩ := Option.bind_eq_some_iff.mp h
    obtain ⟨w', hw, rfl⟩ := Option.map_eq_some_iff.mp h
    exact .collects hf hw
  | elapse f =>
    simp only [step] at h
    split at h
    · cases h
    · rename_i w hf
      split_ifs at h with hw
      cases h
      exact .elapses hf hw.1 hw.2
  | gather =>
    simp only [step] at h
    split_ifs at h with hr
    have hr : s.result = none := by simpa using hr
    unfold gather at h
    split at h
    · rename_i exc hexc
      cases h
      obtain ⟨w, hw, hs⟩ := List.exists_of_findSome?_eq_some hexc
      unfold AfWalk.exception at hs
      split at hs
      · rename_i exc' hst
        cases hs
        exact .raises hw hst
      · cases hs
    · dsimp only at h
      split_ifs at h with hover hrep
      · cases h
        exact .repeats hover hrep.1 hrep.2.1 hrep.2.2 hr
      · cases h
        exact .returns hover hrep

/-- The connects of a step fail with the errors that `try_client` expects. -/
def Act.Networked : Act → Prop
  | .connectEnds _ _ (.error exc) => exc.isNetwork = true
  | _ => True

theorem tryClient_cases (t : Session) (now : ℚ) : t.tryClient now = .over .client ∨
    t.tryClient now = .over .noClient ∨ t.tryClient now = .entering now := by
  unfold Session.tryClient
  split_ifs
  · exact .inl rfl
  · exact .inr (.inl rfl)
  · exact .inr (.inr rfl)

theorem tried_cases (t : Session) (now : ℚ) {e : Except AwaitExc ℕ}
    (he : ∀ exc, e = .error exc → exc.isNetwork = true) :
    (t.tried now e).2 = .client ∨ (t.tried now e).2 = .noClient := by
  cases e with
  | ok p => exact .inl rfl
  | error exc =>
    right
    have hnet := he exc rfl
    simp [Session.tried, Session.connectFailed, hnet]

theorem Step.walks (h : s.Step a s') (ha : a.Networked) :
    (∃ f w w', s.walks[f]? = some w ∧ w.Moves w' ∧ s'.walks = s.walks.set f w' ∧
      (w'.timedOut = true → w.timedOut = true ∨ w.deadline ≤ s.clock)) ∨
      s'.walks = s.walks ∨
      s'.walks = s.walks.map fun w => .start (s.clock + 4) w.nicAf w.candidates := by
  cases h with
  | tick => exact .inr (.inl rfl)
  | @begins f c w r hf hs hc hat hr =>
    refine .inl ⟨f, w, _, hf, .settles r hc (by rw [hat]; rfl) hs ?_, rfl, .inl⟩
    rcases tryClient_cases (s.session c) s.clock with h | h | h
    · rw [h] at hr
      cases hr
      exact .inl rfl
    · rw [h] at hr
      cases hr
      exact .inr rfl
    · rw [h] at hr
      cases hr
  | @enters f c w hf hs hc hat => exact .inl ⟨f, w, _, hf, .connects s.clock hc hat hs, rfl, .inl⟩
  | @connects f c w now e hf hs hc hat =>
    refine .inl ⟨f, w, _, hf, .settles _ hc (by rw [hat]; rfl) hs (tried_cases _ _ ?_), rfl, .inl⟩
    rintro exc rfl
    exact ha
  | unwinds => exact .inr (.inl rfl)
  | @collects f w w' hf hw =>
    refine .inl ⟨f, w, w', hf, .collects hw, rfl, fun ht => .inl ?_⟩
    rwa [(AfWalk.same_collect hw).2.2] at ht
  | @elapses f w hf hs hd => exact .inl ⟨f, w, _, hf, .elapses hs, rfl, fun _ => .inr hd⟩
  | raises => exact .inr (.inl rfl)
  | repeats => exact .inr (.inr rfl)
  | returns => exact .inr (.inl rfl)

/-- What holds of a call in which no call of `try_client` raises. -/
structure Sound (s : Discovery) : Prop where
  walks : ∀ w ∈ s.walks, w.Sound
  elapsed : ∀ w ∈ s.walks, w.timedOut = true → w.deadline ≤ s.clock
  result : ∀ r, s.result = some r →
    r = .ok (s.walks.flatMap AfWalk.afFound) ∧ ∀ w ∈ s.walks, w.stage = .finished

def families (s : Discovery) : List (ℕ × List BrokerClient) :=
  s.walks.map fun w => (w.nicAf, w.candidates)

theorem map_set_of_eq {α β : Type} {l : List α} {f : ℕ} {a b : α} {g : α → β}
    (hf : l[f]? = some a) (h : g b = g a) : (l.set f b).map g = l.map g := by
  obtain ⟨hlt, rfl⟩ := List.getElem?_eq_some_iff.mp hf
  rw [List.map_set, h, ← List.getElem_map g]
  · exact List.set_getElem_self _
  · rwa [List.length_map]

theorem Step.families (h : s.Step a s') (ha : a.Networked) : s'.families = s.families := by
  unfold Discovery.families
  obtain ⟨f, w, w', hf, hm, hw, -⟩ | hw | hw := h.walks ha
  · rw [hw]
    apply map_set_of_eq hf
    rw [hm.same.2.nicAf, hm.same.2.candidates]
  · rw [hw]
  · rw [hw, List.map_map]
    rfl

theorem Step.clock_le (h : s.Step a s') : s.clock ≤ s'.clock := by
  cases h with
  | tick ht => exact ht
  | _ => exact le_rfl

theorem Step.sound (h : s.Step a s') (ha : a.Networked) (hs : s.Sound) : s'.Sound := by
  have hwalks : ∀ w ∈ s'.walks, w.Sound := by
    obtain ⟨f, w, w', hf, hm, hw, -⟩ | hw | hw := h.walks ha
    · intro v hv
      rw [hw] at hv
      rcases List.mem_or_eq_of_mem_set hv with hv | rfl
      · exact hs.walks v hv
      · exact (hs.walks w (List.mem_of_getElem? hf)).moves hm
    · intro v hv
      exact hs.walks v (hw ▸ hv)
    · intro v hv
      rw [hw] at hv
      obtain ⟨w, hmem, rfl⟩ := List.mem_map.mp hv
      exact AfWalk.sound_start _ _ (hs.walks w hmem).nodup
  have helapsed : ∀ w ∈ s'.walks, w.timedOut = true → w.deadline ≤ s'.clock := by
    obtain ⟨f, w, w', hf, hm, hw, ht⟩ | hw | hw := h.walks ha
    · intro v hv hvt
      rw [hw] at hv
      rcases List.mem_or_eq_of_mem_set hv with hv | rfl
      · exact (hs.elapsed v hv hvt).trans h.clock_le
      · rw [hm.same.2.deadline]
        rcases ht hvt with hwt | hd
        · exact (hs.elapsed w (List.mem_of_getElem? hf) hwt).trans h.clock_le
        · exact hd.trans h.clock_le
    · intro v hv hvt
      exact (hs.elapsed v (hw ▸ hv) hvt).trans h.clock_le
    · intro v hv hvt
      rw [hw] at hv
      obtain ⟨w, -, rfl⟩ := List.mem_map.mp hv
      cases hvt
  -- once there is a result, no walk can move
  have hkept : s'.result = s.result → s'.walks = s.walks ∨ (∃ w ∈ s.walks, w.stage = .collecting) ∨
      s.result = none → ∀ r, s'.result = some r →
        r = .ok (s'.walks.flatMap AfWalk.afFound) ∧ ∀ w ∈ s'.walks, w.stage = .finished := by
    rintro hres hcase r hr
    rw [hres] at hr
    obtain ⟨hr', hover⟩ := hs.result r hr
    rcases hcase with hw | ⟨w, hw, hcol⟩ | hnone
    · rw [hw]
      exact ⟨hr', hover⟩
    · rw [hover w hw] at hcol
      cases hcol
    · rw [hnone] at hr
      cases hr
  refine ⟨hwalks, helapsed, ?_⟩
  cases h with
  | tick => exact hkept rfl (.inl rfl)
  | begins hf hc => exact hkept rfl (.inr (.inl ⟨_, List.mem_of_getElem? hf, hc⟩))
  | enters hf hc => exact hkept rfl (.inr (.inl ⟨_, List.mem_of_getElem? hf, hc⟩))
  | connects hf hc => exact hkept rfl (.inr (.inl ⟨_, List.mem_of_getElem? hf, hc⟩))
  | unwinds => exact hkept rfl (.inl rfl)
  | collects hf hw =>
    exact hkept rfl (.inr (.inl ⟨_, List.mem_of_getElem? hf, (AfWalk.Moves.collects hw).same.1⟩))
  | elapses hf hc => exact hkept rfl (.inr (.inl ⟨_, List.mem_of_getElem? hf, hc⟩))
  | raises hw hst => exact absurd hst ((hs.walks _ hw).quiet _)
  | repeats _ _ _ _ hr => exact hkept rfl (.inr (.inr hr))
  | returns hover =>
    rintro r hr
    cases hr
    exact ⟨rfl, hover⟩

theorem run_sound (hs : s₀.Sound) (hrun : Machine.run step s₀ as = some s)
    (hnet : ∀ a ∈ as, a.Networked) : s.Sound ∧ s.families = s₀.families := by
  have hI : (fun t : Discovery => t.Sound ∧ t.families = s₀.families) s := by
    apply Machine.run_invariant (P := fun _ a => Act.Networked a) _ ⟨hs, rfl⟩
      (Machine.meets_of_mem (fun a ha _ => hnet a ha) s₀) hrun
    rintro t a u ⟨ht, hfam⟩ ha hstep
    exact ⟨(step_cases hstep).sound ha ht, ((step_cases hstep).families ha).trans hfam⟩
  exact hI

end Discovery

end Sidewire
