import Sidewire.Mqtt.AppProto
import Mathlib.Data.List.Sort

/-! # The dispatcher

`iter_all_messages` is a lazy generator over three nested dictionaries, driven
by a loop that is suspended at every publication. Its state is explicit here:
what is left of the snapshots it took, and the queue object it is inside. Each
step of the generator reads the tables as they are by then.
-/

namespace Sidewire

variable {KP : Type}

/-- A suspended `iter_all_messages`. -/
structure Gen where
  types : List MsgEnum
  msgType : MsgEnum
  queueIds : List String
  queueIdHex : String
  ident : ℕ
  seqNos : List ℤ
  deriving DecidableEq

inductive GenStep
  | move (g : Gen)
  | yield (s : ℤ) (m : Meta) (g : Gen)
  | stop
  | raise (e : PyExc)

namespace Gen

def start : Gen := ⟨MsgEnum.order, .msg, [], "", 0, []⟩

def next (g : Gen) (c : MQTTClient KP) : GenStep :=
  match g.seqNos with
  | s :: seqNos =>
    match (c.queueObject g.msgType g.queueIdHex g.ident).get? s with
    | none => .move { g with seqNos }
    | some m => .yield s m { g with seqNos }
  | [] =>
    match g.queueIds with
    | q :: queueIds =>
      match c.queue g.msgType q with
      | none => .raise (.keyError q)
      | some d =>
        .move { g with
          queueIds, queueIdHex := q, ident := d.ident
          seqNos := d.metas.keys.insertionSort (· ≤ ·) }
    | [] =>
      match g.types with
      | t :: types => .move { g with types, msgType := t, queueIds := (c.msgQueues t).keys }
      | [] => .stop

end Gen

inductive Exit
  | closed
  | cancelled
  | raised (e : PyExc)
  deriving DecidableEq

/-- Where a dispatcher stands. It holds the event loop only while `walking`. -/
inductive DispatchPc
  | reconnecting
  | walking (now : ℚ) (g : Gen)
  | publishing (now : ℚ) (g : Gen)
  | sleeping (now : ℚ)
  | pinging (now : ℚ)
  | finished (why : Exit)
  deriving DecidableEq

def DispatchPc.startedAt : DispatchPc → Option ℚ
  | .walking now _ | .publishing now _ | .sleeping now | .pinging now => some now
  | .reconnecting | .finished _ => none

/-- A number as a caller gives it. Python multiplies integers exactly, and turns an integer into a
float to multiply it with one. -/
inductive PyNum
  | int (n : ℤ)
  | float (q : ℚ)
  deriving DecidableEq

namespace PyNum

def value : PyNum → ℚ
  | int n => n
  | float q => q

def floatLimit : ℕ := 2 ^ 1024 - 2 ^ 970

/-- No integer is too large for a float: `2**attempts` where a float interval is multiplied with
it, nor the product where `random.uniform` scales one below zero. -/
def Scalable (x : PyNum) (attempts : ℕ) : Prop :=
  match x with
  | int n => 0 ≤ n ∨ -(floatLimit : ℤ) < n * (2 ^ attempts : ℕ)
  | float _ => attempts < 1024

instance (x : PyNum) (attempts : ℕ) : Decidable (x.Scalable attempts) := by
  cases x <;> unfold Scalable <;> infer_instance

end PyNum

structure Dispatcher where
  republishDuration : ℚ
  interval : PyNum
  keepAlive : ℚ
  ignoreAcked : Bool
  lastPing : ℚ
  pc : DispatchPc

def currentBackoff (interval : PyNum) (republishDuration : ℚ) (attempts : ℕ) : Except PyExc ℚ :=
  if interval.Scalable attempts then
    .ok (min (interval.value * 2 ^ attempts) (min 60 republishDuration))
  else .error (.overflowError "int too large to convert to float")

inductive Republish (KP : Type)
  | skip
  | published (c : MQTTClient KP)
  | raised (e : PyExc) (c : MQTTClient KP)

/-- `republish_meta`, given the jitter that `random.uniform` drew; `none` where it cannot
draw it. -/
def republishMeta (A : Aio KP) (d : Dispatcher) (g : Gen) (now draw : ℚ) (s : ℤ) (m : Meta)
    (c : MQTTClient KP) : Option (Republish KP) :=
  if m.probeOneShot then some .skip
  else if d.ignoreAcked && c.done m then some .skip
  else
    match currentBackoff d.interval d.republishDuration m.attempts with
    | .error e => some (.raised e c)
    | .ok backoff =>
      if draw < min 0 backoff ∨ max 0 backoff < draw then none
      else if now - m.updated < draw then some .skip
      else if d.republishDuration ≤ now - m.created then some .skip
      else
        let m' : Meta := { m with updated := now, attempts := m.attempts + 1 }
        let c' := c.putMeta g.msgType g.queueIdHex g.ident s m'
        match (MQTTClient.publish A m.destPkHex m.out >>= MQTTClient.safePipeSend) c' with
        | .ok _ c'' => some (.published c'')
        | .error e c'' => some (.raised e c'')

/-- One step of the walk over the queued messages: to another point of the walk, to the
publication of a message, or out of it. -/
def walkStep (A : Aio KP) (d : Dispatcher) (now draw : ℚ) (g : Gen) (c : MQTTClient KP) :
    Option (DispatchPc × MQTTClient KP) :=
  match g.next c with
  | .move g' => some (.walking now g', c)
  | .stop => some (.sleeping now, c)
  | .raise e => some (.finished (.raised e), c)
  | .yield s m g' =>
    if c.pipeAlive = false then some (.sleeping now, c)
    else
      match republishMeta A d g now draw s m c with
      | none => none
      | some .skip => some (.walking now g', c)
      | some (.published c') => some (.publishing now g', c')
      | some (.raised e c') => some (.finished (.raised e), c')

/-- `prune_msg_ids` on one table. -/
def pruneTable (ttl now : ℚ) (ids : PyDict String ℚ) : PyDict String ℚ :=
  ids.filter fun _ created => ¬ ttl < now - created

end Sidewire
