import Sidewire.Discovery.Walk
import Sidewire.Lib.Fallible
import Sidewire.Lib.Json
import Sidewire.Lib.KeySort

/-! # The hint cache file

One JSON file for all nodes of a host, an entry for each public key. The writer
and the reader make the same checks on a broker; the time stamp, which the
writer sets, is converted by the reader without one.
-/

namespace Sidewire

/-- What loading raises: the errors of `int()`, and `RecursionError`, which the JSON helper lets
through. -/
inductive LoadError
  | valueError
  | typeError
  | overflowError
  | recursionError
  deriving DecidableEq, Repr

/-- `int(v)`. Which strings it reads is the interpreter's: its Unicode digits, and its limit on
their number. -/
def toInt (intOfStr : String → Except LoadError ℤ) : Json → Except LoadError ℤ
  | .bool b => .ok (if b then 1 else 0)
  | .int n => .ok n
  | .float (.finite q) => .ok (pyInt q)
  | .float .nan => .error .valueError
  | .float .posInf | .float .negInf => .error .overflowError
  | .str s => intOfStr s
  | .null | .list _ | .dict _ => .error .typeError

/-- A broker as `load_for` returns it. -/
structure CachedBroker where
  af : ℤ
  host : String
  port : ℤ
  ts : ℤ
  deriving DecidableEq, Repr

/-- The checks on an entry: a dictionary with an integer `af` and `port` and a string `host`. -/
def brokerFields (b : Json) : Option (ℤ × String × ℤ) :=
  match (b.get? "af").bind Json.asInt, (b.get? "host").bind Json.asStr,
    (b.get? "port").bind Json.asInt with
  | some af, some host, some port => some (af, host, port)
  | _, _, _ => none

/-- `load_all`: the file as far as it is an object; `none` is a file that cannot be read. -/
def loadAll (file : Option Json) : List (String × Json) :=
  match file with
  | some (.dict data) => data
  | _ => []

/-- The list under `brokers` in the entry of a key, empty on a miss. -/
def cachedEntries (file : Option Json) (pubKeyHex : String) : List Json :=
  match PyDict.lookup pubKeyHex (loadAll file) with
  | some entry =>
    match entry.get? "brokers" with
    | some (.list brokers) => brokers
    | _ => []
  | none => []

/-- A round of the loop of `load_for`. -/
def readBroker (intOfStr : String → Except LoadError ℤ) (out : List CachedBroker) (b : Json) :
    Except LoadError (List CachedBroker) :=
  match brokerFields b with
  | none => .ok out
  | some (af, host, port) => do
    let ts ← toInt intOfStr (b.getOr0 "ts")
    return out ++ [⟨af, host, port, ts⟩]

/-- `load_for`, where `read` is what `load_json_or_default` does: it returns the value of the file or,
as `none`, the default, or raises. -/
def loadFor (intOfStr : String → Except LoadError ℤ) (read : Except LoadError (Option Json))
    (pubKeyHex : String) : Except LoadError (List CachedBroker) := do
  let file ← read
  let out ← (cachedEntries file pubKeyHex).foldlM (readBroker intOfStr) []
  return KeySort.byKey (fun b => OrderDual.toDual b.ts) out

def serialisable (brokers : List Json) (now : ℚ) : List Json :=
  brokers.filterMap fun b => (brokerFields b).map fun (af, host, port) =>
    .dict [("af", .int af), ("host", .str host), ("port", .int port), ("ts", .int (pyInt now))]

/-- `data[pub_key_hex] = {"brokers": serialisable}`. -/
def replaced (data : List (String × Json)) (pubKeyHex : String) (serialisable : List Json) : Json :=
  .dict (PyDict.setEntries pubKeyHex (.dict [("brokers", .list serialisable)]) data)

/-- `store_for`, as the file it leaves. -/
def storeFor (file : Option Json) (pubKeyHex : String) (brokers : List Json) (now : ℚ) :
    Option Json :=
  if brokers.isEmpty || (serialisable brokers now).isEmpty then file
  else some (replaced (loadAll file) pubKeyHex (serialisable brokers now))

/-- A cached broker as the walk reads it; no family has a negative number. -/
def CachedBroker.hint (b : CachedBroker) : Option Hint :=
  if 0 ≤ b.af then some ⟨b.af.toNat, b.host⟩ else none

/-- `Router.start` up to the end of its walk, which is given the cached brokers. -/
def startWalk (intOfStr : String → Except LoadError ℤ) (read : Except LoadError (Option Json))
    (pubKeyHex : String) (walk : List Hint → Except PyExc (List BrokerClient)) :
    Except (LoadError ⊕ PyExc) (List BrokerClient) :=
  match loadFor intOfStr read pubKeyHex with
  | .error e => .error (.inl e)
  | .ok cachedHints => (walk (cachedHints.filterMap CachedBroker.hint)).mapError .inr

def stamped (brokers : List Json) (ts : ℤ) : List CachedBroker :=
  brokers.filterMap fun b => (brokerFields b).map fun (af, host, port) => ⟨af, host, port, ts⟩

def Convertible (intOfStr : String → Except LoadError ℤ) : Json → Prop
  | .bool _ | .int _ | .float (.finite _) => True
  | .str s => ∃ n, intOfStr s = .ok n
  | _ => False

/-- Every broker of the key that passes the checks has a time stamp that is missing, false or
convertible. -/
def Loadable (intOfStr : String → Except LoadError ℤ) (file : Option Json) (pubKeyHex : String) :
    Prop :=
  ∀ b ∈ cachedEntries file pubKeyHex, (brokerFields b).isSome →
    ∀ ts, b.get? "ts" = some ts → ts.truthy = true → Convertible intOfStr ts

section Load

variable {intOfStr : String → Except LoadError ℤ} {file : Option Json}
  {read : Except LoadError (Option Json)} {pubKeyHex : String} {b v : Json} {bs : List Json}
  {out : List CachedBroker} {now : ℚ}

theorem exists_toInt_iff : (∃ n, toInt intOfStr v = .ok n) ↔ Convertible intOfStr v := by
  cases v with
  | float x => cases x <;> simp [toInt, Convertible]
  | _ => simp [toInt, Convertible]

theorem exists_toInt_getOr0_iff (b : Json) : (∃ n, toInt intOfStr (b.getOr0 "ts") = .ok n) ↔
    ∀ ts, b.get? "ts" = some ts → ts.truthy = true → Convertible intOfStr ts := by
  rw [exists_toInt_iff, Json.getOr0]
  cases b.get? "ts" with
  | none => simp [Convertible]
  | some ts =>
    by_cases ht : ts.truthy = true
    · simp [ht]
    · simp [ht, Convertible]

theorem exists_foldlM_readBroker_iff (bs : List Json) (out : List CachedBroker) :
    (∃ rs, bs.foldlM (readBroker intOfStr) out = .ok rs) ↔
      ∀ b ∈ bs, (brokerFields b).isSome → ∃ n, toInt intOfStr (b.getOr0 "ts") = .ok n := by
  induction bs generalizing out with
  | nil => simp [pure, Except.pure]
  | cons b bs ih =>
    rw [List.foldlM_cons, List.forall_mem_cons]
    cases hb : brokerFields b with
    | none =>
      have hround : readBroker intOfStr out b = .ok out := by rw [readBroker, hb]
      rw [hround]
      simp only [Option.isSome_none, Bool.false_eq_true, false_implies, true_and]
      exact ih out
    | some fields =>
      obtain ⟨af, host, port⟩ := fields
      cases hts : toInt intOfStr (b.getOr0 "ts") with
      | error e =>
        have hround : readBroker intOfStr out b = .error e := by
          rw [readBroker, hb]
          simp only [hts]
          rfl
        rw [hround]
        constructor
        · rintro ⟨rs, h⟩
          cases h
        · rintro ⟨h, -⟩
          obtain ⟨n, hn⟩ := h rfl
          cases hn
      | ok ts =>
        have hround : readBroker intOfStr out b = .ok (out ++ [⟨af, host, port, ts⟩]) := by
          rw [readBroker, hb]
          simp only [hts]
          rfl
        rw [hround]
        simp only [Except.ok.injEq, exists_eq', implies_true, true_and]
        exact ih _

theorem loadFor_eq (intOfStr : String → Except LoadError ℤ) (file : Option Json)
    (pubKeyHex : String) : loadFor intOfStr (.ok file) pubKeyHex =
      ((cachedEntries file pubKeyHex).foldlM (readBroker intOfStr) []).map
        (KeySort.byKey fun b => OrderDual.toDual b.ts) := by
  simp only [loadFor, bind, Except.bind]
  cases (cachedEntries file pubKeyHex).foldlM (readBroker intOfStr) [] <;> rfl

theorem exists_loadFor_ok_iff :
    (∃ out, loadFor intOfStr (.ok file) pubKeyHex = .ok out) ↔
      Loadable intOfStr file pubKeyHex := by
  have hround := @exists_foldlM_readBroker_iff intOfStr (cachedEntries file pubKeyHex) []
  simp only [exists_toInt_getOr0_iff] at hround
  rw [Loadable, ← hround, loadFor_eq]
  cases (cachedEntries file pubKeyHex).foldlM (readBroker intOfStr) [] with
  | error e => simp [Except.map]
  | ok rs => simp [Except.map]

theorem exists_loadFor_iff : (∃ out, loadFor intOfStr read pubKeyHex = .ok out) ↔
    ∃ file, read = .ok file ∧ Loadable intOfStr file pubKeyHex := by
  constructor
  · rintro ⟨out, h⟩
    obtain ⟨file, rfl, -⟩ := Fallible.bind_eq_ok.mp h
    exact ⟨file, rfl, exists_loadFor_ok_iff.mp ⟨out, h⟩⟩
  · rintro ⟨file, rfl, h⟩
    exact exists_loadFor_ok_iff.mpr h

theorem pairwise_loadFor (h : loadFor intOfStr read pubKeyHex = .ok out) :
    out.Pairwise fun a b => b.ts ≤ a.ts := by
  obtain ⟨file, rfl, -⟩ := Fallible.bind_eq_ok.mp h
  rw [loadFor_eq] at h
  cases hrs : (cachedEntries file pubKeyHex).foldlM (readBroker intOfStr) [] with
  | error e =>
    rw [hrs] at h
    cases h
  | ok rs =>
    rw [hrs] at h
    cases h
    exact KeySort.pairwise_byKey (fun b : CachedBroker => OrderDual.toDual b.ts) rs

theorem readBroker_stored (out : List CachedBroker) (af : ℤ) (host : String) (port ts : ℤ) :
    readBroker intOfStr out (.dict [("af", .int af), ("host", .str host), ("port", .int port),
      ("ts", .int ts)]) = .ok (out ++ [⟨af, host, port, ts⟩]) := by
  have hts : toInt intOfStr (Json.getOr0 (.dict [("af", .int af), ("host", .str host),
      ("port", .int port), ("ts", .int ts)]) "ts") = .ok ts := by
    by_cases h : ts = 0
    · simp [Json.getOr0, Json.get?, PyDict.lookup, Json.truthy, toInt, h]
    · simp [Json.getOr0, Json.get?, PyDict.lookup, Json.truthy, toInt, h]
  simp only [readBroker, brokerFields, Json.get?, PyDict.lookup, Json.asInt, Json.asStr, hts]
  rfl

theorem foldlM_serialisable (brokers : List Json) (out : List CachedBroker) :
    (serialisable brokers now).foldlM (readBroker intOfStr) out =
      .ok (out ++ stamped brokers (pyInt now)) := by
  induction brokers generalizing out with
  | nil => simp [serialisable, stamped, pure, Except.pure]
  | cons b brokers ih =>
    cases hb : brokerFields b with
    | none =>
      have hser : serialisable (b :: brokers) now = serialisable brokers now := by
        simp [serialisable, hb]
      rw [hser, ih]
      simp [stamped, hb]
    | some fields =>
      obtain ⟨af, host, port⟩ := fields
      have hser : serialisable (b :: brokers) now =
          .dict [("af", .int af), ("host", .str host), ("port", .int port),
            ("ts", .int (pyInt now))] :: serialisable brokers now := by
        simp [serialisable, hb]
      rw [hser, List.foldlM_cons, readBroker_stored]
      exact (ih _).trans (by simp [stamped, hb])

theorem byKey_stamped (brokers : List Json) (ts : ℤ) :
    KeySort.byKey (fun b => OrderDual.toDual b.ts) (stamped brokers ts) = stamped brokers ts := by
  have hts : ∀ b ∈ stamped brokers ts, b.ts = ts := by
    intro b hb
    obtain ⟨a, -, h⟩ := List.mem_filterMap.mp hb
    obtain ⟨⟨af, host, port⟩, -, rfl⟩ := Option.map_eq_some_iff.mp h
    rfl
  apply List.Pairwise.insertionSort_eq
  apply List.pairwise_of_forall_mem_list
  intro a ha b hb
  exact le_of_eq (congrArg OrderDual.toDual ((hts a ha).trans (hts b hb).symm))

theorem loadFor_of_cachedEntries {brokers : List Json}
    (h : cachedEntries file pubKeyHex = serialisable brokers now) :
    loadFor intOfStr (.ok file) pubKeyHex = .ok (stamped brokers (pyInt now)) := by
  rw [loadFor_eq, h, foldlM_serialisable, List.nil_append]
  exact congrArg Except.ok (byKey_stamped brokers (pyInt now))

theorem loadFor_congr {file' : Option Json}
    (h : PyDict.lookup pubKeyHex (loadAll file') = PyDict.lookup pubKeyHex (loadAll file)) :
    loadFor intOfStr (.ok file') pubKeyHex = loadFor intOfStr (.ok file) pubKeyHex := by
  rw [loadFor_eq, loadFor_eq, cachedEntries, cachedEntries, h]

theorem serialisable_ne_nil {brokers : List Json} (h : ∃ b ∈ brokers, (brokerFields b).isSome)
    (now : ℚ) : serialisable brokers now ≠ [] := by
  obtain ⟨b, hb, hsome⟩ := h
  obtain ⟨fields, hfields⟩ := Option.isSome_iff_exists.mp hsome
  intro hnil
  have hmem := List.filterMap_eq_nil_iff.mp hnil b hb
  rw [hfields] at hmem
  cases hmem

theorem storeFor_eq {brokers : List Json} (h : ∃ b ∈ brokers, (brokerFields b).isSome) :
    storeFor file pubKeyHex brokers now =
      some (replaced (loadAll file) pubKeyHex (serialisable brokers now)) := by
  have hser := serialisable_ne_nil h now
  have hne : brokers ≠ [] := by
    rintro rfl
    exact hser rfl
  simp [storeFor, hne, hser]

theorem lookup_replaced (data : List (String × Json)) (key key' : String) (bs : List Json) :
    PyDict.lookup key' (loadAll (some (replaced data key bs))) =
      if key' = key then some (.dict [("brokers", .list bs)]) else PyDict.lookup key' data :=
  PyDict.lookup_setEntries key _ data key'

theorem cachedEntries_replaced (data : List (String × Json)) (key : String) (bs : List Json) :
    cachedEntries (some (replaced data key bs)) key = bs := by
  rw [cachedEntries, lookup_replaced, if_pos rfl]
  rfl

end Load

/-- What is stored for a key is loaded again in its order, stamped; its old entry is gone and those
of the other keys are unchanged. -/
theorem store_load (intOfStr : String → Except LoadError ℤ) (data : List (String × Json))
    (pubKeyHex : String) (brokers : List Json) (now : ℚ)
    (h : ∃ b ∈ brokers, (brokerFields b).isSome) :
    loadFor intOfStr (.ok (storeFor (some (.dict data)) pubKeyHex brokers now)) pubKeyHex =
        .ok (stamped brokers (pyInt now)) ∧
      PyDict.lookup pubKeyHex (loadAll (storeFor (some (.dict data)) pubKeyHex brokers now)) =
        some (.dict [("brokers", .list (serialisable brokers now))]) ∧
      ∀ key, key ≠ pubKeyHex →
        loadFor intOfStr (.ok (storeFor (some (.dict data)) pubKeyHex brokers now)) key =
          loadFor intOfStr (.ok (some (.dict data))) key := by
  rw [storeFor_eq h]
  refine ⟨loadFor_of_cachedEntries (cachedEntries_replaced ..), ?_, ?_⟩
  · rw [lookup_replaced, if_pos rfl]
  · intro key hkey
    apply loadFor_congr
    rw [lookup_replaced, if_neg hkey]

def decimalInt (s : String) : Except LoadError ℤ :=
  match s.toInt? with
  | some n => .ok n
  | none => .error .valueError

def brokerEntry (ts : Json) : Json :=
  .dict [("af", .int 2), ("host", .str "b"), ("port", .int 1883), ("ts", ts)]

/-- A malformed broker is left out, the others keep their order. -/
theorem store_load_two :
    loadFor decimalInt (.ok (storeFor (some (.dict [("k", .null), ("l", .null)])) "k"
      [brokerEntry .null, .str "b", brokerEntry (.int 9)] 7)) "k" =
        .ok (stamped [brokerEntry .null, .str "b", brokerEntry (.int 9)] (pyInt 7)) :=
  (store_load decimalInt [("k", .null), ("l", .null)] "k"
    [brokerEntry .null, .str "b", brokerEntry (.int 9)] 7
    ⟨brokerEntry .null, List.mem_cons_self .., rfl⟩).1

/-- Loading raises nothing, and returns the brokers latest first, exactly if the JSON helper returns
and the time stamps of the key's brokers can be converted; a start fails on the cache in every other
case. -/
theorem load_for_iff (intOfStr : String → Except LoadError ℤ)
    (read : Except LoadError (Option Json)) (pubKeyHex : String)
    (walk : List Hint → Except PyExc (List BrokerClient)) :
    ((∃ out, loadFor intOfStr read pubKeyHex = .ok out ∧ out.Pairwise fun a b => b.ts ≤ a.ts) ↔
      ∃ file, read = .ok file ∧ Loadable intOfStr file pubKeyHex) ∧
    ((∀ e, startWalk intOfStr read pubKeyHex walk ≠ .error (.inl e)) ↔
      ∃ file, read = .ok file ∧ Loadable intOfStr file pubKeyHex) := by
  rw [← exists_loadFor_iff]
  constructor
  · constructor
    · rintro ⟨out, h, -⟩
      exact ⟨out, h⟩
    · rintro ⟨out, h⟩
      exact ⟨out, h, pairwise_loadFor h⟩
  · cases hload : loadFor intOfStr read pubKeyHex with
    | error e => simp [startWalk, hload]
    | ok out =>
      simp only [startWalk, hload, Except.ok.injEq, exists_eq', iff_true]
      cases walk (out.filterMap CachedBroker.hint) <;> simp [Except.mapError]

def cacheFile (ts : Json) : Json := .dict [("k", .dict [("brokers", .list [brokerEntry ts])])]

/-- An infinite time stamp makes loading raise, and the start with it; and so does a file that the
JSON helper does not get through. -/
theorem load_for_raises :
    (¬ ∃ out, loadFor decimalInt (.ok (some (cacheFile (.float .posInf)))) "k" = .ok out) ∧
    startWalk decimalInt (.ok (some (cacheFile (.float .posInf)))) "k" (fun _ => .ok []) =
      .error (.inl .overflowError) ∧
    ¬ ∃ out, loadFor decimalInt (.error .recursionError) "k" = .ok out := by
  have hload : loadFor decimalInt (.ok (some (cacheFile (.float .posInf)))) "k" =
      .error .overflowError := rfl
  refine ⟨?_, ?_, ?_⟩
  · rintro ⟨out, h⟩
    rw [hload] at h
    cases h
  · rw [startWalk, hload]
  · rintro ⟨out, h⟩
    cases h

end Sidewire
