import Sidewire.Lib.PyDict

/-! # JSON values

What Python's `json` reads from a file: the values of JSON, with the numbers it
accepts beyond them. Objects are lists of members, looked up by name.
-/

inductive PyFloat
  | finite (q : ℚ)
  | posInf
  | negInf
  | nan
  deriving DecidableEq, Repr

inductive Json
  | null
  | bool (b : Bool)
  | int (n : ℤ)
  | float (x : PyFloat)
  | str (s : String)
  | list (elements : List Json)
  | dict (members : List (String × Json))

namespace Json

def truthy : Json → Bool
  | null => false
  | bool b => b
  | int n => n ≠ 0
  | float x => x ≠ .finite 0
  | str s => s ≠ ""
  | list elements => !elements.isEmpty
  | dict members => !members.isEmpty

/-- `int(v)` for a value with `isinstance(v, int)`, which a `bool` is. -/
def asInt : Json → Option ℤ
  | bool b => some (if b then 1 else 0)
  | int n => some n
  | _ => none

def asStr : Json → Option String
  | str s => some s
  | _ => none

def get? (v : Json) (name : String) : Option Json :=
  match v with
  | dict members => PyDict.lookup name members
  | _ => none

/-- `v.get(name) or 0`. -/
def getOr0 (v : Json) (name : String) : Json :=
  match v.get? name with
  | some w => if w.truthy then w else int 0
  | none => int 0

end Json
