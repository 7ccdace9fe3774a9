import Mathlib.Data.Nat.Notation
import Mathlib.Data.Int.Notation

/-!
JSON values. Parsing and printing of texts belong to the crate that the server uses for
them and are parameters.
-/

namespace Cusco.JsonValues

inductive Number
  | posInt (n : ℕ)
  | negInt (n : ℤ)
  | float (bits : UInt64)
  deriving DecidableEq

/-- A JSON value; the fields of an object by ascending key. -/
inductive Json
  | null
  | bool (b : Bool)
  | number (n : Number)
  | string (s : String)
  | array (items : List Json)
  | object (fields : List (String × Json))

def natural (n : ℕ) : Json := .number (.posInt n)

def optional : Option String → Json
  | none => .null
  | some s => .string s

/-- `serde_json::from_slice`, `from_str` on the bytes of the string, and `to_string`. -/
structure SerdeJson where
  fromSlice : List UInt8 → Option Json
  fromStr : List UInt8 → Option Json
  toText : Json → String

/-- The value under a key of an object, as `Value::get` finds it. -/
def Json.get (key : String) : Json → Option Json
  | .object fields => (fields.find? (fun field => field.1 = key)).map (fun field => field.2)
  | _ => none

def Json.asStr : Json → Option String
  | .string s => some s
  | _ => none

end Cusco.JsonValues
