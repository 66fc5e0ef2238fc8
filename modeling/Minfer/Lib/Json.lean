/-
JSON values, as `serde_json` keeps them: an object's members are a map in
key order, and a number is an integer in the 64-bit ranges or the text of
a float.
-/
import Mathlib.Data.List.Basic

namespace Minfer.Lib

/-- A number (`serde_json::Number`). -/
inductive JsonNumber where
  | posInt (n : Nat)
  | negInt (n : Int)
  /-- Neither; its shortest text. -/
  | float (text : List Char)
deriving Repr, DecidableEq

/-- A value (`serde_json::Value`). -/
inductive Json where
  | null
  | bool (b : Bool)
  | number (n : JsonNumber)
  | string (s : List Char)
  | array (xs : List Json)
  | object (members : List (List Char × Json))

namespace Json

/-- `as_u64`. -/
def asU64 : Json → Option Nat
  | number (.posInt n) => some n
  | _ => none

/-- `as_i64`. -/
def asI64 : Json → Option Int
  | number (.posInt n) => if n < 9223372036854775808 then some n else none
  | number (.negInt n) => some n
  | _ => none

/-- `as_str`. -/
def asStr : Json → Option (List Char)
  | string s => some s
  | _ => none

/-- `as_object`. -/
def asObject : Json → Option (List (List Char × Json))
  | object members => some members
  | _ => none

/-- `as_array`. -/
def asArray : Json → Option (List Json)
  | array xs => some xs
  | _ => none

/-- `get`: a member of an object. -/
def get (v : Json) (key : String) : Option Json :=
  match v with
  | object members => members.lookup key.toList
  | _ => none

end Json
end Minfer.Lib
