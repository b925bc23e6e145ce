/-!
JSON values.

Whole numbers within 64 bits, signed or not, are kept apart from numbers with a fraction or an
exponent, since a record distinguishes counts from measurements. The entries of an object keep their
order.
-/

namespace Nonlocal

/-- A JSON value. -/
inductive Json where
  | null
  | boolean (b : Bool)
  | integer (n : Int)
  | decimal (x : Float)
  | string (s : String)
  | array (items : List Json)
  | object (entries : List (String × Json))
  deriving Inhabited

namespace Json

/-- A measurement as a value. Numbers that are not finite cannot be written and become null. -/
def ofFloat (x : Float) : Json :=
  if x.isFinite then .decimal x else .null

/-- A 64-bit count as a value. -/
def ofWord (n : UInt64) : Json :=
  .integer n.toNat

/-- A list as a value. -/
def ofList {α : Type} (f : α → Json) (xs : List α) : Json :=
  .array (xs.map f)

/-- An optional part as a value; null stands for a missing one. -/
def ofOption {α : Type} (f : α → Json) : Option α → Json
  | some x => f x
  | none => .null

/-- Sets an entry: the value of a known key is replaced in its place, a new key comes last. -/
def setEntry (key : String) (value : Json) : List (String × Json) → List (String × Json)
  | [] => [(key, value)]
  | (k, v) :: rest => if k = key then (k, value) :: rest else (k, v) :: setEntry key value rest

/-- The value of a field of an object. -/
def get? : Json → String → Option Json
  | .object entries, key => entries.lookup key
  | _, _ => none

end Json

end Nonlocal
