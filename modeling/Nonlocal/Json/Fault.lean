import Nonlocal.Decimal.Shortest
import Nonlocal.Text.Quoted

/-!
What can be wrong with a JSON text: faults of its syntax, and values that are not of the kind that
a reader asks for.
-/

namespace Nonlocal.Json

/-- The shortest text of a number in JSON: positional from `0.00001` up to below `10 ^ 16`, always
with a point, and with a signed exponent outside that range. -/
def numberText (x : Float) : String :=
  match Binary64.ofFloat x with
  | .nan | .infinite _ => "null"
  | .finite negative m e =>
    let sign := if negative then "-" else ""
    if m = 0 then sign ++ "0.0"
    else
      let d := Decimal.shortestOf m e
      let digits := Nat.toDigits 10 d.digits
      let k := d.exponent + digits.length - 1
      if -5 ≤ k ∧ k < 16 then
        sign ++ d.positional ++ if d.exponent < 0 then "" else ".0"
      else
        let mantissa := Decimal.withPoint (digits.length - 1) digits
        sign ++ mantissa ++ "e" ++ (if k < 0 then "" else "+") ++ toString k

/-- The kind of value that was met where another one was asked for. -/
inductive Found where
  | null
  | boolean (b : Bool)
  | integer (n : Int)
  | decimal (x : Float)
  | string (s : String)
  | sequence
  | mapping

/-- A value in the words of a message. -/
def Found.text : Found → String
  | .null => "null"
  | .boolean b => s!"boolean `{b}`"
  | .integer n => s!"integer `{n}`"
  | .decimal x => s!"floating point `{numberText x}`"
  | .string s => s!"string {Text.quoted s}"
  | .sequence => "sequence"
  | .mapping => "map"

/-- A fault of a text or of its content. -/
inductive Fault where
  | endInValue
  | endInList
  | endInObject
  | endInString
  | colonExpected
  | listSeparatorExpected
  | objectSeparatorExpected
  | wordExpected
  | valueExpected
  | keyExpected
  | trailingComma
  | trailingCharacters
  | escapeInvalid
  | escapeUnfinished
  | surrogateAlone
  | controlCharacter
  | numberInvalid
  | numberOutOfRange
  | tooDeep
  | wrongType (found : Found) (expected : String)
  | wrongValue (found : Found) (expected : String)
  | wrongLength (length : Nat) (expected : String)
  | fieldMissing (name : String)
  | fieldRepeated (name : String)
  | variantUnknown (name : String) (known : List String)
  | axisIncomplete (name : String)

/-- A list of alternatives in the words of a message. -/
def alternatives (names : List String) : String :=
  match names.map fun name => s!"`{name}`" with
  | [] => "there are no variants"
  | [a] => s!"expected {a}"
  | [a, b] => s!"expected {a} or {b}"
  | quoted => "expected one of " ++ ", ".intercalate quoted

/-- The message of a fault. -/
def Fault.message : Fault → String
  | .endInValue => "EOF while parsing a value"
  | .endInList => "EOF while parsing a list"
  | .endInObject => "EOF while parsing an object"
  | .endInString => "EOF while parsing a string"
  | .colonExpected => "expected `:`"
  | .listSeparatorExpected => "expected `,` or `]`"
  | .objectSeparatorExpected => "expected `,` or `\x7d`"
  | .wordExpected => "expected ident"
  | .valueExpected => "expected value"
  | .keyExpected => "key must be a string"
  | .trailingComma => "trailing comma"
  | .trailingCharacters => "trailing characters"
  | .escapeInvalid => "invalid escape"
  | .escapeUnfinished => "unexpected end of hex escape"
  | .surrogateAlone => "lone leading surrogate in hex escape"
  | .controlCharacter => "control character (\\u0000-\\u001F) found while parsing a string"
  | .numberInvalid => "invalid number"
  | .numberOutOfRange => "number out of range"
  | .tooDeep => "recursion limit exceeded"
  | .wrongType found expected => s!"invalid type: {found.text}, expected {expected}"
  | .wrongValue found expected => s!"invalid value: {found.text}, expected {expected}"
  | .wrongLength length expected => s!"invalid length {length}, expected {expected}"
  | .fieldMissing name => s!"missing field `{name}`"
  | .fieldRepeated name => s!"duplicate field `{name}`"
  | .variantUnknown name known => s!"unknown variant `{name}`, {alternatives known}"
  | .axisIncomplete name => s!"projection axis `{name}` lacks a vector or norm"

end Nonlocal.Json
