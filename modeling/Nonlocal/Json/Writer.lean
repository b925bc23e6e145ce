import Nonlocal.Json.Fault
import Nonlocal.Json.Value

/-!
JSON values as text, on one line or with one item to a line.
-/

namespace Nonlocal.Json

/-- A character of a string between quotes. -/
def escapeChar (c : Char) : List Char :=
  match c with
  | '"' => ['\\', '"']
  | '\\' => ['\\', '\\']
  | '\n' => ['\\', 'n']
  | '\r' => ['\\', 'r']
  | '\t' => ['\\', 't']
  | '\x08' => ['\\', 'b']
  | '\x0c' => ['\\', 'f']
  | c =>
    if c.toNat < 0x20 then
      ['\\', 'u', '0', '0', (if c.toNat < 0x10 then '0' else '1'), Nat.digitChar (c.toNat % 16)]
    else [c]

/-- A string between quotes. -/
def stringText (s : String) : String :=
  String.ofList ('"' :: s.toList.flatMap escapeChar ++ ['"'])

/-- A line break and the indentation of a level. -/
def lineBreak (level : Nat) : String :=
  String.ofList ('\n' :: List.replicate (2 * level) ' ')

mutual

/-- A value on one line, without blanks. -/
def compact : Json → String
  | .null => "null"
  | .boolean b => if b then "true" else "false"
  | .integer n => toString n
  | .decimal x => numberText x
  | .string s => stringText s
  | .array items => "[" ++ ",".intercalate (compactItems items) ++ "]"
  | .object entries => "\x7b" ++ ",".intercalate (compactEntries entries) ++ "\x7d"

/-- The items of an array, each on one line. -/
def compactItems : List Json → List String
  | [] => []
  | v :: rest => compact v :: compactItems rest

/-- The entries of an object, each on one line. -/
def compactEntries : List (String × Json) → List String
  | [] => []
  | (key, v) :: rest => (stringText key ++ ":" ++ compact v) :: compactEntries rest

end

mutual

/-- A value with each item and each entry on a line of its own, indented by two blanks a level. -/
def pretty (level : Nat) : Json → String
  | .null => "null"
  | .boolean b => if b then "true" else "false"
  | .integer n => toString n
  | .decimal x => numberText x
  | .string s => stringText s
  | .array [] => "[]"
  | .array (v :: rest) =>
    "[" ++ lineBreak (level + 1)
      ++ ("," ++ lineBreak (level + 1)).intercalate
        (pretty (level + 1) v :: prettyItems (level + 1) rest)
      ++ lineBreak level ++ "]"
  | .object [] => "\x7b\x7d"
  | .object ((key, v) :: rest) =>
    "\x7b" ++ lineBreak (level + 1)
      ++ ("," ++ lineBreak (level + 1)).intercalate
        ((stringText key ++ ": " ++ pretty (level + 1) v) :: prettyEntries (level + 1) rest)
      ++ lineBreak level ++ "\x7d"

/-- The items of an array at a level. -/
def prettyItems (level : Nat) : List Json → List String
  | [] => []
  | v :: rest => pretty level v :: prettyItems level rest

/-- The entries of an object at a level. -/
def prettyEntries (level : Nat) : List (String × Json) → List String
  | [] => []
  | (key, v) :: rest =>
    (stringText key ++ ": " ++ pretty level v) :: prettyEntries level rest

end

end Nonlocal.Json
