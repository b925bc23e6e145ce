import Nonlocal.Json.Document
import Nonlocal.Text.Digit

/-!
Strings in a JSON text.

Between the quotes stand characters and escapes. An escape of four hexadecimal digits names a UTF-16
unit; the units of a character outside the basic plane come as two escapes in a row. When a string is
passed over only the form of its escapes matters, not whether the units pair up.
-/

namespace Nonlocal.Json.StringLiteral

/-- A piece between the quotes. -/
inductive Piece where
  | char (c : Char)
  | unit (n : Nat)

/-- How the pieces of a string end. -/
inductive Stop where
  /-- With the closing quote, and the text after it. -/
  | closed (rest : List Char)
  /-- With the end of the text. -/
  | ended
  /-- With a control character. -/
  | control
  /-- With an escape that is not known. -/
  | unknownEscape
  /-- With an escape whose digits are not hexadecimal. -/
  | badDigits

/-- The fault of an end without closing quote. -/
def Stop.fault? : Stop → Option Fault
  | .closed _ => none
  | .ended => some .endInString
  | .control => some .controlCharacter
  | .unknownEscape | .badDigits => some .escapeInvalid

/-- The character of an escape with one letter. -/
def simpleEscape? : Char → Option Char
  | '"' => some '"'
  | '\\' => some '\\'
  | '/' => some '/'
  | 'b' => some '\x08'
  | 'f' => some '\x0c'
  | 'n' => some '\n'
  | 'r' => some '\r'
  | 't' => some '\t'
  | _ => none

/-- The number of bytes of the characters in UTF-8. -/
def byteCount (cs : List Char) : Nat :=
  cs.foldl (fun n c => n + c.utf8Size) 0

/-- The pieces of a string from after its opening quote. The four digits of an escape are looked for
in four bytes, so fewer bytes are the end of the text. -/
def pieces : List Char → List Piece → List Piece × Stop
  | [], acc => (acc.reverse, .ended)
  | '"' :: rest, acc => (acc.reverse, .closed rest)
  | '\\' :: 'u' :: a :: b :: c :: d :: rest, acc =>
    match Text.hexValue? [a, b, c, d] with
    | some n => pieces rest (.unit n :: acc)
    | none => (acc.reverse, .badDigits)
  | '\\' :: 'u' :: few, acc =>
    (acc.reverse, if byteCount few < 4 then .ended else .badDigits)
  | '\\' :: c :: rest, acc =>
    match simpleEscape? c with
    | some e => pieces rest (.char e :: acc)
    | none => (acc.reverse, .unknownEscape)
  | ['\\'], acc => (acc.reverse, .ended)
  | c :: rest, acc =>
    if c.toNat < 0x20 then (acc.reverse, .control) else pieces rest (.char c :: acc)

/-- Is this the first unit of a pair? -/
def isLeading (n : Nat) : Bool := 0xd800 ≤ n && n ≤ 0xdbff

/-- Is this the second unit of a pair? -/
def isTrailing (n : Nat) : Bool := 0xdc00 ≤ n && n ≤ 0xdfff

/-- The fault of a leading unit after which the string stops. -/
def unpaired : Stop → Fault
  | .ended => .endInString
  | .badDigits => .escapeInvalid
  | _ => .escapeUnfinished

/-- Joins the pieces to characters. -/
def join (stop : Stop) : List Piece → List Char → Except Fault (List Char)
  | [], acc =>
    match stop.fault? with
    | some fault => .error fault
    | none => .ok acc.reverse
  | .char c :: rest, acc => join stop rest (c :: acc)
  | .unit n :: rest, acc =>
    if isTrailing n then .error .surrogateAlone
    else if !isLeading n then join stop rest (Char.ofNat n :: acc)
    else
      match rest with
      | .unit m :: rest =>
        if isTrailing m then
          join stop rest (Char.ofNat (0x10000 + (n - 0xd800) * 0x400 + (m - 0xdc00)) :: acc)
        else .error .surrogateAlone
      | .char _ :: _ => .error .escapeUnfinished
      | [] => .error (unpaired stop)

/-- Reads a string from after its opening quote; the answer holds what follows it, unless it breaks
off. -/
def read (cs : List Char) : Leaf String × Option (List Char) :=
  let (ps, stop) := pieces cs []
  let value := (join stop ps []).map String.ofList
  match stop with
  | .closed rest => (⟨value, .ok ()⟩, some rest)
  | stop => (⟨value, .error (stop.fault?.getD .endInString)⟩, none)

end Nonlocal.Json.StringLiteral
