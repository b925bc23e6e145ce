import Nonlocal.Json.Number
import Nonlocal.Json.StringLiteral

/-!
From a text to its JSON document.

Reading goes from the left and takes at least one character for each part, so the length of the text
bounds the number of parts. Where it cannot go on, the answer carries no rest.
-/

namespace Nonlocal.Json

/-- The four blanks of JSON. -/
def isSpace (c : Char) : Bool :=
  c == ' ' || c == '\n' || c == '\t' || c == '\r'

/-- The text from its first character that is no blank. -/
def dropSpace (cs : List Char) : List Char :=
  cs.dropWhile isSpace

namespace Document

/-- Reads the letters of a word after its first one. -/
def readWord (word : Document) : (letters : List Char) → List Char → Document × Option (List Char)
  | [], rest => (word, some rest)
  | _ :: _, [] => (.misspelt .endInValue, none)
  | l :: letters, c :: rest =>
    if c = l then readWord word letters rest else (.misspelt .wordExpected, none)

mutual

/-- Reads a value. -/
def readValue : (fuel : Nat) → List Char → Document × Option (List Char)
  | 0, _ => (.absent .endInValue, none)
  | fuel + 1, cs =>
    match dropSpace cs with
    | [] => (.absent .endInValue, none)
    | 'n' :: rest => readWord .null ['u', 'l', 'l'] rest
    | 't' :: rest => readWord (.boolean true) ['r', 'u', 'e'] rest
    | 'f' :: rest => readWord (.boolean false) ['a', 'l', 's', 'e'] rest
    | '"' :: rest =>
      let (leaf, rest) := StringLiteral.read rest
      (.string leaf, rest)
    | '[' :: rest =>
      match dropSpace rest with
      | [] => (.list [] .ended, none)
      | ']' :: rest => (.list [] .closed, some rest)
      | rest => readItems fuel rest []
    | '\x7b' :: rest => readEntries fuel (dropSpace rest) [] true
    | c :: rest =>
      if c = '-' ∨ c.isDigit then
        let (leaf, rest) := NumberParts.read (c :: rest)
        (.number leaf, rest)
      else (.misspelt .valueExpected, none)

/-- Reads the items of a list from the start of one of them; `acc` holds the items before it, the
last one first. -/
def readItems : (fuel : Nat) → List Char → List Document → Document × Option (List Char)
  | 0, _, acc => (.list acc.reverse .ended, none)
  | fuel + 1, cs, acc =>
    let (item, rest) := readValue fuel cs
    let acc := item :: acc
    match rest.map dropSpace with
    | none | some [] => (.list acc.reverse .ended, none)
    | some (']' :: rest) => (.list acc.reverse .closed, some rest)
    | some (',' :: rest) =>
      match dropSpace rest with
      | ']' :: _ => (.list acc.reverse .commaClosed, none)
      | rest => readItems fuel rest acc
    | some _ => (.list acc.reverse .unseparated, none)

/-- Reads the entries of an object from where a key has to stand; only the first entry may be
missing. -/
def readEntries : (fuel : Nat) → List Char → List (Leaf String × Document) → (first : Bool) →
    Document × Option (List Char)
  | 0, _, acc, _ => (.object acc.reverse .ended, none)
  | _ + 1, [], acc, first => (.object acc.reverse (if first then .ended else .commaEnded), none)
  | _ + 1, '\x7d' :: rest, acc, first =>
    if first then (.object acc.reverse .closed, some rest)
    else (.object acc.reverse .commaClosed, none)
  | fuel + 1, '"' :: rest, acc, _ =>
    let (key, rest) := StringLiteral.read rest
    match rest.map dropSpace with
    | none | some [] => (.object ((key, .absent .endInObject) :: acc).reverse .ended, none)
    | some (':' :: rest) =>
      let (value, rest) := readValue fuel rest
      let acc := (key, value) :: acc
      match rest.map dropSpace with
      | none | some [] => (.object acc.reverse .ended, none)
      | some ('\x7d' :: rest) => (.object acc.reverse .closed, some rest)
      | some (',' :: rest) => readEntries fuel (dropSpace rest) acc false
      | some _ => (.object acc.reverse .unseparated, none)
    | some _ => (.object ((key, .absent .colonExpected) :: acc).reverse .unseparated, none)
  | _ + 1, _ :: _, acc, _ => (.object acc.reverse .unkeyed, none)

end

/-- The document at the start of a text, and what follows it. -/
def read (text : String) : Document × Option (List Char) :=
  let cs := text.toList
  readValue (2 * cs.length + 1) cs

end Document

/-- Reads a text with a decoder. Only blanks may follow the value. -/
def decodeText {α : Type} (decode : Document → Except Fault α) (text : String) :
    Except Fault α := do
  let (document, rest) := Document.read text
  let value ← decode document
  match (rest.getD []).dropWhile isSpace with
  | [] => return value
  | _ => throw .trailingCharacters

end Nonlocal.Json
