import Nonlocal.Toml.Lexeme
import Nonlocal.Toml.Scalar
import Nonlocal.Toml.Table

/-!
From a TOML text to its document.

A text consists of lines: headers, and keys with their values. A list can stretch over lines, a table
that is written as a value cannot. Each part takes at least one character, so the length of the text
bounds the number of parts.
-/

namespace Nonlocal.Toml

open Json

mutual

/-- Reads a value that stands inside `depth` lists and tables. -/
def readValue (depth : Nat) : (fuel : Nat) → List Char → Reading Document
  | 0, _ => none
  | fuel + 1, cs =>
    match cs with
    | '[' :: rest =>
      if depth < maxDepth then readItems (depth + 1) fuel [] (dropGap false rest) else none
    | '\x7b' :: rest =>
      if depth < maxDepth then
        match dropBlanks rest with
        | '\x7d' :: rest => some (Entries.document [], rest)
        | rest => readFields (depth + 1) fuel [] rest
      else none
    | '"' :: _ | '\'' :: _ => (readText? cs).map fun (s, rest) => (.string (.pure s), rest)
    | cs => readScalar? cs

/-- Reads the items of a list that are left; `acc` holds the items before, the last one first. A
comma may follow the last item. -/
def readItems (depth : Nat) : (fuel : Nat) → (acc : List Document) → List Char → Reading Document
  | 0, _, _ => none
  | _ + 1, acc, ']' :: rest => some (.list acc.reverse .lenient, rest)
  | fuel + 1, acc, cs =>
    match readValue depth fuel cs with
    | none => none
    | some (item, rest) =>
      match dropGap false rest with
      | ',' :: rest => readItems depth fuel (item :: acc) (dropGap false rest)
      | ']' :: rest => some (.list (item :: acc).reverse .lenient, rest)
      | _ => none

/-- Reads the fields of a table that are left; `entries` holds the fields before. -/
def readFields (depth : Nat) : (fuel : Nat) → (entries : Entries) → List Char → Reading Document
  | 0, _, _ => none
  | fuel + 1, entries, cs =>
    match readKey? cs with
    | some ((path, key), '=' :: rest) =>
      match readValue depth fuel (dropBlanks rest) with
      | none => none
      | some (d, rest) =>
        match entries.assign path key d, dropBlanks rest with
        | some entries, ',' :: rest => readFields depth fuel entries rest
        | some entries, '\x7d' :: rest => some (entries.document, rest)
        | _, _ => none
    | _ => none

end

/-- What the lines so far amount to: all tables, and the header that is open. -/
structure Progress where
  root : Entries
  header : List String

/-- Reads the lines that are left. -/
def readLines : (fuel : Nat) → Progress → List Char → Option Entries
  | 0, _, _ => none
  | fuel + 1, progress, cs =>
    match dropBlanks cs with
    | [] => some progress.root
    | '[' :: '[' :: rest =>
      match readKey? rest with
      | some ((path, key), ']' :: ']' :: rest) => do
        let root ← progress.root.openElement path key
        readLines fuel ⟨root, path ++ [key]⟩ (← finishLine? rest)
      | _ => none
    | '[' :: rest =>
      match readKey? rest with
      | some ((path, key), ']' :: rest) => do
        let root ← progress.root.openTable path key
        readLines fuel ⟨root, path ++ [key]⟩ (← finishLine? rest)
      | _ => none
    | c :: rest =>
      if c = '#' ∨ c = '\n' ∨ c = '\r' then do
        readLines fuel progress (← finishLine? (c :: rest))
      else
        match readKey? (c :: rest) with
        | some ((path, key), '=' :: rest) => do
          let (d, rest) ← readValue 0 (2 * rest.length + 1) (dropBlanks rest)
          let root ← progress.root.assignUnder progress.header path key d
          readLines fuel { progress with root } (← finishLine? rest)
        | _ => none

/-- The document of a text. A mark of the byte order may stand at the start. -/
def read? (text : String) : Option Document :=
  let cs := match text.toList with
    | '\ufeff' :: cs => cs
    | cs => cs
  (readLines (cs.length + 1) ⟨[], []⟩ cs).map Entries.document

end Nonlocal.Toml
