import Nonlocal.Json.Document

/-!
The tables of a TOML text.

A table comes to be in one of three ways, and that decides who may add to it: a table is opened by a
header once, dotted keys add to tables that dotted keys made, and nothing adds to a table that was
written as a value. Every operation here is none where the text is not allowed to go on.
-/

namespace Nonlocal.Toml

open Json

/-- How a table came to be. -/
inductive Origin where
  /-- By its own header. -/
  | header
  /-- On the way to the table of a longer header. -/
  | passage
  /-- By a dotted key. -/
  | dotted
  deriving DecidableEq

/-- What a key of a table stands for. -/
inductive Item where
  | value (d : Document)
  | table (origin : Origin) (entries : List (String × Item))
  /-- Tables with headers of one name, in order. -/
  | tables (elements : List (List (String × Item)))

/-- The keys of a table, in the order in which they came up. -/
abbrev Entries := List (String × Item)

namespace Entries

/-- Sets what a key stands for; a new key comes last. -/
def put (key : String) (item : Item) : Entries → Entries
  | [] => [(key, item)]
  | (k, old) :: rest => if k = key then (k, item) :: rest else (k, old) :: put key item rest

/-- Changes the table at the end of a path, with what is known of its origin. Tables that are
missing on the way are made; of several tables of a name the last one is meant. A dotted key does
not lead through a table that has a header. -/
def changeAt (dotted : Bool) (change : Origin → Entries → Option Entries) (origin : Origin) :
    (path : List String) → Entries → Option Entries
  | [], entries => change origin entries
  | key :: path, entries =>
    match entries.lookup key with
    | none =>
      let made := if dotted then .dotted else .passage
      (changeAt dotted change made path []).map fun inner =>
        entries.put key (.table made inner)
    | some (.value _) => none
    | some (.table found inner) =>
      if dotted ∧ found = .header then none
      else
        (changeAt dotted change found path inner).map fun inner =>
          entries.put key (.table found inner)
    | some (.tables elements) =>
      (changeAt dotted change .header path (elements.getLastD [])).map fun last =>
        entries.put key (.tables (elements.dropLast ++ [last]))

/-- Gives a value to a key, which may be dotted and must be new. -/
def assign (path : List String) (key : String) (d : Document) (entries : Entries) :
    Option Entries :=
  let enter (origin : Origin) (entries : Entries) : Option Entries :=
    if path ≠ [] ∧ origin ≠ .dotted then none
    else if (entries.lookup key).isSome then none
    else some (entries ++ [(key, .value d)])
  changeAt true enter .header path entries

/-- Opens the table of a header, which must have none yet. -/
def openTable (path : List String) (key : String) (entries : Entries) : Option Entries :=
  let enter (_ : Origin) (entries : Entries) : Option Entries :=
    match entries.lookup key with
    | none => some (entries.put key (.table .header []))
    | some (.table .passage inner) => some (entries.put key (.table .header inner))
    | some _ => none
  changeAt false enter .header path entries

/-- Opens one more table of a header that can stand several times. -/
def openElement (path : List String) (key : String) (entries : Entries) : Option Entries :=
  let enter (_ : Origin) (entries : Entries) : Option Entries :=
    match entries.lookup key with
    | none => some (entries.put key (.tables [[]]))
    | some (.tables elements) => some (entries.put key (.tables (elements ++ [[]])))
    | some _ => none
  changeAt false enter .header path entries

/-- Gives a value to a key of the table whose header is at a path. -/
def assignUnder (header : List String) (path : List String) (key : String) (d : Document)
    (entries : Entries) : Option Entries :=
  changeAt false (fun _ table => table.assign path key d) .header header entries

end Entries

/-! ## Documents of tables -/

mutual

/-- The document of what a key stands for. -/
def Item.document : Item → Document
  | .value d => d
  | .table _ entries => .object (entryDocuments entries) .lenient
  | .tables elements => .list (elementDocuments elements) .lenient

/-- The documents of the keys of a table. -/
def entryDocuments : List (String × Item) → List (Leaf String × Document)
  | [] => []
  | (key, item) :: rest => (.pure key, item.document) :: entryDocuments rest

/-- The documents of several tables. -/
def elementDocuments : List (List (String × Item)) → List Document
  | [] => []
  | entries :: rest => .object (entryDocuments entries) .lenient :: elementDocuments rest

end

/-- The document of a table. -/
def Entries.document (entries : Entries) : Document :=
  .object (entryDocuments entries) .lenient

end Nonlocal.Toml
