import Nonlocal.Json.Fault
import Nonlocal.Json.Value

/-!
JSON texts as they stand.

A document is what reading a text from the left shows, up to the first place where no reading can go
on; that place is part of the document, with its fault. A reader that asks for values in the order of
the text therefore meets content it did not ask for and faults of the text in the order in which
they stand. Entries are kept in order and with repetitions.

A part of a document can be asked for as a value, or be passed over. A string or a number that is
passed over is held to its spelling only, so it comes with both answers.
-/

namespace Nonlocal.Json

/-- A leaf: what it is when its value is asked for, and whether it can be passed over. -/
structure Leaf (α : Type) where
  value : Except Fault α
  skipped : Except Fault Unit

/-- A leaf without fault. -/
def Leaf.pure {α : Type} (x : α) : Leaf α :=
  ⟨.ok x, .ok ()⟩

/-- A number: whole and within 64 bits, or not. -/
inductive Numeral where
  | integer (n : Int)
  | decimal (x : Float)

/-- What follows the items of a list. -/
inductive ListEnd where
  /-- The closing bracket. -/
  | closed
  /-- The closing bracket, of a list from which fewer items may be taken than it has. -/
  | lenient
  /-- The end of the text. -/
  | ended
  /-- Something that is neither a comma nor a bracket. -/
  | unseparated
  /-- A comma and the closing bracket. -/
  | commaClosed

/-- What follows the entries of an object. -/
inductive ObjectEnd where
  /-- The closing brace. -/
  | closed
  /-- The closing brace, of an object that stands for nothing when it is empty. -/
  | lenient
  /-- The end of the text. -/
  | ended
  /-- Something that is neither a comma nor a brace. -/
  | unseparated
  /-- Something that is no key, where one has to stand. -/
  | unkeyed
  /-- A comma and the closing brace. -/
  | commaClosed
  /-- A comma and the end of the text. -/
  | commaEnded

/-- The fault at the end of a list that is passed over. -/
def ListEnd.skip : ListEnd → Except Fault Unit
  | .closed | .lenient => .ok ()
  | .ended => .error .endInList
  | .unseparated => .error .listSeparatorExpected
  | .commaClosed => .error .valueExpected

/-- The fault at the end of an object that is passed over. -/
def ObjectEnd.skip : ObjectEnd → Except Fault Unit
  | .closed | .lenient => .ok ()
  | .ended | .commaEnded => .error .endInObject
  | .unseparated => .error .objectSeparatorExpected
  | .unkeyed | .commaClosed => .error .keyExpected

/-- The fault at the end of a list whose items are all asked for. -/
def ListEnd.finish : ListEnd → Except Fault Unit
  | .closed | .lenient => .ok ()
  | .ended => .error .endInList
  | .unseparated => .error .listSeparatorExpected
  | .commaClosed => .error .trailingComma

/-- The fault at the end of an object whose entries are all asked for. -/
def ObjectEnd.finish : ObjectEnd → Except Fault Unit
  | .closed | .lenient => .ok ()
  | .ended => .error .endInObject
  | .commaEnded => .error .endInValue
  | .unseparated => .error .objectSeparatorExpected
  | .unkeyed => .error .keyExpected
  | .commaClosed => .error .trailingComma

/-- A JSON text, or a part of one. -/
inductive Document where
  /-- There is no value here. -/
  | absent (fault : Fault)
  /-- What stands here starts no value, or is a misspelt word. -/
  | misspelt (fault : Fault)
  | null
  | boolean (b : Bool)
  | number (leaf : Leaf Numeral)
  | string (leaf : Leaf String)
  /-- A word without quotes, as other notations have it; it is read as what is asked for. -/
  | plain (word : String)
  | list (items : List Document) (close : ListEnd)
  | object (entries : List (Leaf String × Document)) (close : ObjectEnd)

namespace Document

mutual

/-- The document of a value. -/
def ofJson : Json → Document
  | .null => .null
  | .boolean b => .boolean b
  | .integer n => .number (.pure (.integer n))
  | .decimal x => .number (.pure (.decimal x))
  | .string s => .string (.pure s)
  | .array items => .list (ofItems items) .closed
  | .object entries => .object (ofEntries entries) .closed

/-- The documents of the items of an array. -/
def ofItems : List Json → List Document
  | [] => []
  | v :: rest => ofJson v :: ofItems rest

/-- The documents of the entries of an object. -/
def ofEntries : List (String × Json) → List (Leaf String × Document)
  | [] => []
  | (key, v) :: rest => (.pure key, ofJson v) :: ofEntries rest

end

/-! ## Passing over -/

mutual

/-- Passes over a document; only its spelling can be at fault. -/
def skip : Document → Except Fault Unit
  | .absent fault | .misspelt fault => .error fault
  | .null | .boolean _ | .plain _ => .ok ()
  | .number leaf => leaf.skipped
  | .string leaf => leaf.skipped
  | .list items close => do
    skipItems items
    close.skip
  | .object entries close => do
    skipEntries entries
    close.skip

/-- Passes over the items of a list. -/
def skipItems : List Document → Except Fault Unit
  | [] => .ok ()
  | d :: rest => do
    skip d
    skipItems rest

/-- Passes over the entries of an object. -/
def skipEntries : List (Leaf String × Document) → Except Fault Unit
  | [] => .ok ()
  | (key, d) :: rest => do
    key.skipped
    skip d
    skipEntries rest

end

/-! ## Values of any kind -/

/-- The number of lists and objects around each other in which a value can stand. -/
def maxDepth : Nat := 127

mutual

/-- The value of a document that stands inside `depth` lists and objects. -/
def toJson (depth : Nat) : Document → Except Fault Json
  | .absent fault | .misspelt fault => .error fault
  | .null => .ok .null
  | .boolean b => .ok (.boolean b)
  | .number leaf => do
    match ← leaf.value with
    | .integer n => return .integer n
    | .decimal x => return .decimal x
  | .string leaf => return .string (← leaf.value)
  | .plain word => .ok (.string word)
  | .list items close =>
    if depth < maxDepth then do
      let values ← toItems (depth + 1) items
      close.finish
      return .array values
    else .error .tooDeep
  | .object entries close =>
    if depth < maxDepth then do
      let values ← toEntries (depth + 1) [] entries
      close.finish
      return .object values
    else .error .tooDeep

/-- The values of the items of a list. -/
def toItems (depth : Nat) : List Document → Except Fault (List Json)
  | [] => .ok []
  | d :: rest => do
    let value ← toJson depth d
    return value :: (← toItems depth rest)

/-- The entries of an object after those in `acc`; the last of several values of a key counts. -/
def toEntries (depth : Nat) (acc : List (String × Json)) :
    List (Leaf String × Document) → Except Fault (List (String × Json))
  | [] => .ok acc
  | (key, d) :: rest => do
    let name ← key.value
    let value ← toJson depth d
    toEntries depth (setEntry name value acc) rest

end

end Document

end Nonlocal.Json
