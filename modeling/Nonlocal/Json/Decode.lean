import Nonlocal.Json.Reader

/-!
Decoders: from documents to typed values.

Fields of a structure are taken in the order of the text, so the first fault of the text is the one
that is reported. A structure can also be given as a list of its fields in their declared order.
-/

namespace Nonlocal.Json

/-- A decoder of values of one type. -/
abbrev Decoder (α : Type) := Document → Except Fault α

/-- The fault of a document that is not of the expected kind; a leaf that is itself at fault reports
that. -/
def mismatch (expected : String) : Document → Fault
  | .absent fault | .misspelt fault => fault
  | .null => .wrongType .null expected
  | .boolean b => .wrongType (.boolean b) expected
  | .number leaf =>
    match leaf.value with
    | .error fault => fault
    | .ok (.integer n) => .wrongType (.integer n) expected
    | .ok (.decimal x) => .wrongType (.decimal x) expected
  | .string leaf =>
    match leaf.value with
    | .error fault => fault
    | .ok s => .wrongType (.string s) expected
  | .plain word => .wrongType (.string word) expected
  | .list _ _ => .wrongType .sequence expected
  | .object _ _ => .wrongType .mapping expected

/-! ## Leaves -/

/-- The count that a plain word stands for: decimal digits without a leading zero, or digits of
another base after its mark. -/
def plainCount? (word : String) : Option Nat :=
  let digits := match word.toList with
    | '+' :: digits => digits
    | digits => digits
  let based (base : Nat) : List Char → Option Nat
    | [] => none
    | digits => Text.value? base digits
  match digits with
  | '0' :: 'x' :: digits => based 16 digits
  | '0' :: 'o' :: digits => based 8 digits
  | '0' :: 'b' :: digits => based 2 digits
  | '0' :: _ :: _ => none
  | digits => based 10 digits

/-- The double that a plain word stands for. -/
def plainFloat? (word : String) : Option Float :=
  match word with
  | ".nan" | ".NaN" | ".NAN" => some (0.0 / 0.0)
  | ".inf" | ".Inf" | ".INF" | "+.inf" | "+.Inf" | "+.INF" => some (1.0 / 0.0)
  | "-.inf" | "-.Inf" | "-.INF" => some (-1.0 / 0.0)
  | _ => (Decimal.read? word).filter Float.isFinite

/-- A double. -/
def float : Decoder Float
  | .number leaf => do
    match ← leaf.value with
    | .integer n => return Float.ofInt n
    | .decimal x => return x
  | .plain word =>
    match plainFloat? word with
    | some x => .ok x
    | none => .error (mismatch "f64" (.plain word))
  | d => .error (mismatch "f64" d)

/-- A whole number that is not negative and fits 64 bits. -/
def wordOf (expected : String) (n : Int) : Except Fault UInt64 :=
  if 0 ≤ n ∧ n < UInt64.size then .ok (UInt64.ofNat n.toNat)
  else .error (.wrongValue (.integer n) expected)

/-- A 64-bit count; the word names it in a message. -/
def wordAs (expected : String) : Decoder UInt64
  | .number leaf => do
    match ← leaf.value with
    | .integer n => wordOf expected n
    | .decimal x => throw (.wrongType (.decimal x) expected)
  | .plain text =>
    match plainCount? text with
    | some n => wordOf expected n
    | none => .error (mismatch expected (.plain text))
  | d => .error (mismatch expected d)

/-- A 64-bit number. -/
def word : Decoder UInt64 := wordAs "u64"

/-- The size of something. -/
def size : Decoder UInt64 := wordAs "usize"

/-- A signed 64-bit number. -/
def signedWord : Decoder Int64
  | .number leaf => do
    match ← leaf.value with
    | .integer n =>
      if Int64.minValue.toInt ≤ n ∧ n ≤ Int64.maxValue.toInt then return Int64.ofInt n
      else throw (.wrongValue (.integer n) "i64")
    | .decimal x => throw (.wrongType (.decimal x) "i64")
  | d => .error (mismatch "i64" d)

/-- A truth value. -/
def truth : Decoder Bool
  | .boolean b => .ok b
  | d => .error (mismatch "a boolean" d)

/-- A text. -/
def text : Decoder String
  | .string leaf => leaf.value
  | .plain word => .ok word
  | d => .error (mismatch "a string" d)

/-- A part that may be null. -/
def optional {α : Type} (decode : Decoder α) : Decoder (Option α)
  | .null => .ok none
  | d => (decode d).map some

/-- Chooses one of several named variants. -/
def choose {α : Type} (variants : List (String × α)) (name : String) : Except Fault α :=
  match variants.lookup name with
  | some x => .ok x
  | none => .error (.variantUnknown name (variants.map Prod.fst))

/-- A place where nothing has to stand. -/
def nothing : Decoder Unit
  | .null | .list [] .lenient | .object [] .lenient => .ok ()
  | d => .error (mismatch "unit" d)

/-- One of several named variants, given by its name, or as an object with the name as key and
nothing as value. -/
def variant {α : Type} (variants : List (String × α)) : Decoder α
  | .absent fault => .error fault
  | .string leaf => do choose variants (← leaf.value)
  | .plain word => choose variants word
  | .object ((key, value) :: more) close => do
    let x ← choose variants (← key.value)
    nothing value
    match more, close with
    | [], .closed | [], .lenient => return x
    | [], .ended => throw .endInObject
    | _, _ => throw .valueExpected
  | .object [] .ended => .error .endInValue
  | _ => .error .valueExpected

/-! ## Lists -/

/-- A place in a list: how many items were taken, and what is left. -/
structure Cursor where
  taken : Nat
  items : List Document
  close : ListEnd

namespace Cursor

/-- The next item, or none after the last one. -/
def next? (c : Cursor) : Except Fault (Option (Document × Cursor)) :=
  match c.items with
  | d :: rest => .ok (some (d, { c with taken := c.taken + 1, items := rest }))
  | [] => do
    c.close.finish
    return none

/-- The next item, which has to be there; the text says what the list is expected to be. -/
def next (c : Cursor) (expected : String) : Except Fault (Document × Cursor) := do
  match ← c.next? with
  | some found => return found
  | none => throw (.wrongLength c.taken expected)

/-- Ends the reading of a list before its items run out. -/
def finish (c : Cursor) : Except Fault Unit :=
  match c.items, c.close with
  | _, .lenient => .ok ()
  | _ :: _, _ => .error .trailingCharacters
  | [], .closed => .ok ()
  | [], .commaClosed => .error .trailingComma
  | [], .ended => .error .endInList
  | [], .unseparated => .error .trailingCharacters

end Cursor

/-- All items of a list, one after the other. -/
def items {α : Type} (decode : Decoder α) : List Document → Except Fault (List α)
  | [] => .ok []
  | d :: rest => do
    let x ← decode d
    return x :: (← items decode rest)

/-- A list of any length. -/
def listOf {α : Type} (decode : Decoder α) : Decoder (List α)
  | .list ds close => do
    let xs ← items decode ds
    close.finish
    return xs
  | d => .error (mismatch "a sequence" d)

/-- Two numbers in a list. -/
def floatPair : Decoder (Float × Float)
  | .list ds close => do
    let expected := "an array of length 2"
    let (a, c) ← Cursor.next ⟨0, ds, close⟩ expected
    let a ← float a
    let (b, c) ← c.next expected
    let b ← float b
    c.finish
    return (a, b)
  | d => .error (mismatch "an array of length 2" d)

/-- Three numbers in a list. -/
def floatTriple : Decoder (Float × Float × Float)
  | .list ds close => do
    let expected := "an array of length 3"
    let (x, c) ← Cursor.next ⟨0, ds, close⟩ expected
    let x ← float x
    let (y, c) ← c.next expected
    let y ← float y
    let (z, c) ← c.next expected
    let z ← float z
    c.finish
    return (x, y, z)
  | d => .error (mismatch "an array of length 3" d)

/-- The entries of an object with any keys, in the order of the text. -/
def entriesOf {κ α : Type} (key : Leaf String → Except Fault κ) (decode : Decoder α) :
    List (Leaf String × Document) → Except Fault (List (κ × α))
  | [] => .ok []
  | (k, d) :: rest => do
    let k ← key k
    let x ← decode d
    return (k, x) :: (← entriesOf key decode rest)

/-- An object with any keys. -/
def mapOf {κ α : Type} (key : Leaf String → Except Fault κ) (decode : Decoder α) :
    Decoder (List (κ × α))
  | .object entries close => do
    let xs ← entriesOf key decode entries
    close.finish
    return xs
  | .plain "" => .ok []
  | d => .error (mismatch "a map" d)

/-! ## Structures -/

/-- The fields of a structure. While the entries of an object are read, a state holds the fields
found so far. -/
structure Fields (α : Type) where
  State : Type
  start : State
  /-- Takes an entry with the given key; none when there is no such field. -/
  take : State → String → Document → Option (Except Fault State)
  /-- The structure, once all entries are taken. -/
  finish : State → Except Fault α
  /-- The structure from a list of its fields; the text says what the list is expected to be. -/
  inOrder : String → Cursor → Except Fault (α × Cursor)
  /-- The number of fields. -/
  count : Nat

namespace Fields

variable {α β : Type}

/-- Takes an entry into a field that was not given before. -/
def takeOnce (name : String) (decode : Decoder α) (found : Option α) (key : String)
    (d : Document) : Option (Except Fault (Option α)) :=
  if key = name then
    some (match found with
      | some _ => .error (.fieldRepeated name)
      | none => (decode d).map some)
  else none

/-- A field that has to be given. -/
def field (name : String) (decode : Decoder α) : Fields α where
  State := Option α
  start := none
  take := takeOnce name decode
  finish
    | some x => .ok x
    | none => .error (.fieldMissing name)
  inOrder expected c := do
    let (d, c) ← c.next expected
    return (← decode d, c)
  count := 1

/-- A field that has a value when it is not given. -/
def fieldOr (name : String) (decode : Decoder α) (missing : α) : Fields α where
  State := Option α
  start := none
  take := takeOnce name decode
  finish found := .ok (found.getD missing)
  inOrder _ c := do
    match ← c.next? with
    | some (d, c) => return (← decode d, c)
    | none => return (missing, c)
  count := 1

/-- A field that may be null; in an object it may also be left out. -/
def optionalField (name : String) (decode : Decoder α) : Fields (Option α) where
  State := Option (Option α)
  start := none
  take := takeOnce name (optional decode)
  finish found := .ok found.join
  inOrder expected c := do
    let (d, c) ← c.next expected
    return (← optional decode d, c)
  count := 1

/-- The fields of one structure before those of another. -/
def and (f : Fields α) (g : Fields β) : Fields (α × β) where
  State := f.State × g.State
  start := (f.start, g.start)
  take := fun (s, t) key d =>
    match f.take s key d with
    | some s => some (s.map fun s => (s, t))
    | none => (g.take t key d).map fun t => t.map fun t => (s, t)
  finish := fun (s, t) => do
    let x ← f.finish s
    let y ← g.finish t
    return (x, y)
  inOrder expected c := do
    let (x, c) ← f.inOrder expected c
    let (y, c) ← g.inOrder expected c
    return ((x, y), c)
  count := f.count + g.count

/-- The fields of a structure as a value of another type. -/
def map (h : α → β) (f : Fields α) : Fields β where
  State := f.State
  start := f.start
  take := f.take
  finish s := (f.finish s).map h
  inOrder expected c := do
    let (x, c) ← f.inOrder expected c
    return (h x, c)
  count := f.count

/-- Takes the entries of an object; unknown ones are passed over. -/
def takeEntries (f : Fields α) : f.State → List (Leaf String × Document) → Except Fault f.State
  | s, [] => .ok s
  | s, (key, d) :: rest => do
    let name ← key.value
    match f.take s name d with
    | some taken => f.takeEntries (← taken) rest
    | none =>
      d.skip
      f.takeEntries s rest

/-- A structure, given as an object or as a list. -/
def decode (f : Fields α) (name : String) : Decoder α
  | .object entries close => do
    let s ← f.takeEntries f.start entries
    close.finish
    f.finish s
  | .plain "" => f.finish f.start
  | .list ds close => do
    let plural := if f.count = 1 then "element" else "elements"
    let (x, c) ← f.inOrder s!"struct {name} with {f.count} {plural}" ⟨0, ds, close⟩
    c.finish
    return x
  | d => .error (mismatch s!"struct {name}" d)

end Fields

end Nonlocal.Json
