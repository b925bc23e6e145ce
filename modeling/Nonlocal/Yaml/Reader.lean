import Nonlocal.Json.Document
import Nonlocal.Yaml.Scalar

/-!
From a YAML text to its document.

The entries of a block collection start in one column, and what belongs to an entry starts further to
the right; only a sequence may start in the column of the mapping that it is a value of. Flow
collections stand between brackets. A scalar without quotes is left as a plain word, to be read as
what is asked for.

A text is read if it has one document. What stands in it is read from the left, each part takes at
least one character or is the only one at its place, so the length of the text bounds the number of
parts.
-/

namespace Nonlocal.Yaml

open Json

/-- What was read so far: the spot that reading has reached, and the nodes that have names. -/
structure State where
  spot : Spot
  anchors : List (String × Document)

namespace State

/-- The state at another place. -/
def moveTo (s : State) (p : Place) (fresh : Bool) : State :=
  { s with spot := ⟨p, fresh⟩ }

/-- The state after a gap. -/
def afterGap (s : State) (flow : Bool) : State :=
  { s with spot := s.spot.afterGap flow }

/-- The state `n` characters further. -/
def skip (s : State) (n : Nat) (fresh : Bool) : State :=
  s.moveTo (s.spot.place.skip n) fresh

/-- Does nothing that is indented by `least` stand here? -/
def isAbsent (s : State) (least : Nat) : Bool :=
  s.spot.place.atEnd || s.spot.place.column < least

end State

/-- A node, and what was read with it. -/
abbrev Reading := Option (Document × State)

/-- The node that stands where nothing is written. -/
def nothing : Document := .plain ""

/-! ## Properties -/

/-- The name and the tag of a node. Of the tags only those of the text itself are kept. -/
structure Properties where
  anchor : Option String
  tagged : Bool
  tag : Option String

/-- No properties. -/
def Properties.none : Properties := ⟨.none, false, .none⟩

/-- The characters of names. -/
def isNameChar (c : Char) : Bool :=
  c.isAlphanum || c == '-' || c == '_'

/-- Reads a name and leaves what can follow one. -/
def readName? (cs : List Char) : Option String :=
  let name := cs.takeWhile isNameChar
  let rest := cs.dropWhile isNameChar
  if name ≠ [] ∧ (isOpen rest ∨ rest.head?.any fun c => c ∈ ['?', ':', ',', ']', '\x7d', '%', '@', '\u0060'])
  then some (String.ofList name) else .none

/-- The characters of tags. -/
def isTagChar (c : Char) : Bool :=
  isNameChar c || c ∈ [';', '/', '?', ':', '@', '&', '=', '+', '$', '.', '!', '~', '*', '\'', '(', ')', '%']

/-- The tag of the text itself that follows a mark; tags of known kinds are left out. -/
def localTag? (name : List Char) : Option String :=
  if name.head? = some '!' ∨ name = [] then .none else some (String.ofList name)

/-- Reads a tag from after its mark: the tag, and the number of characters that it takes. -/
def readTag? (flow : Bool) (cs : List Char) : Option (Option String × Nat) :=
  let closes (rest : List Char) : Bool := isOpen rest || (flow && rest.head? == some ',')
  match cs with
  | '<' :: cs =>
    let name := cs.takeWhile fun c => isTagChar c || c ∈ [',', '[', ']']
    match cs.drop name.length with
    | '>' :: rest =>
      let tag := if name.head? = some '!' then localTag? name.tail else .none
      if name ≠ [] ∧ closes rest then some (tag, name.length + 2) else .none
    | _ => .none
  | cs =>
    let name := cs.takeWhile isTagChar
    let handle := name.takeWhile isNameChar
    let undefined := handle ≠ [] ∧ (name.drop handle.length).head? = some '!'
    if undefined ∨ !closes (cs.drop name.length) then .none
    else some (localTag? name, name.length)

/-- Reads the properties of a node, each at most once. -/
def readProperties (flow : Bool) : (fuel : Nat) → Properties → State → Option (Properties × State)
  | 0, _, _ => .none
  | fuel + 1, found, s =>
    match s.spot.place.rest with
    | '&' :: cs =>
      match found.anchor, readName? cs with
      | .none, some name =>
        readProperties flow fuel { found with anchor := some name }
          ((s.skip (name.length + 1) false).afterGap flow)
      | _, _ => .none
    | '!' :: cs =>
      match found.tagged, readTag? flow cs with
      | false, some (tag, length) =>
        readProperties flow fuel { found with tagged := true, tag }
          ((s.skip (length + 1) false).afterGap flow)
      | _, _ => .none
    | _ => some (found, s)

/-- Are there any properties? -/
def Properties.any (ps : Properties) : Bool :=
  ps.anchor.isSome || ps.tagged

/-- The words that stand for nothing. -/
def isNull (word : String) : Bool :=
  word ∈ ["", "~", "null", "Null", "NULL"]

/-- A node under its tag. A tag on nothing names a variant. -/
def Properties.applyTag (ps : Properties) (d : Document) : Document :=
  match ps.tag, d with
  | some tag, .plain word => if isNull word then .object [(.pure tag, .null)] .closed else d
  | _, _ => d

/-- Enters a node under its name. -/
def Properties.enter (ps : Properties) (d : Document) (s : State) : State :=
  match ps.anchor with
  | some name => { s with anchors := (name, d) :: s.anchors }
  | .none => s

/-- A node whose name is used within itself: it can be passed over only. -/
def unfinished : Document :=
  .string ⟨.error .tooDeep, .ok ()⟩

/-- The node with its properties. -/
def Properties.complete (ps : Properties) (node : Reading) : Reading :=
  node.map fun (d, s) =>
    let d := ps.applyTag d
    (d, ps.enter d s)

/-- A node as a key. -/
def keyOf : Document → Leaf String
  | .plain word => .pure word
  | .string leaf => leaf
  | _ => ⟨.error .keyExpected, .ok ()⟩

/-! ## Flow nodes -/

/-- Reads the node that has a name. -/
def readAlias (s : State) (cs : List Char) : Reading := do
  let name ← readName? cs
  let d ← s.anchors.lookup name
  return (d, s.skip (name.length + 1) false)

mutual

/-- Reads a node that is no block collection: a name, a scalar, or a flow collection. A scalar
without quotes is indented by `least`, except within a flow collection. -/
def readInline (flow : Bool) (least : Nat) : (fuel : Nat) → State → Reading
  | 0, _ => .none
  | fuel + 1, s =>
    let p := s.spot.place
    if p.atEnd then .none
    else
      match p.rest with
      | '*' :: cs => readAlias s cs
      | '[' :: _ => readFlowItems fuel [] ((s.skip 1 false).afterGap true)
      | '\x7b' :: _ => readFlowEntries fuel [] ((s.skip 1 false).afterGap true)
      | '"' :: rest | '\'' :: rest =>
        let quote := p.rest.headD '"'
        (readQuoted quote (rest.length + 1) [] .empty (p.skip 1)).map fun (text, p) =>
          (.string (.pure text), s.moveTo p false)
      | cs =>
        if startsPlain flow cs then
          (readPlain flow least [] .empty p.line p.column cs).map fun (word, spot) =>
            (.plain word, { s with spot })
        else .none

/-- Reads a node within a flow collection. -/
def readFlow : (fuel : Nat) → State → Reading
  | 0, _ => .none
  | fuel + 1, s =>
    match readProperties true 3 .none s with
    | .none => .none
    | some (ps, s) =>
      let inner := ps.enter unfinished s
      let isMark := s.spot.place.rest.head?.any fun c => c ∈ [',', ']', '\x7d']
      ps.complete (if ps.any && isMark then some (nothing, inner) else readInline true 0 fuel inner)

/-- Reads the value of a key within a flow collection, if there is one; the key starts at the given
place. -/
def readFlowValue (start : Place) : (fuel : Nat) → State → Option (Option Document × State)
  | 0, _ => .none
  | fuel + 1, s =>
    let s := s.afterGap true
    match s.spot.place.rest with
    | ':' :: _ =>
      if !start.endsKey s.spot.place then .none
      else
        let s := (s.skip 1 false).afterGap true
        match s.spot.place.rest with
        | ',' :: _ | ']' :: _ | '\x7d' :: _ => some (some nothing, s)
        | _ => (readFlow fuel s).map fun (d, s) => (some d, s.afterGap true)
    | _ => some (.none, s)

/-- Reads the items of a flow sequence that are left; `acc` holds the items before, the last one
first. A key with its value is an item of its own. -/
def readFlowItems : (fuel : Nat) → (acc : List Document) → State → Reading
  | 0, _, _ => .none
  | fuel + 1, acc, s =>
    match s.spot.place.rest with
    | ']' :: _ => some (.list acc.reverse .closed, s.skip 1 false)
    | _ =>
      match readFlow fuel s with
      | .none => .none
      | some (d, after) =>
        match readFlowValue s.spot.place fuel after with
        | .none => .none
        | some (value, s) =>
          let item := match value with
            | some v => .object [(keyOf d, v)] .closed
            | .none => d
          match s.spot.place.rest with
          | ',' :: _ => readFlowItems fuel (item :: acc) ((s.skip 1 false).afterGap true)
          | ']' :: _ => some (.list (item :: acc).reverse .closed, s.skip 1 false)
          | _ => .none

/-- Reads the entries of a flow mapping that are left; `acc` holds the entries before, the last one
first. -/
def readFlowEntries : (fuel : Nat) → (acc : List (Leaf String × Document)) → State → Reading
  | 0, _, _ => .none
  | fuel + 1, acc, s =>
    match s.spot.place.rest with
    | '\x7d' :: _ => some (.object acc.reverse .closed, s.skip 1 false)
    | _ =>
      match readFlow fuel s with
      | .none => .none
      | some (d, after) =>
        match readFlowValue s.spot.place fuel after with
        | .none => .none
        | some (value, s) =>
          let acc := (keyOf d, value.getD nothing) :: acc
          match s.spot.place.rest with
          | ',' :: _ => readFlowEntries fuel acc ((s.skip 1 false).afterGap true)
          | '\x7d' :: _ => some (.object acc.reverse .closed, s.skip 1 false)
          | _ => .none

end

/-! ## Block nodes -/

/-- The state after the colon that makes a node a key; the node starts at the given place. -/
def afterColon? (start : Place) (s : State) : Option State :=
  let s := s.afterGap false
  if s.spot.place.atIndicator ':' ∧ start.endsKey s.spot.place then some (s.skip 1 false) else .none

/-- Reads a block of lines from its mark. -/
def readBlockText (least : Nat) (s : State) : Reading :=
  let p := s.spot.place
  (readBlock (p.rest.head? == some '|') least (p.skip 1)).map fun (text, p) =>
    (.string (.pure text), s.moveTo p true)

/-- Reads a key of a mapping in the column before `least`, with its properties and its colon. -/
def readKey (least : Nat) (fuel : Nat) (s : State) : Option (Leaf String × State) := do
  let (ps, inner) ← readProperties false 3 .none s
  let (d, after) ← ps.complete (readInline false least fuel (ps.enter unfinished inner))
  let after ← afterColon? s.spot.place after
  return (keyOf d, after)

mutual

/-- Reads a node that is indented by `least`. As the value of a mapping it can also be a sequence in
the column of the mapping. -/
def readNode (least : Nat) (sequence : Bool) : (fuel : Nat) → State → Reading
  | 0, _ => .none
  | fuel + 1, s =>
    match readProperties false 3 .none s with
    | .none => .none
    | some (ps, inner) =>
      let p := inner.spot.place
      let named := ps.enter unfinished inner
      if p.atIndicator '-' ∧ (least ≤ p.column ∨ (sequence ∧ least = p.column + 1)) then
        if inner.spot.fresh then
          ps.complete (readItems p.column (p.column < least) fuel [] named)
        else .none
      else if inner.isAbsent least then
        if ps.any then ps.complete (some (nothing, named)) else .none
      else if p.atIndicator '?' then
        if inner.spot.fresh then ps.complete (readEntries p.column fuel [] named) else .none
      else if p.rest.head?.any fun c => c == '|' || c == '>' then
        ps.complete (readBlockText least named)
      else
        match readInline false least fuel named with
        | .none => .none
        | some (d, after) =>
          -- Properties in the line of a key belong to the key, others to the whole mapping.
          let first := if ps.any ∧ p.line = s.spot.place.line then s else inner
          match afterColon? first.spot.place after with
          | some value =>
            if !first.spot.fresh then .none
            else
              let column := first.spot.place.column
              if p.line = s.spot.place.line then
                let key := ps.applyTag d
                readEntry column fuel (keyOf key) [] (ps.enter key value)
              else ps.complete (readEntry column fuel (keyOf d) [] value)
          | .none =>
            let next := (after.afterGap false).spot
            if !next.fresh && next.place.atIndicator ':' then .none
            else ps.complete (some (d, after))
termination_by structural fuel => fuel

/-- Reads the items of a block sequence from an indicator in its column. A sequence in the column of
its mapping ends where the next key stands. -/
def readItems (column : Nat) (shared : Bool) : (fuel : Nat) → (acc : List Document) → State → Reading
  | 0, _, _ => .none
  | fuel + 1, acc, s =>
    let inner := (s.skip 1 true).afterGap false
    let item : Reading :=
      if inner.isAbsent (column + 1) then some (nothing, inner)
      else readNode (column + 1) false fuel inner
    match item with
    | .none => .none
    | some (d, after) =>
      let after := after.afterGap false
      let p := after.spot.place
      let done : Reading := some (.list (d :: acc).reverse .closed, after)
      if after.isAbsent column then done
      else if p.column ≠ column then .none
      else if p.atIndicator '-' then readItems column shared fuel (d :: acc) after
      else if shared then done
      else .none
termination_by structural fuel => fuel

/-- Reads the value of a key, and the entries after it. -/
def readEntry (column : Nat) : (fuel : Nat) → (key : Leaf String) →
    (acc : List (Leaf String × Document)) → State → Reading
  | 0, _, _, _ => .none
  | fuel + 1, key, acc, s =>
    let inner := s.afterGap false
    let p := inner.spot.place
    let isSequence := p.column == column && p.atIndicator '-'
    let value : Reading :=
      if inner.isAbsent column || (p.column == column && !isSequence) then some (nothing, inner)
      else readNode (column + 1) true fuel inner
    match value with
    | .none => .none
    | some (d, after) =>
      let acc := (key, d) :: acc
      let after := after.afterGap false
      if after.isAbsent column then some (.object acc.reverse .closed, after)
      else if after.spot.place.column ≠ column then .none
      else readEntries column fuel acc after
termination_by structural fuel => fuel

/-- Reads the entries of a block mapping that are left, from a key in its column; `acc` holds the
entries before, the last one first. -/
def readEntries (column : Nat) : (fuel : Nat) → (acc : List (Leaf String × Document)) → State →
    Reading
  | 0, _, _ => .none
  | fuel + 1, acc, s =>
    if s.spot.place.atIndicator '?' then
      let inner := (s.skip 1 true).afterGap false
      let p := inner.spot.place
      let isSequence := p.column == column && p.atIndicator '-'
      let key : Reading :=
        if inner.isAbsent column || (p.column == column && !isSequence) then some (nothing, inner)
        else readNode (column + 1) true fuel inner
      match key with
      | .none => .none
      | some (d, after) =>
        let after := after.afterGap false
        if !after.isAbsent column && after.spot.place.column == column
            && after.spot.place.atIndicator ':' then
          readEntry column fuel (keyOf d) acc (after.skip 1 true)
        else if after.isAbsent column then
          some (.object ((keyOf d, nothing) :: acc).reverse .closed, after)
        else if after.spot.place.column ≠ column then .none
        else readEntries column fuel ((keyOf d, nothing) :: acc) after
    else
      match readKey (column + 1) fuel s with
      | .none => .none
      | some (key, value) => readEntry column fuel key acc value
termination_by structural fuel => fuel

end

/-! ## Documents -/

/-- The state after the lines before a document that say how to read it. They have to be followed by
the mark that starts a document. -/
def skipDirectives : (fuel : Nat) → (any : Bool) → State → Option State
  | 0, _, _ => .none
  | fuel + 1, any, s =>
    let p := s.spot.place
    match p.rest with
    | '%' :: cs =>
      if p.column ≠ 0 then .none
      else
        let line := cs.takeWhile (· ≠ '\n')
        let word := String.ofList (line.takeWhile (!isBlank ·))
        let version := ((line.dropWhile (!isBlank ·)).dropWhile isBlank).takeWhile (!isBlank ·)
        if word ≠ "TAG" ∧ ¬(word = "YAML" ∧ version ∈ [['1', '.', '1'], ['1', '.', '2']]) then .none
        else skipDirectives fuel true ((s.skip (line.length + 1) false).afterGap false)
    | _ => if any ∧ !(p.atMarker ∧ p.rest.head? = some '-') then .none else some s

/-- Is nothing left but marks that end a document? -/
def isFinished : (fuel : Nat) → State → Bool
  | 0, _ => false
  | fuel + 1, s =>
    let p := s.spot.place
    p.rest.isEmpty
      || (p.atMarker && p.rest.head? == some '.' && isFinished fuel ((s.skip 3 false).afterGap false))

/-- The document of a text. A text without any document stands for nothing. -/
def read? (text : String) : Option Document := do
  let cs ← normalize? text
  let fuel := 4 * cs.length + 8
  let s ← skipDirectives fuel false ((State.mk ⟨.start cs, true⟩ []).afterGap false)
  if s.spot.place.rest.isEmpty then return nothing
  let explicit := s.spot.place.atMarker
  if explicit && s.spot.place.rest.head? == some '.' then .none
  else
    let inner := if explicit then (s.skip 3 false).afterGap false else s
    let (d, after) ← if inner.spot.place.atEnd then some (nothing, inner) else readNode 0 false fuel inner
    if isFinished fuel (after.afterGap false) then return d else .none

end Nonlocal.Yaml
