/-!
Places in a YAML text.

In YAML the column of a part decides what it belongs to, so a text is read together with the place
that reading has reached. All line ends are the same here: `normalize?` replaces the others by the
line feed and refuses texts with characters that YAML does not know.
-/

namespace Nonlocal.Yaml

/-- Can the character stand in a text? -/
def isAllowed (c : Char) : Bool :=
  let n := c.toNat
  n == 0x09 || n == 0x0a || n == 0x0d || (0x20 ≤ n && n ≤ 0x7e) || n == 0x85
    || (0xa0 ≤ n && n ≤ 0xfffd) || 0x10000 ≤ n

/-- Replaces every line end by a line feed. -/
def unifyLines : List Char → List Char
  | [] => []
  | '\r' :: '\n' :: rest => '\n' :: unifyLines rest
  | c :: rest =>
    (if c = '\r' ∨ c = '\u0085' ∨ c = '\u2028' ∨ c = '\u2029' then '\n' else c) :: unifyLines rest

/-- The characters of a text without a mark of the byte order, with line feeds as line ends. -/
def normalize? (text : String) : Option (List Char) :=
  let cs := match text.toList with
    | '\ufeff' :: cs => cs
    | cs => cs
  if cs.all isAllowed then some (unifyLines cs) else none

/-- A place in a text: what follows, and where it stands. -/
structure Place where
  rest : List Char
  line : Nat
  column : Nat

/-- The place of the first character. -/
def Place.start (cs : List Char) : Place := ⟨cs, 0, 0⟩

/-- The place `n` characters further in the same line. -/
def Place.skip (p : Place) (n : Nat) : Place :=
  { p with rest := p.rest.drop n, column := p.column + n }

/-- The blanks within a line. -/
def isBlank (c : Char) : Bool :=
  c == ' ' || c == '\t'

/-- Does a text start with a blank or a line end, or is it at its end? -/
def isOpen : List Char → Bool
  | [] => true
  | c :: _ => isBlank c || c == '\n'

/-- Does a mark that starts or ends a document stand here? -/
def Place.atMarker (p : Place) : Bool :=
  p.column == 0 &&
    match p.rest with
    | '-' :: '-' :: '-' :: rest | '.' :: '.' :: '.' :: rest => isOpen rest
    | _ => false

/-- Does the text or the document end here? -/
def Place.atEnd (p : Place) : Bool :=
  p.rest.isEmpty || p.atMarker

/-- Does an indicator stand here, with a blank or a line end after it? -/
def Place.atIndicator (c : Char) (p : Place) : Bool :=
  match p.rest with
  | d :: rest => d == c && isOpen rest
  | [] => false

/-- The largest distance of a key from its colon, in characters. -/
def maxKeyLength : Nat := 1024

/-- Can a colon here belong to a key that starts at the given place? A key stands in one line. -/
def Place.endsKey (start p : Place) : Bool :=
  p.line == start.line && p.column ≤ start.column + maxKeyLength

/-- A place between two parts. It is fresh if a collection may start there: at the start of a line,
or after an indicator that leaves room for one. -/
structure Spot where
  place : Place
  fresh : Bool

/-- The spot after blanks, line ends and comments. Tabs do not count as blanks at a fresh spot.
Between the brackets of a flow collection they always do, and line ends change nothing. -/
def gapFrom (flow : Bool) : (fresh comment : Bool) → (line column : Nat) → List Char → Spot
  | fresh, _, line, column, [] => ⟨⟨[], line, column⟩, fresh⟩
  | fresh, comment, line, column, c :: rest =>
    if c = '\n' then gapFrom flow (fresh || !flow) false (line + 1) 0 rest
    else if comment || c == ' ' || (c == '\t' && (flow || !fresh)) then
      gapFrom flow fresh comment line (column + 1) rest
    else if c = '#' then gapFrom flow fresh true line (column + 1) rest
    else ⟨⟨c :: rest, line, column⟩, fresh⟩

/-- The spot after the gap that starts here. -/
def Spot.afterGap (s : Spot) (flow : Bool) : Spot :=
  gapFrom flow s.fresh false s.place.line s.place.column s.place.rest

end Nonlocal.Yaml
