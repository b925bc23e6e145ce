import Nonlocal.Text.Digit
import Nonlocal.Yaml.Place

/-!
Texts within a YAML text: without quotes, with quotes, and as blocks of lines.

A text can stretch over lines. A single line end between two words then counts as a blank; of several
line ends the first one does not count. Each reader is given the place after the mark that opens the
text, if there is one.
-/

namespace Nonlocal.Yaml

/-- What stands between two words of a text: blanks, or line ends. A backslash can have joined the
first line to the next one. -/
structure Separation where
  blanks : List Char
  breaks : Nat
  joined : Bool

namespace Separation

/-- Nothing between two characters. -/
def empty : Separation := ⟨[], 0, false⟩

/-- Does it reach to another line? -/
def isBroken (s : Separation) : Bool := s.joined || s.breaks ≠ 0

/-- One more blank; at the start of a line blanks do not count. -/
def addBlank (s : Separation) (c : Char) : Separation :=
  if s.isBroken then s else { s with blanks := c :: s.blanks }

/-- One more line end; the blanks before it do not count. -/
def addBreak (s : Separation) : Separation :=
  { s with blanks := [], breaks := s.breaks + 1 }

/-- What is kept of it in the text, from the last character to the first. -/
def kept (s : Separation) : List Char :=
  if s.joined then List.replicate s.breaks '\n'
  else if s.breaks = 0 then s.blanks
  else if s.breaks = 1 then [' ']
  else List.replicate (s.breaks - 1) '\n'

end Separation

/-! ## Texts without quotes -/

/-- The brackets and the comma of flow collections. -/
def isFlowMark (c : Char) : Bool :=
  c ∈ [',', '[', ']', '\x7b', '\x7d']

/-- Can a text without quotes start here? -/
def startsPlain (flow : Bool) : List Char → Bool
  | [] => false
  | c :: rest =>
    if c = '-' then !isOpen rest
    else if c = '?' ∨ c = ':' then !flow && !isOpen rest
    else
      !isOpen (c :: rest) && !isFlowMark c
        && c ∉ ['#', '&', '*', '!', '|', '>', '\'', '"', '%', '@', '\u0060']

/-- Reads a text without quotes; its lines after the first one have to be indented by `least`. The
spot after it is fresh when the text is followed by a line end. -/
def readPlain (flow : Bool) (least : Nat) : (acc : List Char) → (gap : Separation) →
    (line column : Nat) → List Char → Option (String × Spot)
  | acc, gap, line, column, [] =>
    some (String.ofList acc.reverse, ⟨⟨[], line, column⟩, gap.isBroken⟩)
  | acc, gap, line, column, c :: rest =>
    let here : Place := ⟨c :: rest, line, column⟩
    let stop : Option (String × Spot) := some (String.ofList acc.reverse, ⟨here, gap.isBroken⟩)
    if c = '\n' then readPlain flow least acc gap.addBreak (line + 1) 0 rest
    else if isBlank c then
      if gap.isBroken && c == '\t' && column < least then none
      else readPlain flow least acc (gap.addBlank c) line (column + 1) rest
    else if gap.isBroken && ((!flow && column < least) || here.atMarker) then stop
    else if c = '#' ∧ (gap.isBroken ∨ gap.blanks ≠ []) then stop
    else if c = ':' ∧ isOpen rest then stop
    else if flow ∧ c = ':' ∧ (rest.head?.any fun d => isFlowMark d || d == '?') then none
    else if flow ∧ isFlowMark c then stop
    else readPlain flow least (c :: (gap.kept ++ acc)) .empty line (column + 1) rest

/-! ## Texts with quotes -/

/-- The character of an escape with one letter. -/
def simpleEscape? : Char → Option Char
  | '0' => some '\x00'
  | 'a' => some '\x07'
  | 'b' => some '\x08'
  | 't' | '\t' => some '\t'
  | 'n' => some '\n'
  | 'v' => some '\x0b'
  | 'f' => some '\x0c'
  | 'r' => some '\r'
  | 'e' => some '\x1b'
  | 'N' => some '\u0085'
  | '_' => some '\u00a0'
  | 'L' => some '\u2028'
  | 'P' => some '\u2029'
  | c => if c ∈ [' ', '"', '\'', '/', '\\'] then some c else none

/-- The number of digits of an escape that names a code point. -/
def escapeDigits? : Char → Option Nat
  | 'x' => some 2
  | 'u' => some 4
  | 'U' => some 8
  | _ => none

/-- Reads an escape from after its backslash: its character, and the number of characters that it
takes. -/
def readEscape? : List Char → Option (Char × Nat)
  | [] => none
  | c :: rest =>
    match escapeDigits? c with
    | some n =>
      if (rest.take n).length = n then (Text.hexChar? (rest.take n)).map (·, n + 1) else none
    | none => (simpleEscape? c).map (·, 1)

/-- Reads a text between quotes from after the first one. In single quotes, a quote is written
twice; in double quotes there are escapes. -/
def readQuoted (quote : Char) : (fuel : Nat) → (acc : List Char) → (gap : Separation) → Place →
    Option (String × Place)
  | 0, _, _, _ => none
  | fuel + 1, acc, gap, p =>
    if p.atEnd then none
    else
      let add (c : Char) (n : Nat) := readQuoted quote fuel (c :: (gap.kept ++ acc)) .empty (p.skip n)
      match p.rest with
      | [] => none
      | '\n' :: rest => readQuoted quote fuel acc gap.addBreak ⟨rest, p.line + 1, 0⟩
      | c :: rest =>
        if isBlank c then readQuoted quote fuel acc (gap.addBlank c) (p.skip 1)
        else if c = quote then
          if quote = '\'' ∧ rest.head? = some '\'' then add c 2
          else some (String.ofList (gap.kept ++ acc).reverse, p.skip 1)
        else if c = '\\' ∧ quote = '"' then
          match rest with
          | '\n' :: rest =>
            readQuoted quote fuel (gap.kept ++ acc) ⟨[], 0, true⟩ ⟨rest, p.line + 1, 0⟩
          | rest =>
            match readEscape? rest with
            | some (e, n) => add e (n + 1)
            | none => none
        else add c 1

/-! ## Blocks of lines -/

/-- What becomes of the line ends at the end of a block. -/
inductive Chomping where
  | strip
  | clip
  | keep

/-- How a block is written: whether its lines stay apart, what becomes of the last line ends, and how
far it is indented, if that is given. -/
structure BlockStyle where
  literal : Bool
  chomping : Chomping
  indent : Option Nat

/-- Reads the signs after the mark of a block; their number comes with them. -/
def readBlockStyle? (literal : Bool) (cs : List Char) : Option (BlockStyle × Nat) :=
  let chomping? : Char → Option Chomping
    | '+' => some .keep
    | '-' => some .strip
    | _ => none
  let indent? (c : Char) : Option Nat := if c.isDigit then some (c.toNat - '0'.toNat) else none
  let style : BlockStyle × Nat :=
    match cs with
    | [] => (⟨literal, .clip, none⟩, 0)
    | c :: rest =>
      match chomping? c, indent? c with
      | some chomping, _ =>
        match rest.head?.bind indent? with
        | some n => (⟨literal, chomping, some n⟩, 2)
        | none => (⟨literal, chomping, none⟩, 1)
      | none, some n =>
        match rest.head?.bind chomping? with
        | some chomping => (⟨literal, chomping, some n⟩, 2)
        | none => (⟨literal, .clip, some n⟩, 1)
      | none, none => (⟨literal, .clip, none⟩, 0)
  if style.1.indent = some 0 then none else some style

/-- Passes over empty lines from the start of one, and over the indentation of the next line, which
is at most `limit` wide. The answer holds the number of empty lines and the widest indentation. A
tab is no indentation. -/
def skipEmptyLines (limit : Option Nat) : (fuel : Nat) → (breaks widest : Nat) → Place →
    Option (Nat × Nat × Place)
  | 0, _, _, _ => none
  | fuel + 1, breaks, widest, p =>
    let spaces := (p.rest.takeWhile (· = ' ')).length
    let width := (limit.map (Nat.min spaces)).getD spaces
    let widest := Nat.max widest width
    match p.rest.drop width with
    | '\n' :: rest => skipEmptyLines limit fuel (breaks + 1) widest ⟨rest, p.line + 1, 0⟩
    | '\t' :: rest =>
      if limit.all (width < ·) then none else some (breaks, widest, ⟨'\t' :: rest, p.line, width⟩)
    | rest => some (breaks, widest, ⟨rest, p.line, width⟩)

/-- The lines of a block that were read, from the last character to the first, and what follows
them: whether the last one has a line end, whether it starts with a blank, and the number of empty
lines. -/
structure BlockText where
  acc : List Char
  ended : Bool
  blank : Bool
  breaks : Nat

/-- What stands between the lines so far and the next one. -/
def BlockText.separator (t : BlockText) (literal blank : Bool) : List Char :=
  if !t.ended then []
  else if literal || t.blank || blank then ['\n']
  else if t.breaks = 0 then [' ']
  else []

/-- Reads the lines of a block that are left. -/
def readBlockLines (literal : Bool) (indent : Nat) : (fuel : Nat) → BlockText → Place →
    Option (BlockText × Place)
  | 0, _, _ => none
  | fuel + 1, t, p =>
    if p.column ≠ indent ∨ p.rest = [] then some (t, p)
    else
      let blank := p.rest.head?.any isBlank
      let content := p.rest.takeWhile (· ≠ '\n')
      let acc := content.reverse ++ List.replicate t.breaks '\n' ++ t.separator literal blank ++ t.acc
      match p.rest.dropWhile (· ≠ '\n') with
      | [] => some (⟨acc, false, blank, 0⟩, p.skip content.length)
      | _ :: rest =>
        match skipEmptyLines (some indent) (rest.length + 1) 0 0 ⟨rest, p.line + 1, 0⟩ with
        | none => none
        | some (breaks, _, next) => readBlockLines literal indent fuel ⟨acc, true, blank, breaks⟩ next

/-- What remains of the line ends after a block, from the last one to the first. -/
def BlockText.tail (t : BlockText) (chomping : Chomping) : List Char :=
  let last := if t.ended then ['\n'] else []
  match chomping with
  | .strip => []
  | .clip => last
  | .keep => List.replicate t.breaks '\n' ++ last

/-- Reads a block from after its mark. Its lines have to be indented by `least` at the least. -/
def readBlock (literal : Bool) (least : Nat) (p : Place) : Option (String × Place) := do
  let (style, signs) ← readBlockStyle? literal p.rest
  let header := p.rest.drop signs
  let afterBlanks := header.dropWhile isBlank
  let afterComment := match afterBlanks with
    | '#' :: rest => rest.dropWhile (· ≠ '\n')
    | rest => rest
  let start : Place ← match afterComment with
    | [] => some ⟨[], p.line, 0⟩
    | '\n' :: rest => some ⟨rest, p.line + 1, 0⟩
    | _ => none
  let given := style.indent.map (least - 1 + ·)
  let (breaks, widest, first) ← skipEmptyLines given (start.rest.length + 1) 0 0 start
  let indent := given.getD (Nat.max widest (Nat.max least 1))
  let (t, stop) ← readBlockLines literal indent (first.rest.length + 1) ⟨[], false, false, breaks⟩ first
  return (String.ofList (t.tail style.chomping ++ t.acc).reverse, stop)

end Nonlocal.Yaml
