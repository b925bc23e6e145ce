import Nonlocal.Text.Digit

/-!
The smallest parts of a TOML text: blanks, comments and line ends, quoted texts, and keys.

A part is read from the front of the text. The answer carries what follows the part, or is none where
the text has no such part.
-/

namespace Nonlocal.Toml

/-- A part of a text that was read, and what follows it. -/
abbrev Reading (α : Type) := Option (α × List Char)

/-! ## Between the parts -/

/-- The blanks within a line. -/
def isBlank (c : Char) : Bool :=
  c == ' ' || c == '\t'

/-- The characters that comments and quoted texts consist of. -/
def isText (c : Char) : Bool :=
  c == '\t' || (0x20 ≤ c.toNat && c.toNat ≠ 0x7f)

/-- The text from its first character that is no blank. -/
def dropBlanks (cs : List Char) : List Char :=
  cs.dropWhile isBlank

/-- What follows the line end at the front of a text. -/
def lineEnd? : List Char → Option (List Char)
  | '\n' :: rest => some rest
  | '\r' :: '\n' :: rest => some rest
  | _ => none

/-- What follows the line end after blanks and a comment; the end of the text ends a line, too. -/
def finishLine? (cs : List Char) : Option (List Char) :=
  let rest := match dropBlanks cs with
    | '#' :: rest => rest.dropWhile isText
    | rest => rest
  if rest = [] then some [] else lineEnd? rest

/-- The text after blanks, line ends and comments; the flag tells whether it starts in a comment. -/
def dropGap (comment : Bool) : List Char → List Char
  | [] => []
  | '\r' :: '\n' :: rest => dropGap false rest
  | c :: rest =>
    if c = '\n' then dropGap false rest
    else if comment then if isText c then dropGap true rest else c :: rest
    else if isBlank c then dropGap false rest
    else if c = '#' then dropGap true rest
    else c :: rest

/-! ## Quoted texts -/

/-- How a text is quoted: the quotation mark, whether a backslash starts an escape, and whether the
text can have several lines and is then set off by three marks. -/
structure Quotation where
  mark : Char
  escapes : Bool
  multiline : Bool

/-- The character that an escape stands for, read from after its backslash. -/
def escape? : List Char → Reading Char
  | 'u' :: a :: b :: c :: d :: rest => (Text.hexChar? [a, b, c, d]).map (·, rest)
  | 'U' :: a :: b :: c :: d :: e :: f :: g :: h :: rest =>
    (Text.hexChar? [a, b, c, d, e, f, g, h]).map (·, rest)
  | 'b' :: rest => some ('\x08', rest)
  | 't' :: rest => some ('\t', rest)
  | 'n' :: rest => some ('\n', rest)
  | 'f' :: rest => some ('\x0c', rest)
  | 'r' :: rest => some ('\r', rest)
  | '"' :: rest => some ('"', rest)
  | '\\' :: rest => some ('\\', rest)
  | _ => none

/-- The text after blanks and line ends. -/
def dropLines : List Char → List Char
  | [] => []
  | '\r' :: '\n' :: rest => dropLines rest
  | c :: rest => if c = '\n' || isBlank c then dropLines rest else c :: rest

/-- Reads a quoted text from after its opening; `acc` holds the characters before, the last one
first. A backslash at the end of a line joins the line to the next character that is no blank. Of
more than three closing marks, the first two can belong to the text. -/
def readQuoted (q : Quotation) : (fuel : Nat) → (acc : List Char) → List Char → Reading String
  | 0, _, _ | _, _, [] => none
  | fuel + 1, acc, c :: rest =>
    if c = q.mark then
      if !q.multiline then some (String.ofList acc.reverse, rest)
      else
        let run := (rest.takeWhile (· = c)).length + 1
        if run < 3 then readQuoted q fuel (c :: acc) rest
        else
          let surplus := Nat.min run 5 - 3
          some (String.ofList (List.replicate surplus c ++ acc).reverse, rest.drop (surplus + 2))
    else if q.escapes && c = '\\' then
      match escape? rest with
      | some (e, rest) => readQuoted q fuel (e :: acc) rest
      | none =>
        match lineEnd? (dropBlanks rest) with
        | some rest => if q.multiline then readQuoted q fuel acc (dropLines rest) else none
        | none => none
    else if isText c then readQuoted q fuel (c :: acc) rest
    else
      match lineEnd? (c :: rest) with
      | some rest => if q.multiline then readQuoted q fuel ('\n' :: acc) rest else none
      | none => none

/-- Reads a quoted text of one line. -/
def readLineText? (cs : List Char) : Reading String :=
  match cs with
  | '"' :: rest => readQuoted ⟨'"', true, false⟩ cs.length [] rest
  | '\'' :: rest => readQuoted ⟨'\'', false, false⟩ cs.length [] rest
  | _ => none

/-- Reads a quoted text. A line end right after three opening marks does not belong to it. -/
def readText? (cs : List Char) : Reading String :=
  let body (rest : List Char) := (lineEnd? rest).getD rest
  match cs with
  | '"' :: '"' :: '"' :: rest => readQuoted ⟨'"', true, true⟩ cs.length [] (body rest)
  | '\'' :: '\'' :: '\'' :: rest => readQuoted ⟨'\'', false, true⟩ cs.length [] (body rest)
  | cs => readLineText? cs

/-! ## Keys -/

/-- The characters of a key without quotes. -/
def isKeyChar (c : Char) : Bool :=
  c.isAlphanum || c == '_' || c == '-'

/-- Reads one part of a key. -/
def readKeyPart? (cs : List Char) : Reading String :=
  match cs with
  | '"' :: _ | '\'' :: _ => readLineText? cs
  | cs =>
    match cs.takeWhile isKeyChar with
    | [] => none
    | word => some (String.ofList word, cs.dropWhile isKeyChar)

/-- Reads the parts of a key that are left, with blanks around each; `acc` holds the parts before,
the last one first. -/
def readKeyParts : (fuel : Nat) → (acc : List String) → List Char → Reading (List String × String)
  | 0, _, _ => none
  | fuel + 1, acc, cs =>
    match readKeyPart? (dropBlanks cs) with
    | none => none
    | some (part, rest) =>
      match dropBlanks rest with
      | '.' :: rest => readKeyParts fuel (part :: acc) rest
      | rest => some ((acc.reverse, part), rest)

/-- The number of lists and tables around each other in which a value can stand. -/
def maxDepth : Nat := 79

/-- Reads a key: the path to a table, and the name in it. A key leads through a limited number of
tables. -/
def readKey? (cs : List Char) : Reading (List String × String) :=
  (readKeyParts (cs.length + 1) [] cs).filter fun ((path, _), _) => path.length < maxDepth

end Nonlocal.Toml
