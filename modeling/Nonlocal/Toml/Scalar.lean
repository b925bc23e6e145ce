import Nonlocal.Decimal.Reading
import Nonlocal.Json.Document
import Nonlocal.Text.Digit

/-!
Numbers, truth values and dates of a TOML text.

Such a value is one word without blanks, except for a blank between a date and a time. Underscores
may stand between two digits. Whole numbers are signed and have 64 bits.
-/

namespace Nonlocal.Toml

open Json

/-! ## Numbers -/

/-- The digits of a word in which single underscores may stand between two digits. -/
def grouped? (isDigit : Char → Bool) (cs : List Char) : Option (List Char) :=
  let groups := cs.splitOn '_'
  if groups.all fun g => !g.isEmpty && g.all isDigit then some groups.flatten else none

/-- Decimal digits without a leading zero. -/
def wholeDigits? (cs : List Char) : Option (List Char) :=
  match cs with
  | '0' :: _ :: _ => none
  | cs => grouped? Char.isDigit cs

/-- The magnitude of a whole number in digits of the base. -/
def magnitude? (base : Nat) (cs : List Char) : Option Nat :=
  (grouped? (fun c => (Text.digit? base c).isSome) cs).bind (Text.value? base)

/-- A whole number. Only a decimal one can have a sign. -/
def integer? (word : List Char) : Option Int := do
  let n : Int ← match word with
    | '0' :: 'x' :: digits => (magnitude? 16 digits).map Int.ofNat
    | '0' :: 'o' :: digits => (magnitude? 8 digits).map Int.ofNat
    | '0' :: 'b' :: digits => (magnitude? 2 digits).map Int.ofNat
    | word =>
      let (negative, digits) := Decimal.spanSign word
      (wholeDigits? digits).map fun digits =>
        let n : Int := Decimal.digitsValue digits
        if negative then -n else n
  if Int64.minValue.toInt ≤ n ∧ n ≤ Int64.maxValue.toInt then some n else none

/-- The exponent after its mark. -/
def exponent? (cs : List Char) : Option Int :=
  let (negative, digits) := Decimal.spanSign cs
  (grouped? Char.isDigit digits).map fun digits =>
    let n : Int := Decimal.digitsValue digits
    if negative then -n else n

/-- A number with a fraction, an exponent, or both. One that is too large is refused; a negative one
becomes infinite. -/
def fractional? (word : List Char) : Option Float := do
  let (negative, unsigned) := Decimal.spanSign word
  let isMark (c : Char) : Bool := c == 'e' || c == 'E'
  let mantissa := unsigned.takeWhile (!isMark ·)
  let whole := mantissa.takeWhile (· ≠ '.')
  let digits ← wholeDigits? whole
  let fraction ← match mantissa.dropWhile (· ≠ '.') with
    | [] => some []
    | _ :: cs => grouped? Char.isDigit cs
  let exponent ← match unsigned.dropWhile (!isMark ·) with
    | [] => if fraction = [] then none else some 0
    | _ :: cs => exponent? cs
  let x := Decimal.nearest negative (Decimal.digitsValue (digits ++ fraction))
    (exponent - fraction.length)
  if x.isInf && !negative then none else some x

/-- One of the words for numbers that are not finite. -/
def special? (word : List Char) : Option Float :=
  let (negative, word) := Decimal.spanSign word
  if word = ['i', 'n', 'f'] then some (if negative then -1.0 / 0.0 else 1.0 / 0.0)
  else if word = ['n', 'a', 'n'] then some (0.0 / 0.0)
  else none

/-! ## Dates and times -/

/-- Exactly `n` digits at the front, and what follows them. -/
def digits? (n : Nat) (cs : List Char) : Option (Nat × List Char) :=
  let digits := cs.take n
  if digits.length = n && digits.all Char.isDigit then
    some (Decimal.digitsValue digits, cs.drop n)
  else none

/-- What follows a character at the front. -/
def after? (c : Char) : List Char → Option (List Char)
  | d :: rest => if d = c then some rest else none
  | [] => none

/-- The number of days of a month. -/
def daysOf (year month : Nat) : Nat :=
  if month = 2 then
    if year % 4 = 0 ∧ (year % 100 ≠ 0 ∨ year % 400 = 0) then 29 else 28
  else if month ∈ [4, 6, 9, 11] then 30
  else 31

/-- What follows a date. -/
def date? (cs : List Char) : Option (List Char) := do
  let (year, cs) ← digits? 4 cs
  let (month, cs) ← digits? 2 (← after? '-' cs)
  let (day, cs) ← digits? 2 (← after? '-' cs)
  if 1 ≤ month ∧ month ≤ 12 ∧ 1 ≤ day ∧ day ≤ daysOf year month then some cs else none

/-- What follows an hour and a minute. -/
def hourMinute? (cs : List Char) : Option (List Char) := do
  let (hour, cs) ← digits? 2 cs
  let (minute, cs) ← digits? 2 (← after? ':' cs)
  if hour < 24 ∧ minute < 60 then some cs else none

/-- What follows a time; a minute can have a leap second. -/
def time? (cs : List Char) : Option (List Char) := do
  let cs ← hourMinute? cs
  let (second, cs) ← digits? 2 (← after? ':' cs)
  if 60 < second then none
  else
    match cs with
    | '.' :: fraction =>
      let (digits, rest) := Decimal.spanDigits fraction
      if digits = [] then none else some rest
    | cs => some cs

/-- Is this an offset from universal time, or nothing? -/
def isOffset : List Char → Bool
  | [] | ['Z'] | ['z'] => true
  | c :: cs => (c == '+' || c == '-') && hourMinute? cs == some []

/-- Is the word a date, a time, or both? -/
def isDateTime (word : List Char) : Bool :=
  match date? word with
  | some [] => true
  | some (mark :: cs) => (mark == 'T' || mark == 't' || mark == ' ') && (time? cs).any isOffset
  | none => time? word == some []

/-- The name of the field under which a date is passed on. -/
def dateField : String := "$__toml_private_datetime"

/-! ## Any of them -/

/-- The value that a word stands for. -/
def scalar? (word : List Char) : Option Document :=
  if word = ['t', 'r', 'u', 'e'] then some (.boolean true)
  else if word = ['f', 'a', 'l', 's', 'e'] then some (.boolean false)
  else if isDateTime word then
    some (.object [(.pure dateField, .string (.pure (String.ofList word)))] .lenient)
  else
    match integer? word with
    | some n => some (.number (.pure (.integer n)))
    | none => ((fractional? word).or (special? word)).map fun x => .number (.pure (.decimal x))

/-- The characters of a word. -/
def isWordChar (c : Char) : Bool :=
  c.isAlphanum || c == '_' || c == '+' || c == '-' || c == '.' || c == ':'

/-- Reads a number, a truth value or a date. A time can follow a date after a blank. -/
def readScalar? (cs : List Char) : Option (Document × List Char) :=
  let word := cs.takeWhile isWordChar
  let rest := cs.dropWhile isWordChar
  match date? word, rest with
  | some [], ' ' :: d :: _ =>
    if d.isDigit then
      let time := rest.tail.takeWhile isWordChar
      (scalar? (word ++ ' ' :: time)).map (·, rest.tail.dropWhile isWordChar)
    else (scalar? word).map (·, rest)
  | _, _ => (scalar? word).map (·, rest)

end Nonlocal.Toml
