import Nonlocal.Decimal.Reading
import Nonlocal.Json.Document

/-!
Numbers in a JSON text.

A number is read from its digits into a 64-bit significand and a power of ten. Whole numbers that
fit 64 bits stay whole. Of the others, digits that no longer fit the significand only move the power
of ten, and the value is the significand, rounded to a double, multiplied or divided once by the
power. The last step rounds again, so the result can differ from the nearest double in its last bit.
-/

namespace Nonlocal.Json

/-- The parts of a number in their order: digits before the point, digits after it, and the sign
and digits of the exponent. -/
structure NumberParts where
  negative : Bool
  whole : List Char
  fraction : Option (List Char)
  exponent : Option (Bool × List Char)

namespace NumberParts

/-- The largest significand. -/
def maxSignificand : Nat := UInt64.size - 1

/-- Takes digits into the significand as long as it fits; the digits that are left are returned. -/
def absorb (significand : Nat) : List Char → Nat × List Char
  | [] => (significand, [])
  | c :: rest =>
    let next := 10 * significand + (c.toNat - '0'.toNat)
    if maxSignificand < next then (significand, c :: rest) else absorb next rest

/-- The exponents that a 32-bit word can hold. -/
def maxExponent : Nat := Int32.maxValue.toInt.toNat

/-- The power of ten with exponent `e ≤ 308`, as a double. -/
def powerOfTen (e : Nat) : Float :=
  Decimal.nearest false 1 e

/-- Scales a double by a power of ten. Exponents below the table are approached in steps; after two
of them nothing is left of a significand. -/
def scale (f : Float) (e : Int) : (steps : Nat) → Except Fault Float
  | 0 => .ok f
  | steps + 1 =>
    if e.natAbs ≤ 308 then
      if e < 0 then .ok (f / powerOfTen e.natAbs)
      else
        let x := f * powerOfTen e.natAbs
        if x.isInf then .error .numberOutOfRange else .ok x
    else if f == 0.0 then .ok f
    else if 0 < e then .error .numberOutOfRange
    else scale (f / powerOfTen 308) (e + 308) steps

/-- The double with a significand, a power of ten and a sign. -/
def assemble (negative : Bool) (significand : Nat) (e : Int) : Except Fault Float := do
  let f ← scale (UInt64.ofNat significand).toFloat e 4
  return if negative then -f else f

/-- The value of the parts that are not a whole number. -/
def decimalValue (p : NumberParts) (significand : Nat) (e : Int) : Except Fault Float :=
  match p.exponent with
  | none => assemble p.negative significand e
  | some (negativeExponent, digits) =>
    let exponent := Decimal.digitsValue digits
    if maxExponent < exponent then
      if significand ≠ 0 ∧ !negativeExponent then .error .numberOutOfRange
      else .ok (if p.negative then -0.0 else 0.0)
    else
      assemble p.negative significand (if negativeExponent then e - exponent else e + exponent)

/-- The value of the parts. -/
def value (p : NumberParts) : Except Fault Numeral :=
  let (significand, surplus) := absorb 0 p.whole
  match p.fraction, p.exponent, surplus with
  | none, none, [] =>
    if !p.negative then .ok (.integer significand)
    else if significand = 0 ∨ UInt64.size / 2 < significand then
      .ok (.decimal (-(UInt64.ofNat significand).toFloat))
    else .ok (.integer (-significand))
  | none, _, _ => (p.decimalValue significand surplus.length).map .decimal
  | some digits, _, _ =>
    let (full, dropped) := absorb significand digits
    let taken := digits.length - dropped.length
    (p.decimalValue full (surplus.length - taken)).map .decimal

/-- A number that stops before it is complete; the end of the text is told apart from another
character only when the value is asked for. -/
def incomplete (rest : List Char) : Leaf Numeral × Option (List Char) :=
  (⟨.error (if rest = [] then .endInValue else .numberInvalid), .error .numberInvalid⟩, none)

/-- Reads the exponent, if there is one. -/
def readExponent (p : NumberParts) (cs : List Char) : Leaf Numeral × Option (List Char) :=
  match cs with
  | mark :: rest =>
    if mark = 'e' ∨ mark = 'E' then
      let (negative, rest) := Decimal.spanSign rest
      let (digits, rest) := Decimal.spanDigits rest
      if digits = [] then incomplete rest
      else (⟨value { p with exponent := some (negative, digits) }, .ok ()⟩, some rest)
    else (⟨value p, .ok ()⟩, some cs)
  | [] => (⟨value p, .ok ()⟩, some [])

/-- Reads a number; the answer holds what follows it, unless it breaks off. -/
def read (cs : List Char) : Leaf Numeral × Option (List Char) :=
  let (negative, cs) := match cs with
    | '-' :: rest => (true, rest)
    | _ => (false, cs)
  let (whole, rest) := Decimal.spanDigits cs
  match whole with
  | [] => incomplete rest
  | '0' :: _ :: _ => (⟨.error .numberInvalid, .error .numberInvalid⟩, none)
  | _ =>
    match rest with
    | '.' :: rest =>
      let (fraction, rest) := Decimal.spanDigits rest
      if fraction = [] then incomplete rest
      else readExponent ⟨negative, whole, some fraction, none⟩ rest
    | _ => readExponent ⟨negative, whole, none, none⟩ rest

end NumberParts

end Nonlocal.Json
