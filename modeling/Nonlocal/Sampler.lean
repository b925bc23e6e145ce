import Nonlocal.Correlator

/-!
Measured correlators: the relative frequencies that a finite number of shots would show.

Every estimate is drawn from a generator that is handed on, so estimates depend on the seed and on
the order in which they are taken. An estimate that cannot be drawn leaves the generator as it is.
-/

namespace Nonlocal

/-- A computation that takes random words and may fail. -/
abbrev Run (K α : Type) := ExceptT (Error K) (StateM Generator) α

namespace Sampler

/-- The seed of the correlator runs. -/
def correlatorSeed : UInt64 := 0x5D5DC45C

/-- The seed of the chaos runs. -/
def chaosSeed : UInt64 := 0x5DE20F11

/-- The probability of the outcome `+1`, for an observable with this expectation value. -/
def probability {K : Type} [Scalar K] (e : K) : K :=
  (1 + Clamp.expectation e) / 2

/-- The excess of one outcome over the other, relative to the number of shots. -/
def excess {K : Type} [Scalar K] (plus shots : Nat) : K :=
  (Scalar.ofNat plus - Scalar.ofNat (shots - plus)) / Scalar.ofNat shots

variable {K : Type} [Numerics K]

/-- The number of shots among `n` with an outcome of this probability. A certain outcome takes
nothing from the generator. -/
def count? (n : Nat) (p : K) (g : Generator) : Option (Nat × Generator) :=
  if Scalar.eq p 0 then some (0, g)
  else if Scalar.eq p 1 then some (n, g)
  else Numerics.binomial n p g

/-- Counts the shots with an outcome of this probability. -/
def draw (n : Nat) (p : K) : Run K Nat := do
  match count? n p (← get) with
  | none => throw (.sampling (.panic .unanswered))
  | some (plus, g) =>
    set g
    return plus

/-- One estimate of an expectation value; at least one shot is taken. The shots with the other
outcome are what is left of all shots. -/
def sample (e : K) (shots : UInt64) : Run K K := do
  let n := Nat.max 1 shots.toNat
  ((Binomial.check (probability e)).mapError (Error.sampling <| .improbable ·) :
    Except (Error K) Unit)
  let plus ← draw n (probability e)
  if n < plus then
    throw (.sampling (.panic .countOverflow))
  return excess plus n

/-- One estimate after another. -/
def sampleAll (shots : UInt64) : List K → Run K (List K)
  | [] => return []
  | e :: rest => do
    let estimate ← sample e shots
    return estimate :: (← sampleAll shots rest)

/-- Estimates of all correlators in order, with their signed sum. Values without a sign are not
drawn. -/
def sampleCorrelators (c : Correlators K) (shots : UInt64) : Run K (List K × K) := do
  let estimates ← sampleAll shots (c.values.take c.signs.length)
  return (estimates, Correlators.signedSum c.signs estimates)

end Sampler

end Nonlocal
