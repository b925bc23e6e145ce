import Nonlocal.Random.ChaCha
import Nonlocal.Scalar

/-!
Binomial counts.

The number of successes in `n` trials is drawn by inversion of the distribution function when few
successes are expected, and by rejection from a piecewise envelope of the density otherwise. A
probability above one half is exchanged with its complement first. Neither procedure always has an
answer: rounding can leave a walk without an end, and an envelope without an area.
-/

namespace Nonlocal.Binomial

/-! ## Probabilities -/

/-- Why a number is not the probability of a success. -/
inductive Fault where
  | belowZero
  | aboveOne

/-- The message of a fault. -/
def Fault.message : Fault → String
  | .belowZero => "p < 0 or is NaN in binomial distribution"
  | .aboveOne => "p > 1 in binomial distribution"

variable {K : Type} [Scalar K]

/-- Checks that a number is a probability. -/
def check (p : K) : Except Fault Unit :=
  if !Scalar.le 0 p then .error .belowZero
  else if !Scalar.le p 1 then .error .aboveOne
  else .ok ()

/-- A random fraction with the given number of binary digits, from the upper bits of a word. -/
def fraction (digits : Nat) (g : Generator) : K × Generator :=
  let (word, g) := g.next
  (Scalar.ofNat (word.toNat / Nat.pow 2 (64 - digits)) / Scalar.ofNat (Nat.pow 2 digits), g)

/-! ## Inversion -/

/-- Walks up the distribution from `x` successes: `u` is what is left of the random number, `r` the
probability of `x` successes. A walk that leads beyond `x + steps` successes, where there is nothing
left of the distribution, does not end. -/
def search? (s a : K) : (steps : Nat) → (u r : K) → (x : Nat) → Option Nat
  | 0, u, r, x => if Scalar.lt r u then none else some x
  | steps + 1, u, r, x =>
    if Scalar.lt r u then
      search? s a steps (u - r) (r * (a / Scalar.ofNat (x + 1) - s)) (x + 1)
    else some x

/-- Draws by inversion. -/
def invert? (n : Nat) (p : K) (g : Generator) : Option (Nat × Generator) :=
  let q := 1 - p
  let s := p / q
  let a := Scalar.ofNat (n + 1) * s
  let (u, g) := fraction 53 g
  (search? s a n u (Scalar.powNat q n) 0).map (·, g)

/-! ## Rejection -/

/-- The envelope of the binomial density: a triangle and parallelograms around the mode, and two
exponential tails. -/
structure Envelope (K : Type) where
  /-- Trials and probability of success. -/
  trials : Nat
  p : K
  q : K
  /-- Variance. -/
  npq : K
  /-- The most likely number of successes. -/
  mode : Int
  /-- Tip, left and right end of the triangle. -/
  tip : K
  left : K
  right : K
  /-- Height of the parallelograms. -/
  height : K
  /-- Rates of the tails. -/
  rateLeft : K
  rateRight : K
  /-- Areas up to the end of each region. -/
  area₁ : K
  area₂ : K
  area₃ : K
  area₄ : K

namespace Envelope

/-- The rate of a tail. -/
def rate (a : K) : K :=
  a * (1 + 1 / 2 * a)

/-- The envelope for `n` trials with probability `p ≤ 1/2`. -/
def of (n : Nat) (p : K) : Envelope K :=
  let q := 1 - p
  let count : K := Scalar.ofNat n
  let np := count * p
  let npq := np * q
  let fm := np + p
  let mode := Scalar.truncate fm
  let area₁ := Scalar.floor
    (Scalar.ofScientific 2195 true 3 * Scalar.sqrt npq - Scalar.ofScientific 46 true 1 * q)
    + 1 / 2
  let tip := Scalar.ofNat mode.toNat + 1 / 2
  let left := tip - area₁
  let right := tip + area₁
  let height := Scalar.ofScientific 134 true 3
    + Scalar.ofScientific 205 true 1 / (Scalar.ofScientific 153 true 1 + Scalar.ofNat mode.toNat)
  let area₂ := area₁ * (1 + 2 * height)
  let rateLeft := rate ((fm - left) / (fm - left * p))
  let rateRight := rate ((right - fm) / (right * q))
  let area₃ := area₂ + height / rateLeft
  let area₄ := area₃ + height / rateRight
  { trials := n, p, q, npq, mode, tip, left, right, height, rateLeft, rateRight,
    area₁, area₂, area₃, area₄ }

/-- Can points of the envelope be drawn? Where few successes are expected of very many trials its
area is negative. -/
def hasArea (e : Envelope K) : Bool :=
  Scalar.lt 0 e.area₄ && Scalar.isFinite e.area₄

/-- What a point of the envelope proposes. -/
inductive Proposal (K : Type) where
  | accept (y : Int)
  | reject
  | test (y : Int) (v : K)
  /-- The point is too far out for a whole number. -/
  | overflow

/-- Goes on with the integer part of a number. -/
def Proposal.ofWhole (x : K) (propose : Int → Proposal K) : Proposal K :=
  if Scalar.lt x (Scalar.ofNat (Nat.pow 2 63)) then propose (Scalar.truncate x) else .overflow

/-- The proposal of a point: `u` chooses the region, `v` the height in it. -/
def propose (e : Envelope K) (u v : K) : Proposal K :=
  if !Scalar.lt e.area₁ u then .ofWhole (e.tip - e.area₁ * v + u) .accept
  else if !Scalar.lt e.area₂ u then
    let x := e.left + (u - e.area₁) / e.height
    let v := v * e.height + 1 - Scalar.abs (x - e.tip) / e.area₁
    if Scalar.lt 1 v then .reject else .ofWhole x fun y => .test y v
  else if !Scalar.lt e.area₃ u then
    .ofWhole (e.left + Scalar.log v / e.rateLeft) fun y =>
      if y < 0 then .reject else .test y (v * ((u - e.area₂) * e.rateLeft))
  else
    .ofWhole (e.right - Scalar.log v / e.rateRight) fun y =>
      if (e.trials : Int) < y then .reject else .test y (v * ((u - e.area₃) * e.rateRight))

/-- A whole number as a scalar. -/
def whole (i : Int) : K :=
  if i < 0 then -Scalar.ofNat i.natAbs else Scalar.ofNat i.natAbs

/-- The density at `y` relative to the mode, by the recurrence between neighbours. -/
def relativeDensity (e : Envelope K) (y : Int) : K :=
  let s := e.p / e.q
  let a := s * (Scalar.ofNat e.trials + 1)
  let ratio (i : Int) : K := a / whole i - s
  if e.mode < y then
    (List.range (y - e.mode).toNat).foldl
      (fun (f : K) (i : Nat) => f * ratio (e.mode + 1 + (i : Int))) 1
  else
    (List.range (e.mode - y).toNat).foldl
      (fun (f : K) (i : Nat) => f / ratio (y + 1 + (i : Int))) 1

/-- The correction terms of the logarithm of a factorial. -/
def stirling (a : K) : K :=
  let a2 := a * a
  (13860 - (462 - (132 - (99 - 140 / a2) / a2) / a2) / a2) / a / 166320

/-- Is a proposal that needs a test accepted? Near the mode, or far outside the bulk, the density is
computed; elsewhere its logarithm is squeezed between two bounds before it is computed. -/
def accepts (e : Envelope K) (y : Int) (v : K) : Bool :=
  let distance := (y - e.mode).natAbs
  let k : K := Scalar.ofNat distance
  if !(20 < distance && Scalar.lt k (1 / 2 * e.npq - 1)) then
    !Scalar.lt (e.relativeDensity y) v
  else
    let rho := k / e.npq
      * ((k * (k / 3 + Scalar.ofScientific 625 true 3) + 1 / 6) / e.npq + 1 / 2)
    let t := -(1 / 2) * k * k / e.npq
    let alpha := Scalar.log v
    if Scalar.lt alpha (t - rho) then true
    else if Scalar.lt (t + rho) alpha then false
    else
      let n : K := Scalar.ofNat e.trials
      let x1 := whole (y + 1)
      let f1 := whole (e.mode + 1)
      let z := whole (e.trials + 1 - e.mode)
      let w := whole (e.trials - y + 1)
      let bound := e.tip * Scalar.log (f1 / x1)
        + (n - whole e.mode + 1 / 2) * Scalar.log (z / w)
        + whole (y - e.mode) * Scalar.log (w * e.p / (x1 * e.q))
        + stirling f1 + stirling z - stirling x1 - stirling w
      !Scalar.lt bound alpha

/-- The number of points that are tried before the draw is given up. Where the envelope has an area,
each is accepted with a probability above one half. -/
def maxAttempts : Nat := UInt32.size

/-- What is drawn is no count if it is negative. -/
def count? (y : Int) (g : Generator) : Option (Nat × Generator) :=
  if y < 0 then none else some (y.toNat, g)

/-- Tries points until one is accepted. -/
def drawWithin? (e : Envelope K) : (attempts : Nat) → Generator → Option (Nat × Generator)
  | 0, _ => none
  | attempts + 1, g =>
    let (x, g) := fraction 52 g
    let (v, g) := fraction 52 g
    match e.propose (x * e.area₄) v with
    | .accept y => count? y g
    | .reject => e.drawWithin? attempts g
    | .test y v => if e.accepts y v then count? y g else e.drawWithin? attempts g
    | .overflow => none

end Envelope

/-- Draws by rejection. -/
def reject? (n : Nat) (p : K) (g : Generator) : Option (Nat × Generator) :=
  let e := Envelope.of n p
  if e.hasArea then e.drawWithin? Envelope.maxAttempts g else none

/-! ## Draws -/

/-- The number of successes in `n` trials that succeed with a probability other than zero and one. -/
def draw? (n : Nat) (p : K) (g : Generator) : Option (Nat × Generator) :=
  let flipped := !Scalar.le p (1 / 2)
  let rare := if flipped then 1 - p else p
  let few := Scalar.lt (Scalar.ofNat n * rare) 10 && decide ((n : Int) ≤ Int32.maxValue.toInt)
  let drawn := if few then invert? n rare g else reject? n rare g
  if flipped then
    drawn.bind fun (k, g) => if k ≤ n then some (n - k, g) else none
  else drawn

end Nonlocal.Binomial
