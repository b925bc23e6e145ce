import Nonlocal.DensityMatrix

/-!
Privacy bounds from the spectrum of a state.

The absolute eigenvalues, normalized to a probability vector, give an entropy, a divergence from the
uniform distribution and a distance from it; the report compares them with thresholds.
-/

namespace Nonlocal

/-- Thresholds and constants of the privacy report. -/
structure PrivacyBounds (K : Type) where
  maxEntropyLeakBits : K
  minReyniDivergence : K
  maxHockeyStickDelta : K
  reyniAlpha : K
  reyniScale : K
  hockeyStickScale : K
  amplificationGain : K
  amplificationCeiling : K

/-- The privacy report. -/
structure PrivacyMetrics (K : Type) where
  entropyLeakBits : K
  reyniDivergence : K
  hockeyStickDelta : K
  amplificationBound : K
  ciphertextDigest : K
  satisfied : Bool

/-- The standard thresholds. -/
def PrivacyBounds.standard {K : Type} [Scalar K] : PrivacyBounds K where
  maxEntropyLeakBits := Scalar.ofScientific 1 true 154
  minReyniDivergence := 42
  maxHockeyStickDelta := Scalar.ofScientific 1 true 12
  reyniAlpha := Scalar.ofScientific 125 true 2
  reyniScale := 64
  hockeyStickScale := Scalar.ofScientific 1 true 6
  amplificationGain := 154
  amplificationCeiling := Scalar.ofScientific 1 true 308

namespace Privacy

variable {K : Type} [Scalar K]

/-- The distance between one and the next larger double: orders closer to one count as one. -/
def orderResolution : K :=
  1 / Scalar.ofNat (Nat.pow 2 52)

/-- The absolute values of a spectrum, normalized to sum to one. A spectrum that vanishes, or whose
sum is not finite, is replaced by the uniform distribution. -/
def probabilities (spectrum : List K) : List K :=
  let magnitudes := spectrum.map Scalar.abs
  let total := Scalar.sum magnitudes
  if Scalar.isFinite total && Scalar.lt 0 total then magnitudes.map (· / total)
  else spectrum.map fun _ => 1 / Scalar.ofNat spectrum.length

/-- The Shannon entropy in bits; entries that are not positive contribute nothing. -/
def entropy (ps : List K) : K :=
  -Scalar.sum ((ps.filter (Scalar.lt 0)).map fun p => p * Scalar.log2 p)

/-- The divergence of order `α` from the uniform distribution. Orders that are not told apart from
one give zero. -/
def divergence (ps : List K) (α : K) : K :=
  if ps.isEmpty || Scalar.lt (Scalar.abs (α - 1)) orderResolution then 0
  else
    (Scalar.log (Scalar.sum (ps.map (Scalar.pow · α)))
      + (α - 1) * Scalar.log (Scalar.ofNat ps.length)) / (α - 1)

/-- The sum of the fourth powers of the distances from the uniform distribution. -/
def hockeyStick (ps : List K) : K :=
  let uniform := 1 / Scalar.ofNat ps.length
  Scalar.sum (ps.map fun p => Scalar.powNat (Scalar.abs (p - uniform)) 4)

/-- The report for a spectrum; the digest is handed on as it is. -/
def analyzeSpectrum (bounds : PrivacyBounds K) (spectrum : List K) (digest : K) :
    PrivacyMetrics K :=
  let ps := probabilities spectrum
  let leak := Scalar.pow 2 (-entropy ps * Scalar.ofNat ps.length)
  let reyni := divergence ps bounds.reyniAlpha * bounds.reyniScale
  let hockey := hockeyStick ps * bounds.hockeyStickScale
  { entropyLeakBits := leak
    reyniDivergence := reyni
    hockeyStickDelta := hockey
    amplificationBound :=
      Scalar.min (Scalar.pow leak bounds.amplificationGain) bounds.amplificationCeiling
    ciphertextDigest := digest
    satisfied := Scalar.le leak bounds.maxEntropyLeakBits
      && Scalar.le hockey bounds.maxHockeyStickDelta
      && Scalar.le bounds.minReyniDivergence reyni }

end Privacy

/-- The report for a state. -/
def Privacy.analyze {K : Type} [Numerics K] (bounds : PrivacyBounds K) (ρ : DensityMatrix K)
    (digest : K) : PrivacyMetrics K :=
  Privacy.analyzeSpectrum bounds ρ.eigenvalues digest

end Nonlocal
