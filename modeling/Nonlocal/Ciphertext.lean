import Nonlocal.Amplitude

/-!
A stand-in for a homomorphic ciphertext. Nothing is encrypted: the summary holds the number of slots,
their scale, and a digest of their discrete Fourier spectrum.
-/

namespace Nonlocal

/-- What is reported of a ciphertext. -/
structure CiphertextSummary (K : Type) where
  digest : K
  slots : UInt64
  scale : K

namespace Ciphertext

variable {K : Type} [Scalar K]

/-- The root of unity `exp (-2πi k / n)`. -/
def twiddle (n k : Nat) : Amplitude K :=
  Amplitude.polar 1 (-(2 * Scalar.pi * Scalar.ofNat (k % n) / Scalar.ofNat n))

/-- The `k`-th value of the discrete Fourier transform of real slots, without normalization. -/
def spectralBin (slots : List K) (k : Nat) : Amplitude K :=
  slots.zipIdx.foldl (fun acc (x, j) =>
    let w := twiddle slots.length (j * k)
    acc + ⟨x * w.re, x * w.im⟩) 0

/-- The sum of the moduli of the spectrum. -/
def digest (slots : List K) : K :=
  Scalar.sum ((List.range slots.length).map fun k => (spectralBin slots k).norm)

/-- The summary of a list of slots. -/
def summarize (slots : List K) (scale : K) : CiphertextSummary K :=
  ⟨digest slots, UInt64.ofNat slots.length, scale⟩

end Ciphertext

end Nonlocal
