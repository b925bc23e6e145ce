import Nonlocal.Clamp
import Nonlocal.Error
import Nonlocal.Numerics
import Nonlocal.Setting

/-!
Joint states of a register of qubits.

A state of `q` qubits is a matrix whose rows and columns are indexed by bit strings of length `q`;
qubit zero is the most significant bit. The constructors give pure states and the maximally mixed
state; the two transformations mix a state with white noise and disturb its diagonal. Neither
changes its argument.
-/

namespace Nonlocal

/-- The number of bit strings of a register. -/
abbrev basisSize (qubits : Nat) : Nat :=
  Nat.pow 2 qubits

theorem basisSize_pos (qubits : Nat) : 0 < basisSize qubits :=
  Nat.two_pow_pos qubits

theorem basisSize_succ (qubits : Nat) : basisSize (qubits + 1) = basisSize qubits * 2 :=
  rfl

/-- The first bit of a string. -/
def firstBit {qubits : Nat} (i : Fin (basisSize (qubits + 1))) : Fin 2 :=
  ⟨i.val / basisSize qubits, Nat.div_lt_of_lt_mul (basisSize_succ qubits ▸ i.isLt)⟩

/-- The bits of a string after the first one. -/
def otherBits {qubits : Nat} (i : Fin (basisSize (qubits + 1))) : Fin (basisSize qubits) :=
  ⟨i.val % basisSize qubits, Nat.mod_lt _ (basisSize_pos qubits)⟩

/-- The joint state of a register, as a matrix over bit strings. -/
structure DensityMatrix (K : Type) where
  qubits : Nat
  matrix : SquareMatrix K (basisSize qubits)

namespace DensityMatrix

/-- The largest register that is simulated. -/
def maxQubits : Nat := 10

/-- The size of a register: at least one qubit, at most `maxQubits`. -/
def clampQubits (qubits : Nat) : Nat :=
  Nat.max 1 (Nat.min qubits maxQubits)

/-- Norms below this are treated as zero. -/
def normFloor {K : Type} [Scalar K] : K :=
  Scalar.ofScientific 1 true 12

variable {K : Type} [Scalar K]

/-- The number of rows. -/
def dimension (ρ : DensityMatrix K) : Nat :=
  basisSize ρ.qubits

/-- A state vector of a register. -/
abbrev Ket (K : Type) (qubits : Nat) := Vector (Amplitude K) (basisSize qubits)

/-- The pure state `|ψ⟩⟨ψ|`. -/
def ofKet {qubits : Nat} (ψ : Ket K qubits) : DensityMatrix K :=
  ⟨qubits, SquareMatrix.ofFn fun i j => ψ[i] * (ψ[j]).conj⟩

/-- The superposition of all qubits zero and all qubits one, with equal weights. -/
def ghzKet (qubits : Nat) : Ket K qubits :=
  Vector.ofFn fun i =>
    if i.val = 0 ∨ i.val = basisSize qubits - 1 then Amplitude.ofScalar (Scalar.sqrt 2 / 2) else 0

/-- The pure state of `(|0…0⟩ + |1…1⟩)/√2` on a register of clamped size. -/
def ghz (qubits : Nat) : DensityMatrix K :=
  ofKet (ghzKet (clampQubits qubits))

/-- The two-qubit state of `(|00⟩ + |11⟩)/√2`. -/
def bell : DensityMatrix K :=
  ghz 2

/-- White noise on a register of clamped size: every bit string is equally likely. -/
def maximallyMixed (qubits : Nat) : DensityMatrix K :=
  let q := clampQubits qubits
  ⟨q, SquareMatrix.ofFn fun i j =>
    if i = j then Amplitude.ofScalar (1 / Scalar.ofNat (basisSize q)) else 0⟩

/-- The tensor product of the eigenkets of the settings, after a number that the settings before
have come to. -/
def productKetFrom : (acc : Amplitude K) → (settings : List (Setting K)) → Ket K settings.length
  | acc, [] => Vector.ofFn fun _ => acc
  | acc, s :: rest =>
    let halves := Vector.ofFn fun b => productKetFrom (acc * s.eigenket b) rest
    Vector.ofFn fun i => (halves[firstBit i])[otherBits i]

/-- The tensor product of the eigenkets of the settings, the first one leading. -/
def productKet (settings : List (Setting K)) : Ket K settings.length :=
  productKetFrom (Amplitude.ofScalar 1) settings

/-- The separable state in which each qubit points along its setting. -/
def product (settings : List (Setting K)) : Except (Error K) (DensityMatrix K) :=
  if settings.isEmpty || maxQubits < settings.length then
    .error (.malformed (.productSize settings.length))
  else .ok (ofKet (productKet settings))

/-- The Euclidean norm of a list of amplitudes. -/
def ketNorm (ψ : List (Amplitude K)) : K :=
  Scalar.sqrt (Scalar.sum (ψ.map Amplitude.normSq))

/-- The register whose state vectors have this length. -/
def registerOf? (length : Nat) : Option Nat :=
  (List.range maxQubits).findSome? fun n => if basisSize (n + 1) = length then some (n + 1) else none

theorem basisSize_of_registerOf? {length q : Nat} (h : registerOf? length = some q) :
    length = basisSize q := by
  obtain ⟨n, -, found⟩ := List.exists_of_findSome?_eq_some h
  split at found
  · next size => cases found; exact size.symm
  · cases found

/-- The projector onto a vector of any length: the vector is normalized first. -/
def ofVector (ψ : List (Amplitude K)) : Except (Error K) (DensityMatrix K) :=
  match h : registerOf? ψ.length with
  | none => .error (.malformed (.ketLength ψ.length))
  | some qubits =>
    let norm := ketNorm ψ
    if Scalar.lt norm normFloor then .error (.malformed .ketZero)
    else
      let normalized : Ket K qubits :=
        ⟨(ψ.map fun z => z.divScalar norm).toArray, by
          simpa using basisSize_of_registerOf? h⟩
      .ok (ofKet normalized)

/-- The depolarizing channel: with the clamped probability `p` the state is replaced by white noise.
Without noise the state is returned as it is. -/
def depolarize (ρ : DensityMatrix K) (probability : K) : DensityMatrix K :=
  let p := Clamp.depolarizing probability
  if Scalar.eq p 0 then ρ
  else
    let keep := Amplitude.ofScalar (1 - p)
    let mixed := Amplitude.ofScalar (p / Scalar.ofNat ρ.dimension)
    ⟨ρ.qubits, SquareMatrix.ofFn fun i j =>
      let kept := ρ.matrix.entry i j * keep
      if i = j then kept + mixed else kept⟩

/-- Adds the noise to the diagonal, from the top; surplus noise is ignored. -/
def disturb {n : Nat} (m : SquareMatrix K n) (noise : Array K) : SquareMatrix K n :=
  SquareMatrix.ofFn fun i j =>
    let z := m.entry i j
    if i = j then
      match noise[i.val]? with
      | some x => z + Amplitude.ofScalar x
      | none => z
    else z

/-- Adds the noise to the diagonal and restores the trace. Noise that cancels the trace leaves the
state as it is. -/
def perturb (ρ : DensityMatrix K) (noise : List K) : DensityMatrix K :=
  let m := disturb ρ.matrix noise.toArray
  let trace := m.trace
  if Scalar.lt trace.norm normFloor then ρ
  else ⟨ρ.qubits, m.map (· / trace)⟩

/-- The trace; a state has trace one. -/
def trace (ρ : DensityMatrix K) : Amplitude K :=
  ρ.matrix.trace

/-- Is the matrix its own conjugate transpose, up to a tolerance? -/
def isHermitian (ρ : DensityMatrix K) (tolerance : K) : Bool :=
  Scalar.le ρ.matrix.asymmetry tolerance

end DensityMatrix

/-- The spectrum of a state. -/
def DensityMatrix.eigenvalues {K : Type} [Numerics K] (ρ : DensityMatrix K) : List K :=
  Numerics.eigenvalues ρ.matrix

end Nonlocal
