import Nonlocal.DensityMatrix

/-!
Correlators: signed products of single-qubit observables, and their exact expectation values.

A term names an observable for each qubit of a register, or none where the qubit is not measured.
Its operator is the tensor product of the factors, the first one acting on the most significant bit.
-/

namespace Nonlocal

/-- A signed product observable; a qubit without a setting is left alone. -/
structure Term (K : Type) where
  factors : List (Option (Setting K))
  sign : K

/-- The values of a list of terms, their signs, and the signed sum. -/
structure Correlators (K : Type) where
  values : List K
  signs : List K
  exact : K

namespace Term

variable {K : Type} [Scalar K]

/-- The number of qubits that the term acts on. -/
def qubits (t : Term K) : Nat :=
  t.factors.length

/-- The term that measures two qubits. -/
def pair (a b : Setting K) (sign : K) : Term K :=
  ⟨[some a, some b], sign⟩

/-- The identity on one qubit. -/
def identity : SquareMatrix K 2 :=
  SquareMatrix.ofFn fun i j => if i = j then Amplitude.ofScalar 1 else 0

/-- The operator of one factor. -/
def factorOperator : Option (Setting K) → SquareMatrix K 2
  | some s => s.observable
  | none => identity

/-- The matrix whose blocks are given by the first bits of the row and of the column. -/
def ofBlocks {q : Nat} (block : Fin 2 → Fin 2 → SquareMatrix K (basisSize q)) :
    SquareMatrix K (basisSize (q + 1)) :=
  let blocks := Vector.ofFn fun a => Vector.ofFn fun b => block a b
  SquareMatrix.ofFn fun i j =>
    ((blocks[firstBit i])[firstBit j]).entry (otherBits i) (otherBits j)

omit [Scalar K] in
@[simp] theorem entry_ofBlocks {q : Nat} (block : Fin 2 → Fin 2 → SquareMatrix K (basisSize q))
    (i j : Fin (basisSize (q + 1))) : (ofBlocks block).entry i j =
      (block (firstBit i) (firstBit j)).entry (otherBits i) (otherBits j) := by
  simp [ofBlocks]

/-- The tensor product of all factors, after a number that the factors before have come to: an entry
is multiplied up from the first factor to the last. -/
def operatorFrom : (acc : Amplitude K) → (factors : List (Option (Setting K))) →
    SquareMatrix K (basisSize factors.length)
  | acc, [] => SquareMatrix.ofFn fun _ _ => acc
  | acc, f :: rest =>
    let first := factorOperator f
    ofBlocks fun a b => operatorFrom (acc * first.entry a b) rest

/-- The tensor product of all factors. -/
def operatorOf (factors : List (Option (Setting K))) : SquareMatrix K (basisSize factors.length) :=
  operatorFrom (Amplitude.ofScalar 1) factors

/-- The operator of the term. -/
def operator (t : Term K) : SquareMatrix K (basisSize t.qubits) :=
  operatorOf t.factors

/-- The expectation value `Re Tr (ρ · O)` of the term in a state of its size, without the sign. -/
def expectation (ρ : DensityMatrix K) (t : Term K) (size : t.qubits = ρ.qubits) : K :=
  (SquareMatrix.traceMul ρ.matrix (size ▸ t.operator)).re

end Term

/-- The four terms of the CHSH expression, with settings `a, a'` of the first party and `b, b'` of
the second: `ab + a'b + ab' - a'b'`. -/
def chshTerms {K : Type} [Scalar K] (a a' b b' : Setting K) : List (Term K) :=
  [.pair a b 1, .pair a' b 1, .pair a b' 1, .pair a' b' (-1)]

namespace Correlators

variable {K : Type} [Scalar K]

/-- The value of each term in order; the first term that does not fit the register is an error. -/
def valuesFrom (ρ : DensityMatrix K) (index : Nat) : List (Term K) → Except (Error K) (List K)
  | [] => .ok []
  | t :: rest =>
    if size : t.qubits = ρ.qubits then do
      let values ← valuesFrom ρ (index + 1) rest
      return t.expectation ρ size :: values
    else .error (.malformed (.termSize index t.qubits ρ.qubits))

/-- The sum of values with their signs, from the left. -/
def signedSum (signs values : List K) : K :=
  (signs.zip values).foldl (fun acc (sign, value) => acc + sign * value) 0

/-- Evaluates every term in a state. -/
def evaluate (ρ : DensityMatrix K) (terms : List (Term K)) :
    Except (Error K) (Correlators K) := do
  let values ← valuesFrom ρ 0 terms
  let signs := terms.map Term.sign
  return ⟨values, signs, signedSum signs values⟩

end Correlators

end Nonlocal
