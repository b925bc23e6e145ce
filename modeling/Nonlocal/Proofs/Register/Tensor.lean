import Nonlocal.Correlator
import Nonlocal.Proofs.Exact.Matrix

/-!
Tensor products on registers, as complex matrices over bit strings.

Splitting off the first bit of a string identifies the strings of a register with pairs of a bit and
a shorter string. `kron` is the Kronecker product under this identification, and `ofBlocks_smul` says
that the simulator builds it from its blocks.
-/

namespace Nonlocal

open Matrix
open scoped Kronecker

/-- Complex matrices over the bit strings of a register. -/
abbrev Operator (q : ℕ) :=
  Matrix (Fin (basisSize q)) (Fin (basisSize q)) ℂ

variable {q : ℕ}

/-! ## Splitting off the first bit -/

/-- A bit in front of a string. -/
def joinBits (b : Fin 2) (i : Fin (basisSize q)) : Fin (basisSize (q + 1)) :=
  ⟨b * basisSize q + i, by
    have hb : b.val * basisSize q ≤ 1 * basisSize q := Nat.mul_le_mul_right _ (by omega)
    have hi := i.isLt
    rw [basisSize_succ]
    omega⟩

@[simp] theorem firstBit_joinBits (b : Fin 2) (i : Fin (basisSize q)) :
    firstBit (joinBits b i) = b := by
  ext
  change (b * basisSize q + i) / basisSize q = b.val
  rw [Nat.add_comm, Nat.add_mul_div_right _ _ (basisSize_pos q), Nat.div_eq_of_lt i.isLt,
    Nat.zero_add]

@[simp] theorem otherBits_joinBits (b : Fin 2) (i : Fin (basisSize q)) :
    otherBits (joinBits b i) = i := by
  ext
  change (b * basisSize q + i) % basisSize q = i.val
  rw [Nat.mul_comm, Nat.mul_add_mod, Nat.mod_eq_of_lt i.isLt]

/-- A string is its first bit in front of the others. -/
def splitBits (q : ℕ) : Fin (basisSize (q + 1)) ≃ Fin 2 × Fin (basisSize q) where
  toFun i := (firstBit i, otherBits i)
  invFun p := joinBits p.1 p.2
  left_inv i := Fin.ext (Nat.div_add_mod' i.val (basisSize q))
  right_inv p := by simp

theorem joinBits_inj {b c : Fin 2} {i j : Fin (basisSize q)} :
    joinBits b i = joinBits c j ↔ b = c ∧ i = j :=
  ((splitBits q).symm.injective.eq_iff (a := (b, i)) (b := (c, j))).trans Prod.mk_inj

/-- The string of `q` bits that are all `b`. -/
def uniformBits (q : ℕ) (b : Fin 2) : Fin (basisSize q) :=
  ⟨b * (basisSize q - 1), by
    have hb : b.val * (basisSize q - 1) ≤ 1 * (basisSize q - 1) := Nat.mul_le_mul_right _ (by omega)
    have hq := basisSize_pos q
    omega⟩

theorem val_uniformBits_zero (q : ℕ) : (uniformBits q 0).val = 0 :=
  Nat.zero_mul _

theorem val_uniformBits_one (q : ℕ) : (uniformBits q 1).val = basisSize q - 1 :=
  Nat.one_mul _

theorem uniformBits_succ (q : ℕ) (b : Fin 2) :
    uniformBits (q + 1) b = joinBits b (uniformBits q b) := by
  have hq := basisSize_pos q
  have hs := basisSize_succ q
  ext
  fin_cases b
  · simp [uniformBits, joinBits]
  · simp only [uniformBits, joinBits]
    omega

theorem uniformBits_ne (pos : 1 ≤ q) : uniformBits q 0 ≠ uniformBits q 1 := by
  intro same
  have values := congrArg Fin.val same
  have large : 2 ≤ basisSize q := Nat.le_self_pow (by omega) 2
  rw [val_uniformBits_zero, val_uniformBits_one] at values
  omega

/-! ## Kronecker products -/

/-- The Kronecker product of an operator on the first qubit and an operator on the others. -/
def kron (A : Matrix (Fin 2) (Fin 2) ℂ) (B : Operator q) : Operator (q + 1) :=
  (A ⊗ₖ B).submatrix (splitBits q) (splitBits q)

theorem kron_apply (A : Matrix (Fin 2) (Fin 2) ℂ) (B : Operator q) (i j) :
    kron A B i j = A (firstBit i) (firstBit j) * B (otherBits i) (otherBits j) := rfl

theorem smul_kron (z : ℂ) (A : Matrix (Fin 2) (Fin 2) ℂ) (B : Operator q) :
    kron (z • A) B = z • kron A B := by
  ext i j
  rw [kron_apply, Matrix.smul_apply, Matrix.smul_apply, kron_apply, smul_mul_assoc]

theorem ofBlocks_smul (A : Matrix (Fin 2) (Fin 2) ℂ) (B : Operator q) :
    Term.ofBlocks (fun a b => .ofMatrix (A a b • B)) = .ofMatrix (kron A B) :=
  SquareMatrix.ext_entry fun i j => by simp [kron_apply]

@[simp] theorem kron_mul_kron (A C : Matrix (Fin 2) (Fin 2) ℂ) (B D : Operator q) :
    kron A B * kron C D = kron (A * C) (B * D) := by
  rw [kron, kron, submatrix_mul_equiv, ← mul_kronecker_mul]
  rfl

@[simp] theorem kron_one_one : kron 1 (1 : Operator q) = 1 := by
  rw [kron, one_kronecker_one, submatrix_one_equiv]

@[simp] theorem trace_kron (A : Matrix (Fin 2) (Fin 2) ℂ) (B : Operator q) :
    (kron A B).trace = A.trace * B.trace := by
  rw [← trace_kronecker]
  exact (splitBits q).sum_comp fun p => (A ⊗ₖ B) p p

theorem conjTranspose_kron (A : Matrix (Fin 2) (Fin 2) ℂ) (B : Operator q) :
    (kron A B)ᴴ = kron Aᴴ Bᴴ := by
  rw [kron, conjTranspose_submatrix, conjTranspose_kronecker]
  rfl

end Nonlocal
