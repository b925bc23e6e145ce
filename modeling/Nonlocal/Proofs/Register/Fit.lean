import Nonlocal.Correlator

/-!
Registers and the terms that fit them, whatever the numbers are.

Noise never changes the register (`DensityMatrix.qubits_depolarize` and
`DensityMatrix.qubits_perturb`), and evaluation succeeds exactly on terms with one factor for each
of its qubits (`Correlators.exists_evaluate_iff`).
-/

namespace Nonlocal

variable {K : Type} [Scalar K]

namespace DensityMatrix

@[simp] theorem qubits_depolarize (ρ : DensityMatrix K) (p : K) :
    (ρ.depolarize p).qubits = ρ.qubits := by
  rw [depolarize]
  cases Scalar.eq (Clamp.depolarizing p) 0 <;> rfl

@[simp] theorem qubits_perturb (ρ : DensityMatrix K) (noise : List K) :
    (ρ.perturb noise).qubits = ρ.qubits := by
  rw [perturb]
  cases Scalar.lt (disturb ρ.matrix noise.toArray).trace.norm normFloor <;> rfl

theorem clampQubits_eq {n : Nat} (pos : 1 ≤ n) (le : n ≤ maxQubits) : clampQubits n = n :=
  (congrArg (Nat.max 1) (Nat.min_eq_left le)).trans (Nat.max_eq_right pos)

theorem clampQubits_pos (n : Nat) : 1 ≤ clampQubits n :=
  Nat.le_max_left _ _

theorem clampQubits_le (n : Nat) : clampQubits n ≤ maxQubits :=
  Nat.max_le.mpr ⟨by decide, Nat.min_le_right _ _⟩

theorem qubits_ghz {n : Nat} (pos : 1 ≤ n) (le : n ≤ maxQubits) :
    (ghz n : DensityMatrix K).qubits = n :=
  clampQubits_eq pos le

end DensityMatrix

namespace Correlators

variable {ρ : DensityMatrix K}

theorem exists_valuesFrom_iff (index : Nat) (terms : List (Term K)) :
    (∃ values, valuesFrom ρ index terms = .ok values) ↔ ∀ t ∈ terms, t.qubits = ρ.qubits := by
  induction terms generalizing index with
  | nil => exact ⟨fun _ => List.forall_mem_nil _, fun _ => ⟨[], rfl⟩⟩
  | cons t rest ih =>
    rw [List.forall_mem_cons, ← ih (index + 1), valuesFrom]
    split
    · next size =>
      cases valuesFrom ρ (index + 1) rest with
      | error e => exact ⟨nofun, fun both => nomatch both.2⟩
      | ok values => exact ⟨fun _ => ⟨size, values, rfl⟩, fun _ => ⟨_, rfl⟩⟩
    · next misfit => exact ⟨nofun, fun both => absurd both.1 misfit⟩

theorem exists_evaluate_iff (terms : List (Term K)) :
    (∃ c, evaluate ρ terms = .ok c) ↔ ∀ t ∈ terms, t.qubits = ρ.qubits := by
  rw [← exists_valuesFrom_iff 0, evaluate]
  cases valuesFrom ρ 0 terms with
  | error e => exact ⟨nofun, nofun⟩
  | ok values => exact ⟨fun _ => ⟨values, rfl⟩, fun _ => ⟨_, rfl⟩⟩

end Correlators

end Nonlocal
