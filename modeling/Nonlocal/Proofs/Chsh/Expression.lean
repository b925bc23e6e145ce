import Nonlocal.Proofs.Register.Correlation

/-!
The CHSH expression on a two-qubit register.

The observables of the two parties act on different qubits, so that a correlator of two settings is
the trace of a state times a product of commuting operators (`pairCorrelation_eq`). Evaluating the
four terms gives the four correlators and their signed sum (`evaluate_chshTerms`).
-/

namespace Nonlocal

open Matrix Exact

/-- The observable of the first party. -/
noncomputable def onFirst (s : Setting Exact) : Operator 2 :=
  kron s.matrix (1 : Operator 1)

/-- The observable of the second party. -/
noncomputable def onSecond (s : Setting Exact) : Operator 2 :=
  kron 1 (kron s.matrix (1 : Operator 0))

theorem onFirst_mul_onSecond (s t : Setting Exact) :
    onFirst s * onSecond t = kron s.matrix (kron t.matrix (1 : Operator 0)) := by
  rw [onFirst, onSecond, kron_mul_kron, Matrix.mul_one, Matrix.one_mul]

theorem onSecond_mul_onFirst (s t : Setting Exact) :
    onSecond t * onFirst s = kron s.matrix (kron t.matrix (1 : Operator 0)) := by
  rw [onFirst, onSecond, kron_mul_kron, Matrix.mul_one, Matrix.one_mul]

theorem onFirst_mul_self (s : Setting Exact) : onFirst s * onFirst s = 1 :=
  s.kron_one_mul_self 1

theorem onSecond_mul_self (s : Setting Exact) : onSecond s * onSecond s = 1 := by
  rw [onSecond, kron_mul_kron, s.kron_one_mul_self, Matrix.one_mul, kron_one_one]

theorem conjTranspose_onFirst (s : Setting Exact) : (onFirst s)ᴴ = onFirst s :=
  s.conjTranspose_kron_one 1

theorem conjTranspose_onSecond (s : Setting Exact) : (onSecond s)ᴴ = onSecond s := by
  rw [onSecond, conjTranspose_kron, s.conjTranspose_kron_one, conjTranspose_one]

/-- The correlator of two settings. -/
noncomputable def pairCorrelation (M : Operator 2) (s t : Setting Exact) : ℝ :=
  correlation M [some s, some t]

theorem pairCorrelation_eq (M : Operator 2) (s t : Setting Exact) :
    pairCorrelation M s t = (M * (onFirst s * onSecond t)).trace.re := by
  rw [onFirst_mul_onSecond]
  exact @correlation_eq [some s, some t] M

/-- The CHSH expression of the correlators in a state. -/
noncomputable def chshValue (M : Operator 2) (a a' b b' : Setting Exact) : ℝ :=
  pairCorrelation M a b + pairCorrelation M a' b + pairCorrelation M a b' - pairCorrelation M a' b'

theorem chshValue_eq (M : Operator 2) (a a' b b' : Setting Exact) :
    chshValue M a a' b b' = (M * (onFirst a * onSecond b + onFirst a' * onSecond b +
      onFirst a * onSecond b' - onFirst a' * onSecond b')).trace.re := by
  simp only [chshValue, pairCorrelation_eq, Matrix.mul_sub, Matrix.mul_add, trace_sub, trace_add,
    Complex.sub_re, Complex.add_re]

section Evaluation

variable {a a' b b' : Setting Exact}

theorem pair_fits {s t : Setting Exact} (hs : s.isFinite = true) (ht : t.isFinite = true)
    (sign : ℝ) : (Term.pair s t (finite sign)).Fits 2 where
  size := rfl
  angles := by
    intro u hu
    simp only [Term.pair, List.mem_cons, Option.some.injEq, List.not_mem_nil, or_false] at hu
    rcases hu with rfl | rfl
    · exact hs
    · exact ht
  sign := rfl

theorem chshTerms_fit (ha : a.isFinite = true) (ha' : a'.isFinite = true)
    (hb : b.isFinite = true) (hb' : b'.isFinite = true) :
    ∀ t ∈ chshTerms a a' b b', t.Fits 2 := by
  intro t ht
  simp only [chshTerms, one_eq, neg_finite, List.mem_cons, List.not_mem_nil, or_false] at ht
  rcases ht with rfl | rfl | rfl | rfl
  · exact pair_fits ha hb 1
  · exact pair_fits ha' hb 1
  · exact pair_fits ha hb' 1
  · exact pair_fits ha' hb' (-1)

/-- The four correlators in order, and their signed sum. -/
theorem evaluate_chshTerms (M : Operator 2) (ha : a.isFinite = true) (ha' : a'.isFinite = true)
    (hb : b.isFinite = true) (hb' : b'.isFinite = true) :
    Correlators.evaluate (.ofMatrix M) (chshTerms a a' b b') = .ok {
      values := [pairCorrelation M a b, pairCorrelation M a' b, pairCorrelation M a b',
        pairCorrelation M a' b'].map finite
      signs := [finite 1, finite 1, finite 1, finite (-1)]
      exact := finite (chshValue M a a' b b') } := by
  rw [Correlators.evaluate_ofMatrix M (chshTerms_fit ha ha' hb hb')]
  simp only [chshTerms, Term.pair, one_eq, neg_finite, List.map_cons, List.map_nil, List.sum_cons,
    List.sum_nil, toReal_finite, one_mul, neg_mul, chshValue, pairCorrelation]
  congr 3
  ring

/-- The evaluation for angles in the plane. -/
theorem evaluate_chshTerms_planar (M : Operator 2) (a a' b b' : ℝ) :
    let setting (angle : ℝ) : Setting Exact := .planar (finite angle)
    Correlators.evaluate (.ofMatrix M)
        (chshTerms (setting a) (setting a') (setting b) (setting b')) = .ok {
      values := [pairCorrelation M (setting a) (setting b),
        pairCorrelation M (setting a') (setting b), pairCorrelation M (setting a) (setting b'),
        pairCorrelation M (setting a') (setting b')].map finite
      signs := [finite 1, finite 1, finite 1, finite (-1)]
      exact := finite (chshValue M (setting a) (setting a') (setting b) (setting b')) } :=
  evaluate_chshTerms M (Setting.isFinite_planar a) (Setting.isFinite_planar a')
    (Setting.isFinite_planar b) (Setting.isFinite_planar b')

end Evaluation

end Nonlocal
