import Nonlocal.Linear.Binary64
import Nonlocal.Proofs.Binary64.Probability

/-!
Binary64 with functions from outside.

The arithmetic of binary64 is given by its definition. Its sine and cosine, the quantiles of the
normal distribution and the counts of the binomial one are not, and a theorem may take them as it
needs them. A program is run with `Functions.standard`, which makes the numerics of binary64
(`Functions.numerics_standard`); with `Functions.counting` every draw is a count.
-/

namespace Nonlocal.Binary64

/-- The functions that the arithmetic of binary64 does not determine. -/
structure Functions where
  sin : Float → Float
  cos : Float → Float
  normalQuantile : Float → Float
  binomial : Nat → Float → Generator → Option (Nat × Generator)

namespace Functions

/-- The functions that a program is run with. -/
abbrev standard : Functions where
  sin := Float.sin
  cos := Float.cos
  normalQuantile := Normal.quantile
  binomial := Binomial.draw?

/-- The functions that a program is run with, apart from draws that have no answer, or one that
exceeds the trials: these count no success. -/
abbrev counting : Functions :=
  { standard with
    binomial := fun n p g => some ((Binomial.count n p g).1.val, (Binomial.count n p g).2) }

variable (f : Functions)

/-- The arithmetic of binary64 with the given functions. -/
abbrev numerics : Numerics Float :=
  { instNumericsFloat with
    sin := f.sin
    cos := f.cos
    normalQuantile := f.normalQuantile
    binomial := f.binomial }

theorem numerics_standard : standard.numerics = instNumericsFloat :=
  rfl

theorem hasProbabilities : @HasProbabilities Float f.numerics.toScalar :=
  @HasProbabilities.mk Float f.numerics.toScalar probability_bounds

/-- The functions count: a draw has an answer, and it does not exceed the trials. -/
def Counts : Prop :=
  ∀ n p g, ∃ k g', f.binomial n p g = some (k, g') ∧ k ≤ n

theorem counts_counting : counting.Counts :=
  fun n p g => ⟨_, _, rfl, Nat.le_of_lt_succ (Binomial.count n p g).1.isLt⟩

variable {f}

theorem Counts.hasCounts (counts : f.Counts) : @HasCounts Float f.numerics :=
  @HasCounts.mk Float f.numerics fun n p _ _ g => counts n p g

end Functions

/-- Binary64 with draws that are counts. -/
abbrev counting : Numerics Float :=
  Functions.counting.numerics

theorem hasCounts_counting : @HasCounts Float counting :=
  Functions.counts_counting.hasCounts

end Nonlocal.Binary64
