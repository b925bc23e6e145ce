import Nonlocal.Chaos.Attractor
import Nonlocal.Chaos.Seed

/-!
A sample of chaos: the ends of two attractors and of a logistic orbit, the noise that it injects
into a register, and its energy.
-/

namespace Nonlocal

/-- The parameters of the chaotic systems. -/
structure ChaosConfig (K : Type) where
  lorenzSigma : K
  lorenzRho : K
  lorenzBeta : K
  lorenzInitial : Vec3 K
  lorenzSpan : TimeSpan K
  chuaAlpha : K
  chuaBeta : K
  chuaGamma : K
  chuaM0 : K
  chuaM1 : K
  chuaInitial : Vec3 K
  chuaSpan : TimeSpan K
  logisticR : K
  logisticSteps : UInt64

/-- The ends of the Lorenz and Chua flows and of the logistic map. -/
structure ChaosVector (K : Type) where
  lorenz : Vec3 K
  chua : Vec3 K
  logistic : K

variable {K : Type} [Scalar K]

/-- The standard systems over their standard windows. -/
def ChaosConfig.standard : ChaosConfig K where
  lorenzSigma := 10
  lorenzRho := 28
  lorenzBeta := 8 / 3
  lorenzInitial := ⟨1, 1, 1⟩
  lorenzSpan := ⟨0, 20, 512, TimeSpan.defaultSubsteps⟩
  chuaAlpha := Scalar.ofScientific 156 true 1
  chuaBeta := 28
  chuaGamma := Scalar.ofScientific 1 true 1
  chuaM0 := -Scalar.ofScientific 1143 true 3
  chuaM1 := -Scalar.ofScientific 714 true 3
  chuaInitial := ⟨Scalar.ofScientific 1 true 1, 0, 0⟩
  chuaSpan := ⟨0, 40, 1024, TimeSpan.defaultSubsteps⟩
  logisticR := Scalar.ofScientific 3999 true 3
  logisticSteps := 64

namespace ChaosVector

/-- The squared length of both attractor ends. -/
def energy (v : ChaosVector K) : K :=
  Scalar.sum (v.lorenz.toList.map fun x => x * x) + Scalar.sum (v.chua.toList.map fun x => x * x)

/-- The noise on the first five diagonal entries of a register, each folded into `[-1, 1]`. -/
def noise (v : ChaosVector K) : List K :=
  [v.lorenz.x, v.chua.y, v.logistic, 0, 0].map Clamp.expectation

/-- Where the systems end over spans whose steps have been counted. The attractors start from fixed
points; only the logistic map takes the fraction. -/
def sample (config : ChaosConfig K) (fraction : K) : ChaosVector K where
  lorenz :=
    Field.integrate (Lorenz.field ⟨config.lorenzSigma, config.lorenzRho, config.lorenzBeta⟩)
      config.lorenzSpan config.lorenzInitial
  chua :=
    Field.integrate
      (Chua.field ⟨config.chuaAlpha, config.chuaBeta, config.chuaGamma, config.chuaM0,
        config.chuaM1⟩)
      config.chuaSpan config.chuaInitial
  logistic := logisticMap fraction config.logisticR config.logisticSteps.toNat

end ChaosVector

/-- A source of chaos for a seed fraction. -/
abbrev ChaosSource (K : Type) := K → ChaosVector K

/-- A source of chaos that can end the program. -/
abbrev ChaosEngine (K : Type) := K → Except Panic (ChaosVector K)

/-- Runs the systems. Each attractor counts its steps before it takes the first one. -/
def ChaosConfig.engine (config : ChaosConfig K) : ChaosEngine K := fun fraction => do
  let _ ← config.lorenzSpan.countSteps
  let _ ← config.chuaSpan.countSteps
  return ChaosVector.sample config fraction

end Nonlocal
